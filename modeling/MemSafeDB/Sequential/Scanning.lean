import MemSafeDB.Sequential.Sessions
import MemSafeDB.Tree.Range

/-!
# One thread alone: scans

A scan holds one leaf shared, and for a moment also the next one. It reports the entries of the
leaf from its position on and then those of the leaves behind it, or before it.
-/

namespace MemSafeDB
open Lib PageState

variable {τ : Type} [DecidableEq τ]

/-- Thread `t` is alone and holds the pages `L` shared. -/
structure Sharing (env : Env) (t : τ) (L : List PID) (s : Sys τ) : Prop where
  crashed : s.crashed = none
  shared : ∀ p ∈ L, p < s.allocCount ∧ getState (s.word p) = 1
  free : ∀ p, p < s.allocCount → p ∉ L → getState (s.word p) = Unlocked
  fresh : ∀ p, s.allocCount ≤ p → getState (s.word p) = Evicted ∧ s.resident p = false
  alone : ∀ p, ∀ u ∈ s.xHolders p, u = t
  alloc : 0 < s.allocCount ∧ s.allocCount ≤ env.virtCount

omit [DecidableEq τ] in
lemma Solo.sharing {env : Env} {t : τ} {s : Sys τ} (h : Solo env t [] s) : Sharing env t [] s :=
  ⟨h.crashed, by simp, h.free, h.fresh, h.alone, h.alloc⟩

namespace Sharing

variable {env : Env} {t : τ} {c : Choice} {P : Sys τ → Op → Prop} {F : Fault → Prop}
  {L : List PID} {s : Sys τ} {p q : PID} {key : Key} {l : Nat}

omit [DecidableEq τ] in
lemma solo (h : Sharing env t [] s) : Solo env t [] s :=
  ⟨h.crashed, by simp, h.free, h.fresh, h.alone, h.alloc⟩

omit [DecidableEq τ] in
lemma calm (h : Sharing env t L s) : Calm env t [] s := by
  refine ⟨h.crashed, fun p hp _ => ?_, h.alone, h.alloc⟩
  by_cases hL : p ∈ L
  · rw [(h.shared p hL).2]
    decide
  · rw [h.free p hp hL]
    decide

omit [DecidableEq τ] in
lemma marks (h : Sharing env t L s) (f : τ → List Nat) : Sharing env t L { s with marks := f } :=
  ⟨h.crashed, h.shared, h.free, h.fresh, h.alone, h.alloc⟩

omit [DecidableEq τ] in
lemma swap (h : Sharing env t [p, q] s) : Sharing env t [q, p] s where
  crashed := h.crashed
  shared r hr := h.shared r (by simpa [or_comm] using hr)
  free r hr hL := h.free r hr (by simpa [and_comm] using hL)
  fresh := h.fresh
  alone := h.alone
  alloc := h.alloc

lemma lockS (h : Sharing env t L s) (hp : p < s.allocCount) :
    Sharing env t (p :: L) (s.cas t .lockS p (sameVersion (s.word p) 1)) where
  crashed := h.crashed
  shared := by
    intro q hq
    change q < s.allocCount ∧ getState (Function.update s.word p _ q) = 1
    by_cases hqp : q = p
    · subst hqp
      rw [Function.update_self, getState_sameVersion _ (by decide)]
      exact ⟨hp, rfl⟩
    · rw [Function.update_of_ne hqp]
      exact h.shared q ((List.mem_cons.mp hq).resolve_left hqp)
  free := by
    intro q hq hL
    change getState (Function.update s.word p _ q) = Unlocked
    rw [List.mem_cons, not_or] at hL
    rw [Function.update_of_ne hL.1]
    exact h.free q hq hL.2
  fresh := by
    intro q hq
    change getState (Function.update s.word p _ q) = Evicted ∧ _
    rw [Function.update_of_ne (by rintro rfl; exact absurd hp (not_lt.mpr hq))]
    exact h.fresh q hq
  alone := h.alone
  alloc := h.alloc

lemma unlockS (h : Sharing env t (p :: L) s) (hL : p ∉ L) :
    Sharing env t L (s.cas t .unlockS p (sameVersion (s.word p) Unlocked)) where
  crashed := h.crashed
  shared := by
    intro q hq
    change q < s.allocCount ∧ getState (Function.update s.word p _ q) = 1
    rw [Function.update_of_ne (by rintro rfl; exact hL hq)]
    exact h.shared q (List.mem_cons_of_mem _ hq)
  free := by
    intro q hq hqL
    change getState (Function.update s.word p _ q) = Unlocked
    by_cases hqp : q = p
    · subst hqp
      rw [Function.update_self, getState_sameVersion _ (by decide)]
    · rw [Function.update_of_ne hqp]
      exact h.free q hq (by simp [hqp, hqL])
  fresh := by
    intro q hq
    change getState (Function.update s.word p _ q) = Evicted ∧ _
    have hp := (h.shared p List.mem_cons_self).1
    rw [Function.update_of_ne (by rintro rfl; exact absurd hp (not_lt.mpr hq))]
    exact h.fresh q hq
  alone := h.alone
  alloc := h.alloc

/-! ## Latches -/

/-- A free page is latched at the first attempt. -/
lemma runs_tryLockS (h : Sharing env t L s) (hp : p < s.allocCount) (hL : p ∉ L) :
    Runs t c P F (tryLockS p (s.word p)) s
      (fun ok s' => ok = true ∧ Sharing env t (p :: L) s' ∧ Kept s s') := by
  have hstate := h.free p hp hL
  unfold tryLockS
  rw [if_pos (by rw [hstate]; decide), hstate]
  have hexec : Sys.perform t c (.cas .lockS p (s.word p) (sameVersion (s.word p) 1)) s =
      some (true, s.cas t .lockS p (sameVersion (s.word p) 1)) := if_pos ⟨rfl, by simp⟩
  exact Runs.op _ h.crashed hexec (fun _ => trivial)
    (fun _ => ⟨rfl, h.lockS hp, rfl, rfl, rfl⟩)

lemma runs_ofGuardO (h : Sharing env t L s) {g : GuardO} (hp : g.pid < s.allocCount)
    (hL : g.pid ∉ L) (hg : Current s g) :
    Runs t c P F (GuardS.ofGuardO g) s
      (fun p s' => p = g.pid ∧ Sharing env t (g.pid :: L) s' ∧ Kept s s') := by
  have hlock := h.runs_tryLockS (c := c) (P := P) (F := F) hp hL
  rw [← hg] at hlock
  refine hlock.bind ?_
  rintro ok s1 ⟨rfl, h1, hkept⟩
  exact Runs.pure ⟨rfl, h1, hkept⟩

lemma runs_fixS (h : Sharing env t L s) (hp : p < s.allocCount) (hL : p ∉ L) (hf : 0 < env.fuel) :
    Runs t c P F (BufferManager.fixS env p) s
      (fun q s' => q = p ∧ Sharing env t (p :: L) s' ∧ Kept s s') := by
  obtain ⟨n, hn⟩ : ∃ n, env.fuel = n + 1 := ⟨env.fuel - 1, by omega⟩
  have hstate := h.free p hp hL
  unfold BufferManager.fixS
  rw [hn]
  refine (Runs.load .other p h.crashed).bind ?_
  rintro v _ ⟨rfl, rfl⟩
  rw [if_neg (by rw [hstate]; decide), if_neg (by rw [hstate]; decide)]
  refine (h.runs_tryLockS hp hL).bind ?_
  rintro ok s1 ⟨rfl, h1, hkept⟩
  exact Runs.pure ⟨rfl, h1, hkept⟩

lemma runs_unfixS (h : Sharing env t (p :: L) s) (hL : p ∉ L) (hf : 0 < env.fuel) :
    Runs t c P F (BufferManager.unfixS env p) s
      (fun _ s' => Sharing env t L s' ∧ Kept s s') := by
  obtain ⟨n, hn⟩ : ∃ n, env.fuel = n + 1 := ⟨env.fuel - 1, by omega⟩
  have hstate := (h.shared p List.mem_cons_self).2
  unfold BufferManager.unfixS
  rw [hn]
  refine (Runs.load .other p h.crashed).bind ?_
  rintro v _ ⟨rfl, rfl⟩
  refine (Runs.assert _ (by rw [hstate]; decide)).bind ?_
  rintro _ _ rfl
  rw [hstate]
  refine Runs.bind (Q := fun ok s' => ok = true ∧
      s' = s.cas t .unlockS p (sameVersion (s.word p) Unlocked)) ?_ ?_
  · refine Runs.op (.cas .unlockS p (s.word p) _) h.crashed ?_ (fun _ => trivial)
      (fun _ => ⟨rfl, rfl⟩)
    simp [Sys.perform]
  · rintro ok _ ⟨rfl, rfl⟩
    exact Runs.pure ⟨h.unlockS hL, rfl, rfl, rfl⟩

/-- The leaf that covers the key is latched in the first attempt, unless it is held already. -/
lemma runs_findLeafS (h : Sharing env t L s) (hs : Planted s)
    (hl : s.tree.level s.tree.root = some l) (hf : l < env.fuel)
    (hL : ∀ p, s.tree.level p = some 0 → s.tree.Covers p key → p ∉ L) :
    Runs t c P F (BTree.findLeafS env key) s (fun p s' => s.tree.level p = some 0 ∧
      s.tree.Covers p key ∧ Sharing env t (p :: L) s' ∧ Kept s s') := by
  obtain ⟨n, hn⟩ : ∃ n, env.fuel = n + 1 := ⟨env.fuel - 1, by omega⟩
  unfold BTree.findLeafS
  rw [hn]
  have h0 : Sharing env t L (s.attempt t) := h.marks _
  have hs0 : Planted (s.attempt t) := ⟨hs.inv, hs.alloc, hs.height⟩
  refine Solo.runs_retry_round h.crashed (Runs.bind (Q := fun p s1 => s.tree.level p = some 0 ∧
    s.tree.Covers p key ∧ Sharing env t (p :: L) s1 ∧ Kept s s1) ?_ ?_)
  · refine (h0.calm.runs_findLeafO hs0 hl hf key).bind ?_
    rintro g _ ⟨rfl, hg, hlevel, hk⟩
    refine (h0.runs_ofGuardO (hs.alloc _ _ hlevel) (hL _ hlevel hk) hg).onThrow.mono ?_
    rintro p s1 ⟨rfl, h1, hkept⟩
    exact ⟨hlevel, hk, h1, hkept.tree, hkept.allocCount, hkept.splitOrdered⟩
  · rintro p s1 ⟨hlevel, hk, h1, hkept⟩
    refine Runs.pure ⟨h1.crashed, fun f => ⟨hlevel, hk, h1.marks f, ?_⟩⟩
    exact ⟨hkept.tree, hkept.allocCount, hkept.splitOrdered⟩

/-! ## Loops -/

section Loops

variable {T : Tree} {leaves as bs : List PID} {acc : List (Key × Key)} {pos left fuel : Nat}

/-- The loop of `scanAsc` reports what is left of the leaf and then the leaves behind it. -/
lemma runs_scanAscLoop (h : Sharing env t [p] s) (hs : Planted s) (hT : s.tree = T)
    (hrow : T.Row leaves) (heq : leaves = as ++ p :: bs) (hf : 0 < env.fuel)
    (hfuel : ((T.view p).entries.drop pos).length + (T.entriesOf bs).length + bs.length < fuel)
    (fn : List (Key × Key) → Bool) :
    Runs t c P F (BTree.scanAscLoop env fn p pos acc fuel) s (fun es s' =>
      es = reported fn acc ((T.view p).entries.drop pos ++ T.entriesOf bs) ∧
        Solo env t [] s' ∧ Kept s s') := by
  induction fuel generalizing s p pos acc as bs with
  | zero => omega
  | succ fuel ih =>
    have hinv : T.Inv := hT ▸ hs.inv
    have hunfix : ∀ es : List (Key × Key), Runs t c P F (do
        BufferManager.unfixS env p
        pure es) s (fun es' s' => es' = es ∧ Solo env t [] s' ∧ Kept s s') := by
      intro es
      refine (h.runs_unfixS (by simp) hf).bind ?_
      rintro _ s1 ⟨h1, hkept⟩
      exact Runs.pure ⟨rfl, h1.solo, hkept⟩
    have hpage : s.page p = T.page p := by rw [← hT]; rfl
    refine (Runs.view p h.crashed).bind ?_
    rintro n _ ⟨rfl, rfl⟩
    rw [hpage]
    by_cases hpos : pos < (T.page p).count
    · have hdrop : (T.view p).entries.drop pos =
          ((T.page p).fullKey pos, (T.page p).getPayload pos) ::
            (T.view p).entries.drop (pos + 1) := by
        have hlen : pos < (T.view p).entries.length := by simpa [Tree.view] using hpos
        rw [List.drop_eq_getElem_cons hlen]
        exact congrArg (· :: _) (BTreeNode.getElem_entries hlen)
      rw [if_pos hpos]
      rw [hdrop, List.length_cons] at hfuel
      rw [hdrop, List.cons_append, reported]
      by_cases hfn : fn (acc ++ [((T.page p).fullKey pos, (T.page p).getPayload pos)]) = true
      · rw [if_pos hfn, if_pos hfn]
        exact ih h hs hT heq (by omega)
      · rw [if_neg hfn, if_neg hfn]
        exact hunfix _
    · have hdrop : (T.view p).entries.drop pos = [] := by
        rw [List.drop_eq_nil_iff]
        simpa [Tree.view] using hpos
      rw [if_neg hpos]
      rw [hdrop, List.nil_append]
      rcases hrow.link_eq hinv heq with ⟨rfl, -, hlink⟩ | ⟨cs, rfl, hlink⟩
      · change (T.page p).link = noNeighbour at hlink
        rw [if_pos hlink]
        exact hunfix _
      · change (T.page p).link ≠ noNeighbour at hlink
        have heq' : leaves = (as ++ [p]) ++ (T.page p).link :: cs := by
          rw [heq, List.append_assoc]
          rfl
        have hnext : T.level (T.page p).link = some 0 := hrow.mem_split heq'
        have hne : (T.page p).link ≠ p := by
          have hnodup := hrow.nodup hinv
          rw [heq, List.nodup_append, List.nodup_cons] at hnodup
          intro hself
          refine hnodup.2.1.1 (List.mem_cons.mpr (Or.inl ?_))
          exact hself.symm
        have halloc : (T.page p).link < s.allocCount := hs.alloc _ 0 (hT ▸ hnext)
        rw [if_neg hlink]
        refine (h.runs_fixS halloc (by simpa using hne) hf).bind ?_
        rintro _ s1 ⟨rfl, h1, hkept1⟩
        refine (h1.swap.runs_unfixS (by simpa using hne.symm) hf).bind ?_
        rintro _ s2 ⟨h2, hkept2⟩
        have hkept := hkept1.trans hkept2
        refine (ih h2 (hs.kept hkept) (hkept.tree.trans hT) heq' ?_).mono ?_
        · rw [hdrop] at hfuel
          simp only [Tree.entriesOf_cons, List.length_append, List.length_cons,
            List.length_nil] at hfuel
          simp only [List.drop_zero]
          change _ + ((T.view (T.page p).link).entries.length + _) + _ < _ at hfuel
          omega
        · rintro es s3 ⟨rfl, hsolo, hkept3⟩
          refine ⟨?_, hsolo, hkept.trans hkept3⟩
          rw [List.drop_zero]
          rfl

/-- The loop of `scanDesc` reports what is before its position, backwards, and then the leaves
before that one. -/
lemma runs_scanDescLoop (h : Sharing env t [p] s) (hs : Planted s) (hT : s.tree = T)
    (hrow : T.Row leaves) (heq : leaves = as ++ p :: bs) (hl : T.level T.root = some l)
    (hf : l < env.fuel) (hleft : left ≤ (T.page p).count)
    (hfuel : left + (T.entriesOf as).length + as.length < fuel)
    (fn : Bool → List (Key × Key) → Bool) (exactMatch : Bool) :
    Runs t c P F (BTree.scanDescLoop env fn exactMatch p left acc fuel) s (fun es s' =>
      es = reported (fn exactMatch) acc
        (((T.view p).entries.take left).reverse ++ (T.entriesOf as).reverse) ∧
        Solo env t [] s' ∧ Kept s s') := by
  induction fuel generalizing s p left acc as bs with
  | zero => omega
  | succ fuel ih =>
    have hinv : T.Inv := hT ▸ hs.inv
    have hunfix : ∀ es : List (Key × Key), Runs t c P F (do
        BufferManager.unfixS env p
        pure es) s (fun es' s' => es' = es ∧ Solo env t [] s' ∧ Kept s s') := by
      intro es
      refine (h.runs_unfixS (by simp) (by omega)).bind ?_
      rintro _ s1 ⟨h1, hkept⟩
      exact Runs.pure ⟨rfl, h1.solo, hkept⟩
    have hpage : s.page p = T.page p := by rw [← hT]; rfl
    refine (Runs.view p h.crashed).bind ?_
    rintro n _ ⟨rfl, rfl⟩
    rw [hpage]
    cases left with
    | succ pos =>
      have hlen : pos < (T.view p).entries.length := by
        have hcount : (T.view p).entries.length = (T.page p).count := by simp [Tree.view]
        omega
      have htake : ((T.view p).entries.take (pos + 1)).reverse =
          ((T.page p).fullKey pos, (T.page p).getPayload pos) ::
            ((T.view p).entries.take pos).reverse := by
        rw [List.take_succ_eq_append_getElem hlen, List.reverse_append]
        exact congrArg (· :: _) (BTreeNode.getElem_entries hlen)
      rw [htake, List.cons_append, reported]
      dsimp only
      by_cases hfn : fn exactMatch
          (acc ++ [((T.page p).fullKey pos, (T.page p).getPayload pos)]) = true
      · rw [if_pos hfn, if_pos hfn]
        exact ih h hs hT heq (by omega) (by omega)
      · rw [if_neg hfn, if_neg hfn]
        exact hunfix _
    | zero =>
      have hlen : (T.page p).lowerFence.len = 0 ↔ (T.view p).lower = [] := by
        rw [← List.length_eq_zero_iff]
        change _ ↔ (T.page p).getLowerFence.length = 0
        simp [BTreeNode.getLowerFence]
      rw [List.take_zero, List.reverse_nil, List.nil_append]
      dsimp only
      rcases hrow.last_before hinv heq with ⟨rfl, hlower⟩ | ⟨hlower, as', q, rfl, hq, hqk⟩
      · rw [if_pos (hlen.mpr hlower)]
        exact hunfix _
      · have heq' : leaves = as' ++ q :: p :: bs := by rw [heq, List.append_assoc]; rfl
        have hne : q ≠ p := by
          have hnodup := hrow.nodup hinv
          rw [heq', List.nodup_append, List.nodup_cons] at hnodup
          rintro rfl
          exact hnodup.2.1.1 List.mem_cons_self
        have honly : ∀ r, T.level r = some 0 → T.Covers r (T.page p).getLowerFence → r = q :=
          fun r hr hrk => hinv.disjoint r q 0 _ hr hq hrk hqk
        rw [if_neg (fun hz => hlower (hlen.mp hz))]
        have hother : ∀ r, s.tree.level r = some 0 →
            s.tree.Covers r (T.page p).getLowerFence → r ∉ [p] := by
          intro r hr hrk
          rw [hT] at hr hrk
          rw [honly r hr hrk]
          simpa using hne
        refine (h.runs_findLeafS hs (hT ▸ hl) hf hother).bind ?_
        rintro r s1 ⟨hr, hrk, h1, hkept1⟩
        rw [hT] at hr hrk
        obtain rfl := honly r hr hrk
        refine (h1.swap.runs_unfixS (by simpa using hne.symm) (by omega)).bind ?_
        rintro _ s2 ⟨h2, hkept2⟩
        have hkept := hkept1.trans hkept2
        have htree := hkept.tree.trans hT
        have hpage2 : s2.page r = T.page r := by rw [← htree]; rfl
        refine (Runs.view r h2.crashed).bind ?_
        rintro n _ ⟨rfl, rfl⟩
        rw [hpage2]
        have hcount : (T.view r).entries.length = (T.page r).count := by simp [Tree.view]
        refine (ih h2 (hs.kept hkept) htree heq' le_rfl ?_).mono ?_
        · simp only [Tree.entriesOf_append, Tree.entriesOf_cons, Tree.entriesOf_nil,
            List.append_nil, List.length_append, List.length_cons, List.length_nil] at hfuel
          omega
        · rintro es s3 ⟨rfl, hsolo, hkept3⟩
          refine ⟨?_, hsolo, hkept.trans hkept3⟩
          rw [← hcount, List.take_length]
          simp

end Loops

end Sharing

/-! ## Cuts of the contents -/

section Cuts

variable {m : Contents} {key : Key} {es fs : List (Key × Key)} {f : Key × Key}

lemma CutAt.ascendingFrom (h : CutAt key es fs) (hm : ∀ k v, (k, v) ∈ es ++ fs ↔ m k = some v) :
    m.AscendingFrom key fs := by
  refine ⟨h.ascending_behind, fun k v => ?_⟩
  rw [← hm k v]
  exact h.mem_behind

lemma CutAt.descendingFrom (h : CutAt key es fs) (hm : ∀ k v, (k, v) ∈ es ++ fs ↔ m k = some v)
    (hno : m key = none) : m.DescendingFrom key es.reverse := by
  refine ⟨List.pairwise_reverse.mpr h.ascending_before, fun k v => ?_⟩
  rw [List.mem_reverse, ← hm k v]
  refine h.mem_before ?_
  rintro ⟨k', v'⟩ he rfl
  have hsome := (hm k' v').mp (List.mem_append_right es he)
  rw [hno] at hsome
  cases hsome

lemma CutAt.descendingFrom_found (h : CutAt key es (f :: fs))
    (hm : ∀ k v, (k, v) ∈ es ++ f :: fs ↔ m k = some v) (hf : f.1 = key) :
    m.DescendingFrom key (f :: es.reverse) := by
  have hrev : f :: es.reverse = (es ++ [f]).reverse := by simp
  have hupto : Ascending (es ++ [f]) := by
    refine List.Pairwise.sublist ?_ h.ascending
    simp
  rw [hrev]
  refine ⟨List.pairwise_reverse.mpr hupto, fun k v => ?_⟩
  rw [List.mem_reverse, ← hm k v]
  exact h.mem_upto hf

end Cuts

/-! ## Scans -/

section Scans

variable {env : Env} {t : τ} {c : Choice} {P : Sys τ → Op → Prop} {F : Fault → Prop} {s : Sys τ}
  {m : Contents} {key : Key} {leaves : List PID}

omit [DecidableEq τ] in
/-- The bound on the rounds suffices for all entries and leaves. -/
lemma Planted.rounds_lt (hs : Planted s) (h : Solo env t [] s) (hE : env.Enough)
    (hrow : s.tree.Row leaves) :
    (s.tree.entriesOf leaves).length + leaves.length < env.fuel := by
  have hleaves : leaves.length ≤ env.virtCount := by
    have hsub : leaves ⊆ List.range env.virtCount := by
      intro p hp
      have hlt := hs.alloc p 0 ((hrow.mem p).mp hp)
      exact List.mem_range.mpr (hlt.trans_le h.alloc.2)
    have hle := ((hrow.nodup hs.inv).subperm hsub).length_le
    rwa [List.length_range] at hle
  have hentries : (s.tree.entriesOf leaves).length ≤ leaves.length * maxSlots := by
    rw [Tree.entriesOf, List.length_flatMap]
    refine (List.sum_le_card_nsmul _ maxSlots ?_).trans (by simp)
    intro n hn
    obtain ⟨p, hp, rfl⟩ := List.mem_map.mp hn
    have hcount := (hs.inv.valid p 0 ((hrow.mem p).mp hp)).count_le
    simpa [Tree.view] using hcount
  have hmul : leaves.length * maxSlots ≤ maxSlots * (env.virtCount + 1) := by
    rw [Nat.mul_comm]
    exact Nat.mul_le_mul_left _ (by omega)
  unfold Env.Enough Tree.potentialBound at hE
  omega

omit [DecidableEq τ] in
/-- The leaf that covers a key, among the leaves of the tree. -/
lemma Planted.exists_leaf (hs : Planted s) (key : Key) : ∃ leaves as p bs, s.tree.Row leaves ∧
    leaves = as ++ p :: bs ∧ s.tree.Covers p key ∧
    ∀ q, s.tree.level q = some 0 → s.tree.Covers q key → q = p := by
  obtain ⟨l, hl, -⟩ := hs.inv.root
  have hrow := hs.inv.row_leavesBelow hl
  obtain ⟨p, hp, hk⟩ := hs.inv.covered key hl 0 (Nat.zero_le l)
  obtain ⟨as, bs, heq⟩ := List.append_of_mem ((hrow.mem p).mpr hp)
  exact ⟨_, as, p, bs, hrow, heq, hk, fun q hq hqk => hs.inv.disjoint q p 0 key hq hp hqk hk⟩

lemma Runs.liftFault {α : Type} {a : α} {r : Except Fault α} (h : r = .ok a) :
    Runs t c P F (MemSafeDB.liftFault r) s (fun b s' => b = a ∧ s = s') := by
  rw [h]
  exact Runs.pure ⟨rfl, rfl⟩

namespace Solo

/-- What both scans begin with. -/
lemma Idle.runs_position (hE : env.Enough) (h : Idle env t m s) {p : PID}
    (hp : s.tree.level p = some 0)
    (honly : ∀ q, s.tree.level q = some 0 → s.tree.Covers q key → q = p) {α : Type}
    {f : PID → BTreeNode → Nat × Bool → Prog α} {Q : α → Sys τ → Prop}
    (hf : ∀ s1, Sharing env t [p] s1 → Kept s s1 →
      Runs t c P F (f p (s.page p) (rank (s.page p).keys key, decide (key ∈ (s.page p).keys)))
        s1 Q) :
    Runs t c P F (do
      let node ← BTree.findLeafS env key
      let n ← view node
      let r ← liftFault (n.lowerBound key)
      f node n r) s Q := by
  obtain ⟨l, -, hl, hfuel, -⟩ := h.planted.budget h.solo hE key
  refine (h.solo.sharing.runs_findLeafS h.planted hl hfuel (by simp)).bind ?_
  rintro q s1 ⟨hq, hqk, h1, hkept⟩
  obtain rfl := honly q hq hqk
  have hpage : s1.page = s.page := congrArg Tree.page hkept.tree
  refine (Runs.view _ h1.crashed).bind ?_
  rintro n _ ⟨rfl, rfl⟩
  rw [hpage]
  refine (Runs.liftFault ((h.planted.inv.valid _ 0 hp).lowerBound_eq key)).bind ?_
  rintro _ _ ⟨rfl, rfl⟩
  exact hf s1 h1 hkept

/-- `scanAsc` reports the entries from the key on. -/
theorem Idle.runs_scanAsc (hE : env.Enough) (h : Idle env t m s) (key : Key) :
    ∃ all, m.AscendingFrom key all ∧ ∀ fn, Runs t c P F (BTree.scanAsc env key fn) s
      (fun es s' => es = reported fn [] all ∧ Idle env t m s') := by
  obtain ⟨leaves, as, p, bs, hrow, heq, hk, honly⟩ := h.planted.exists_leaf key
  have hinv := h.planted.inv
  have hcut := hrow.cutAt hinv heq hk
  refine ⟨_, hcut.ascendingFrom (m := m) ?_, fun fn => ?_⟩
  · intro k v
    rw [Tree.Row.entriesOf_around heq, hrow.mem_entriesOf]
    exact h.represents k v
  · refine h.runs_position hE (hrow.mem_split heq) honly (fun s1 h1 hkept => ?_)
    have hrounds := h.planted.rounds_lt h.solo hE hrow
    rw [heq] at hrounds
    simp only [Tree.entriesOf_append, Tree.entriesOf_cons, List.length_append,
      List.length_cons] at hrounds
    refine (h1.runs_scanAscLoop (h.planted.kept hkept) hkept.tree hrow heq (by omega) ?_ fn).mono ?_
    · rw [List.length_drop]
      omega
    · rintro es s2 ⟨rfl, hsolo, hkept2⟩
      have hall := hkept.trans hkept2
      refine ⟨?_, h.congr hsolo hall.tree hall.allocCount⟩
      rw [← BTreeNode.view_keys]
      rfl

/-- The loop of `scanDesc`, from a position in the leaf that covers the key. -/
lemma Idle.runs_scanDescLoop (hE : env.Enough) (h : Idle env t m s) {as bs : List PID} {p : PID}
    (hrow : s.tree.Row leaves) (heq : leaves = as ++ p :: bs) {s1 : Sys τ}
    (h1 : Sharing env t [p] s1) (hkept : Kept s s1) {left : Nat} (hleft : left ≤ (s.page p).count)
    (fn : Bool → List (Key × Key) → Bool) (exactMatch : Bool) :
    Runs t c P F (BTree.scanDescLoop env fn exactMatch p left [] env.fuel) s1 (fun es s' =>
      es = reported (fn exactMatch) [] (((s.tree.view p).entries.take left).reverse ++
        (s.tree.entriesOf as).reverse) ∧ Idle env t m s') := by
  obtain ⟨l, -, hl, hf, -⟩ := h.planted.budget h.solo hE []
  have hrounds := h.planted.rounds_lt h.solo hE hrow
  have hcount : (s.tree.view p).entries.length = (s.page p).count := by simp [Tree.view, Sys.tree]
  rw [heq] at hrounds
  simp only [Tree.entriesOf_append, Tree.entriesOf_cons, List.length_append,
    List.length_cons] at hrounds
  refine (h1.runs_scanDescLoop (h.planted.kept hkept) hkept.tree hrow heq hl hf hleft (by omega)
    fn exactMatch).mono ?_
  rintro es s2 ⟨rfl, hsolo, hkept2⟩
  have hall := hkept.trans hkept2
  exact ⟨rfl, h.congr hsolo hall.tree hall.allocCount⟩

/-- `scanDesc` reports the entries up to the key, after one entry behind the key if it says that
there is no exact match. -/
theorem Idle.runs_scanDesc (hE : env.Enough) (h : Idle env t m s) (key : Key) :
    ∃ exactMatch all, (exactMatch = false → all ≠ []) ∧
      m.DescendingFrom key (if exactMatch then all else all.tail) ∧
      ∀ fn, Runs t c P F (BTree.scanDesc env key fn) s
        (fun es s' => es = reported (fn exactMatch) [] all ∧ Idle env t m s') := by
  obtain ⟨leaves, as, p, bs, hrow, heq, hk, honly⟩ := h.planted.exists_leaf key
  have hinv := h.planted.inv
  have hp := hrow.mem_split heq
  have hcut := hrow.cutAt hinv heq hk
  have hkeys : (s.tree.view p).keys = (s.page p).keys := BTreeNode.view_keys _
  have hcount : (s.tree.view p).entries.length = (s.page p).count := by simp [Tree.view, Sys.tree]
  have hm : ∀ i k v, (k, v) ∈ s.tree.entriesOf as ++ (s.tree.view p).entries.take i ++
      ((s.tree.view p).entries.drop i ++ s.tree.entriesOf bs) ↔ m k = some v := by
    intro i k v
    rw [Tree.Row.entriesOf_around heq, hrow.mem_entriesOf]
    exact h.represents k v
  rw [hkeys] at hcut
  have hle := rank_le_length (s.page p).keys key
  rw [BTreeNode.length_keys] at hle
  have hnone : key ∉ (s.page p).keys → m key = none := by
    intro hmem
    obtain ⟨-, hno⟩ := (h.planted.search hp hk).resolve_left (fun hfound => hmem hfound.1)
    exact h.represents.eq_none hno
  have hrev : (s.tree.entriesOf as ++
      (s.tree.view p).entries.take (rank (s.page p).keys key)).reverse =
      ((s.tree.view p).entries.take (rank (s.page p).keys key)).reverse ++
        (s.tree.entriesOf as).reverse := List.reverse_append
  rcases hle.lt_or_eq with hlt | hend
  · have hlen := hcount ▸ hlt
    have hdrop := List.drop_eq_getElem_cons hlen
    have htake := List.take_succ_eq_append_getElem hlen
    rw [hdrop, List.cons_append] at hcut
    have hfirst : ((s.tree.view p).entries.take (rank (s.page p).keys key + 1)).reverse ++
        (s.tree.entriesOf as).reverse = (s.tree.view p).entries[rank (s.page p).keys key] ::
          (s.tree.entriesOf as ++
            (s.tree.view p).entries.take (rank (s.page p).keys key)).reverse := by
      rw [hrev, htake, List.reverse_append]
      rfl
    refine ⟨decide (key ∈ (s.page p).keys), (s.tree.view p).entries[rank (s.page p).keys key] ::
      (s.tree.entriesOf as ++ (s.tree.view p).entries.take (rank (s.page p).keys key)).reverse,
      fun _ => List.cons_ne_nil _ _, ?_, fun fn => ?_⟩
    · by_cases hmem : key ∈ (s.page p).keys
      · rw [if_pos (decide_eq_true hmem)]
        refine hcut.descendingFrom_found ?_ ?_
        · intro k v
          rw [← hm (rank (s.page p).keys key) k v, hdrop, List.cons_append]
        · obtain ⟨-, hfull⟩ := (hinv.valid p 0 hp).found hmem
          exact (congrArg Prod.fst (BTreeNode.getElem_entries hlen)).trans hfull
      · rw [if_neg (by simpa using hmem)]
        refine hcut.descendingFrom ?_ (hnone hmem)
        intro k v
        rw [← hm (rank (s.page p).keys key) k v, hdrop, List.cons_append]
    · refine h.runs_position hE hp honly (fun s1 h1 hkept => ?_)
      dsimp only
      rw [if_neg hlt.ne, ← hfirst]
      exact h.runs_scanDescLoop hE hrow heq h1 hkept hlt fn _
  · have hmem : key ∉ (s.page p).keys :=
      fun hmem => absurd hend ((hinv.valid p 0 hp).found hmem).1.ne
    refine ⟨true, (s.tree.entriesOf as ++
      (s.tree.view p).entries.take (rank (s.page p).keys key)).reverse,
      fun hfalse => Bool.noConfusion hfalse, ?_, fun fn => ?_⟩
    · exact hcut.descendingFrom (hm _) (hnone hmem)
    · refine h.runs_position hE hp honly (fun s1 h1 hkept => ?_)
      dsimp only
      rw [if_pos hend, hrev]
      exact h.runs_scanDescLoop hE hrow heq h1 hkept hle fn true

end Solo

end Scans

end MemSafeDB
