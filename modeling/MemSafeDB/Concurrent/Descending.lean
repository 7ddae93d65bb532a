import MemSafeDB.Concurrent.Scanning

/-!
# Descending scans among other threads

A scan down from a key keeps its leaf until it has found the leaf that covers the lower fence. The
leaf that it keeps does not change, so that the other one is its neighbour.
-/

namespace MemSafeDB
open Lib PageState

variable {τ : Type} [DecidableEq τ]

namespace Point

variable {m : Point τ} {key bound : Key} {p q : PID} {t : τ} {left : Nat} {exactMatch : Bool}
  {fn : Bool → List (Key × Key) → Bool} {acc : List (Key × Key)}

/-- The keys of a scan down from the key, whose first entry may be behind it. -/
def UpTo (key bound : Key) (k : Key) : Prop := k ≤ key ∨ k = bound

/-- What is ahead of a scan in front of a position of a leaf. -/
structure AheadDesc (key bound : Key) (left : Nat) (s : Sight) (k : Key) : Prop where
  range : UpTo key bound k
  behind : ∀ e ∈ s.page.entries.drop left, k < e.1
  upper : s.page.view.upper = [] ∨ k ≤ s.page.view.upper

/-- A scan down from the key may stand in front of the position of the leaf. -/
structure AtDesc (key bound : Key) (exactMatch : Bool) (left : Nat) (acc : List (Key × Key))
    (s : Sight) : Prop where
  level : s.level = some 0
  count : left ≤ s.page.count
  range : ∀ e ∈ s.page.entries.take left, UpTo key bound e.1
  lower : s.page.view.lower = [] ∨ s.page.view.lower < key
  outside : if exactMatch then bound = key else key < bound
  /-- the first entry is the one behind the key -/
  first : exactMatch = false → acc.head?.map Prod.fst = some bound ∨
    acc = [] ∧ 0 < left ∧ s.page.fullKey (left - 1) = bound

/-- A scan down from the key stands in front of the position of page `p`. -/
abbrev SweepingDesc (t : τ) (key bound : Key) (fn : Bool → List (Key × Key) → Bool)
    (exactMatch : Bool) (left : Nat) (p : PID) (acc : List (Key × Key)) : Point τ → Prop :=
  Sweeping t (.scanDesc key fn) (· > ·) (UpTo key bound) (AheadDesc key bound left)
    (AtDesc key bound exactMatch left acc) p acc

/-- The scan reports the entry in front of its position. -/
lemma Inv.reportDesc (hi : Inv m) {pos : Nat}
    (h : SweepingDesc t key bound fn exactMatch (pos + 1) p acc m) :
    SweepingDesc t key bound fn exactMatch pos p
      (acc ++ [((m.now.page p).fullKey pos, (m.now.page p).getPayload pos)]) m := by
  have hat := h.knows.fact
  have hlt : pos < (m.now.page p).count := hat.count
  have hlen : pos < (m.now.page p).entries.length := by simpa using hlt
  have hentry := BTreeNode.getElem_entries hlen
  have hmem : ((m.now.page p).fullKey pos, (m.now.page p).getPayload pos) ∈
      (m.now.page p).entries := hentry ▸ List.getElem_mem hlen
  obtain ⟨hstored, hcover⟩ := hi.stored_of_mem hat.level hmem
  have hdrop := List.drop_eq_getElem_cons hlen
  have htake := List.take_succ_eq_append_getElem hlen
  rw [hentry] at hdrop htake
  have hasc := hi.ascending hat.level
  rw [← List.take_append_drop pos (m.now.page p).entries, hdrop, Ascending,
    List.pairwise_append, List.pairwise_cons] at hasc
  obtain ⟨-, ⟨hafter, -⟩, hbefore⟩ := hasc
  have hlast : ((m.now.page p).fullKey pos, (m.now.page p).getPayload pos) ∈
      (m.now.page p).entries.take (pos + 1) := by
    rw [htake]
    exact List.mem_append_right _ List.mem_cons_self
  have hrange : UpTo key bound ((m.now.page p).fullKey pos) := hat.range _ hlast
  refine h.report ⟨hat.level, hlt.le, fun e he => ?_, hat.lower, hat.outside, fun hno => Or.inl ?_⟩
    ⟨hrange, fun e he => hafter e he, hcover.2⟩ hrange hstored ?_ ?_
  · refine hat.range e ?_
    change e ∈ (m.now.page p).entries.take (pos + 1)
    rw [htake]
    exact List.mem_append_left _ he
  · rcases hat.first hno with hhead | ⟨rfl, -, hfirst⟩
    · rw [List.head?_append, Option.map_or, hhead]
      rfl
    · exact congrArg some hfirst
  · rintro l ⟨hl, hbehind, hupper⟩
    change ∀ e ∈ (m.now.page p).entries.drop pos, l < e.1 at hbehind
    rw [hdrop, List.forall_mem_cons] at hbehind
    exact ⟨⟨hl, hbehind.2, hupper⟩, hbehind.1⟩
  · rintro l w ⟨hl, hbehind, hupper⟩ hw
    by_cases heq : l = (m.now.page p).fullKey pos
    · exact Or.inl heq
    refine Or.inr ⟨hl, ?_, hupper⟩
    change ∀ e ∈ (m.now.page p).entries.drop pos, l < e.1
    rw [hdrop, List.forall_mem_cons]
    refine ⟨?_, hbehind⟩
    by_contra hge
    have hlt : (m.now.page p).fullKey pos < l := lt_of_le_of_ne (not_lt.mp hge) (Ne.symm heq)
    -- the key would be on the leaf, but from the position on all keys are greater
    have hin := hi.mem_entries hat.level
      ⟨hcover.1.imp_right (fun hle => hle.trans hlt), hupper⟩ hw
    rw [← List.take_append_drop pos (m.now.page p).entries, hdrop, List.mem_append,
      List.mem_cons] at hin
    rcases hin with hin | hin | hin
    · exact lt_irrefl _ (hlt.trans (hbefore _ hin _ List.mem_cons_self))
    · exact heq (congrArg Prod.fst hin)
    · exact lt_irrefl _ (hbehind _ hin)

/-- In front of the leaf, the keys in its interval that are ahead are not stored. -/
lemma Inv.aheadDesc_end (hi : Inv m) (hp : m.now.level p = some 0) {k v : Key}
    (hk : AheadDesc key bound 0 (m.now.sight p) k) (hv : contentsOf m.now.trace k = some v) :
    (m.now.page p).view.lower ≠ [] ∧ k ≤ (m.now.page p).view.lower := by
  have hnot : ¬((m.now.page p).view.lower = [] ∨ (m.now.page p).view.lower < k) :=
    fun hlower => lt_irrefl k (hk.behind (k, v) (hi.mem_entries hp ⟨hlower, hk.upper⟩ hv))
  rw [not_or, not_lt] at hnot
  exact hnot

/-- The keys of the leaf that covers the lower fence are not behind the fence. -/
lemma Inv.le_lower (hi : Inv m) (hp : m.now.level p = some 0)
    (hlower : (m.now.page p).view.lower ≠ [])
    (hleaf : LeafFor (m.now.page p).view.lower (m.now.sight q)) {k : Key}
    (hk : InRange (m.now.page q).view.lower (m.now.page q).view.upper k) :
    k ≤ (m.now.page p).view.lower := by
  obtain ⟨hlow, -⟩ := hleaf.covers
  have hne : q ≠ p := by
    rintro rfl
    exact lt_irrefl _ (hlow.resolve_left hlower)
  by_contra hlt
  rw [not_le] at hlt
  by_cases hupper : (m.now.page p).view.upper = [] ∨ k ≤ (m.now.page p).view.upper
  · exact hne (hi.tree.disjoint q p 0 k hleaf.level hp hk ⟨Or.inr hlt, hupper⟩)
  rw [not_or, not_le] at hupper
  have hfences := (hi.tree.ok hp).fences.resolve_left hupper.1
  refine hne (hi.tree.disjoint q p 0 (m.now.page p).view.upper hleaf.level hp ?_ ?_)
  · exact ⟨hlow.imp_right (fun hlow => hlow.trans hfences),
      hk.2.imp_right (fun hle => hupper.2.le.trans hle)⟩
  · exact ⟨Or.inr hfences, Or.inr le_rfl⟩

/-- The scan moves on to the leaf before. -/
lemma Inv.nextDesc (hi : Inv m) (hlower : (m.now.page p).view.lower ≠ [])
    (hleaf : Knows t q (LeafFor (m.now.page p).view.lower) m)
    (h : SweepingDesc t key bound fn exactMatch 0 p acc m) :
    SweepingDesc t key bound fn exactMatch (m.now.page q).count q acc m := by
  have hat := h.knows.fact
  have hq : m.now.level q = some 0 := hleaf.fact.level
  obtain ⟨hlow, hup⟩ := hleaf.fact.covers
  have hkey : (m.now.page p).view.lower < key := hat.lower.resolve_left hlower
  have hcut : (m.now.page q).entries.drop (m.now.page q).count = [] :=
    List.drop_of_length_le (by simp)
  refine h.pass ⟨hleaf.holds, hq, le_rfl, fun e he => ?_, ?_, hat.outside, fun hno => ?_⟩ ?_ ?_
  · have hin := (hi.stored_of_mem hq (List.mem_of_mem_take he)).2
    exact Or.inl ((hi.le_lower hat.level hlower hleaf.fact hin).trans hkey.le)
  · exact hlow.imp_right (fun hlow => hlow.trans hkey)
  · exact Or.inl ((hat.first hno).resolve_right (fun hfirst => lt_irrefl 0 hfirst.2.1))
  · rintro k ⟨hk, -, hupper⟩
    have hle : k ≤ (m.now.page p).view.lower := by
      by_cases hin : (m.now.page q).view.lower = [] ∨ (m.now.page q).view.lower < k
      · exact hi.le_lower hat.level hlower hleaf.fact ⟨hin, hupper⟩
      rw [not_or, not_lt] at hin
      exact hin.2.trans (hlow.resolve_left hin.1).le
    refine ⟨hk, fun e he => ?_, ?_⟩
    · have hin := (hi.stored_of_mem hat.level (List.mem_of_mem_drop he)).2.1
      exact hle.trans_lt (hin.resolve_left hlower)
    · exact (hi.tree.ok hat.level).fences.imp_right (fun hlt => hle.trans hlt.le)
  · intro k v hk hv
    refine ⟨hk.range, fun e he => ?_, ?_⟩
    · change e ∈ (m.now.page q).entries.drop (m.now.page q).count at he
      rw [hcut] at he
      cases he
    · exact hup.imp_right (fun hup => (hi.aheadDesc_end hat.level hk hv).2.trans hup)

/-- A scan whose callback has stopped it, or that has reached the first leaf. -/
lemma Inv.returnedDesc (hi : Inv m) (h : SweepingDesc t key bound fn exactMatch left p acc m)
    (hfirst : exactMatch = false → acc.head?.map Prod.fst = some bound)
    (hend : (∃ acc, fn exactMatch acc ≠ true) ∨ left = 0 ∧ (m.now.page p).view.lower = []) :
    Returned t (.scan acc) (.scanDesc key fn) m.now.trace := by
  obtain ⟨hknows, pre, mid, hin, hsweep⟩ := h
  have hrange : ∀ k, k ≤ key → UpTo key bound k := fun _ hk => Or.inl hk
  refine ⟨pre, mid, acc, exactMatch, bound, hin, rfl, hsweep.toGathered, ?_,
    fun k hk => hsweep.unskipped k (hrange k hk), fun hfn => ?_⟩
  · have hbound := hknows.fact.outside
    cases exactMatch with
    | true => exact hbound
    | false => exact ⟨hbound, hfirst rfl⟩
  · rcases hend with ⟨acc', hstop⟩ | ⟨rfl, hlower⟩
    · exact absurd (hfn acc') hstop
    · refine fun k hk => hsweep.complete ?_ k (hrange k hk)
      intro k v hk hv
      rw [hin.contents] at hv
      exact (hi.aheadDesc_end hknows.fact.level hk hv).1 hlower

omit [DecidableEq τ] in
/-- A scan may begin in front of any position that leaves out the entries behind its bound. -/
lemma startDesc (hleaf : Knows t p (LeafFor key) m)
    (hc : Pending t (.scanDesc key fn) m.now.trace)
    (hleft : left ≤ (m.now.page p).count)
    (hlow : ∀ e ∈ (m.now.page p).entries.take left, UpTo key bound e.1)
    (hhigh : ∀ e ∈ (m.now.page p).entries.drop left, key < e.1 ∧ bound < e.1)
    (hbound : if exactMatch then bound = key else key < bound)
    (hupper : (m.now.page p).view.upper = [] ∨ bound ≤ (m.now.page p).view.upper)
    (hfirst : exactMatch = false → 0 < left ∧ (m.now.page p).fullKey (left - 1) = bound) :
    SweepingDesc t key bound fn exactMatch left p [] m := by
  obtain ⟨pre, mid, hin⟩ := hc
  have hstart : Sweeping t (.scanDesc key fn) (· > ·) (UpTo key bound) (fun _ => UpTo key bound)
    (LeafFor key) p [] m := ⟨hleaf, pre, mid, hin, sweep_nil⟩
  refine hstart.pass ⟨hleaf.holds, hleaf.fact.level, hleft, hlow, hleaf.fact.covers.1, hbound,
    fun hno => Or.inr ⟨rfl, hfirst hno⟩⟩ (fun k hk => hk.range) ?_
  intro k v hk _
  refine ⟨hk, fun e he => ?_, ?_⟩
  · rcases hk with hk | rfl
    · exact hk.trans_lt (hhigh e he).1
    · exact (hhigh e he).2
  · rcases hk with hk | rfl
    · exact hleaf.fact.covers.2.imp_right (fun hle => hk.trans hle)
    · exact hupper

/-- A scan begins at the end of the leaf, if its key is behind all entries. -/
lemma Inv.startDesc_end (hi : Inv m) (hleaf : Knows t p (LeafFor key) m)
    (hc : Pending t (.scanDesc key fn) m.now.trace)
    (hend : rank (m.now.page p).keys key = (m.now.page p).count) :
    SweepingDesc t key key fn true (rank (m.now.page p).keys key) p [] m := by
  have hsorted : StrictSorted ((m.now.page p).entries.map Prod.fst) :=
    (hi.tree.ok hleaf.fact.level).sorted
  refine startDesc hleaf hc hend.le (fun e he => ?_) (fun e he => ?_) rfl hleaf.fact.covers.2
    (fun hno => Bool.noConfusion hno)
  · rw [BTreeNode.keys_eq] at he
    exact Or.inl (hsorted.lt_of_mem_take he).le
  · rw [hend, List.drop_of_length_le (by simp)] at he
    cases he

/-- A scan begins behind the entry at the position of its key. -/
lemma Inv.startDesc_entry (hi : Inv m) (hleaf : Knows t p (LeafFor key) m)
    (hc : Pending t (.scanDesc key fn) m.now.trace)
    (hlt : rank (m.now.page p).keys key < (m.now.page p).count) :
    SweepingDesc t key ((m.now.page p).fullKey (rank (m.now.page p).keys key)) fn
      (decide (key ∈ (m.now.page p).keys)) (rank (m.now.page p).keys key + 1) p [] m := by
  obtain ⟨pos, hpos⟩ : ∃ pos, rank (m.now.page p).keys key = pos := ⟨_, rfl⟩
  have hlevel := hleaf.fact.level
  have hsorted : StrictSorted ((m.now.page p).entries.map Prod.fst) := (hi.tree.ok hlevel).sorted
  have hbefore : ∀ e ∈ (m.now.page p).entries.take pos, e.1 < key := by
    rw [← hpos, BTreeNode.keys_eq]
    exact fun e he => hsorted.lt_of_mem_take he
  have hbehind : ∀ e ∈ (m.now.page p).entries.drop pos, key ≤ e.1 := by
    rw [← hpos, BTreeNode.keys_eq]
    exact fun e he => hsorted.le_of_mem_drop he
  rw [hpos] at hlt ⊢
  have hlen : pos < (m.now.page p).entries.length := by simpa using hlt
  have hentry := BTreeNode.getElem_entries hlen
  have hdrop := List.drop_eq_getElem_cons hlen
  have htake := List.take_succ_eq_append_getElem hlen
  rw [hentry] at hdrop htake
  have hasc := hi.ascending hlevel
  rw [← List.take_append_drop pos (m.now.page p).entries, hdrop, Ascending,
    List.pairwise_append, List.pairwise_cons] at hasc
  obtain ⟨-, ⟨hafter, -⟩, -⟩ := hasc
  rw [hdrop, List.forall_mem_cons] at hbehind
  refine startDesc hleaf hc hlt (fun e he => ?_) (fun e he => ?_) ?_ ?_ (fun _ => ?_)
  · rw [htake] at he
    rcases List.mem_append.mp he with he | he
    · exact Or.inl (hbefore e he).le
    · rw [List.mem_singleton.mp he]
      exact Or.inr rfl
  · exact ⟨hbehind.1.trans_lt (hafter e he), hafter e he⟩
  · by_cases hmem : key ∈ (m.now.page p).keys
    · rw [decide_eq_true hmem, if_pos rfl, ← hpos]
      exact ((hi.valid hlevel).found hmem).2
    · rw [decide_eq_false hmem, if_neg Bool.false_ne_true]
      refine lt_of_le_of_ne hbehind.1 (fun heq => hmem ?_)
      rw [BTreeNode.keys_eq, heq]
      exact List.mem_map_of_mem (f := Prod.fst) (hentry ▸ List.getElem_mem hlen)
  · have hmem : ((m.now.page p).fullKey pos, (m.now.page p).getPayload pos) ∈
        (m.now.page p).entries := hentry ▸ List.getElem_mem hlen
    exact (hi.stored_of_mem hlevel hmem).2.2
  · exact ⟨Nat.succ_pos pos, rfl⟩

/-! ## Programs -/

section Rules

variable {steady : Prop} {env : Env} {E : Point τ → Prop}

namespace Serves

lemma scanDescLoop (hi : Inv m) (ho : Owns t [] [p] m)
    (h : SweepingDesc t key bound fn exactMatch left p acc m) (fuel : Nat) :
    Serves steady t (BTree.scanDescLoop env fn exactMatch p left acc fuel) m
      (fun l => Done t (.scanDesc key fn) (.scan l)) E := by
  induction fuel generalizing m p left acc with
  | zero => exact halt
  | succ fuel ih =>
    refine bind (Q := fun n m => Owns t [] [p] m ∧
      SweepingDesc t key bound fn exactMatch left p acc m ∧ Knows t p (fun s => s.page = n) m) hi
      (view (A := fun m => Owns t [] [p] m ∧
        SweepingDesc t key bound fn exactMatch left p acc m) ⟨ho, h⟩
        (fun m _ h => ⟨h.1, h.2, h.2.knows.holds, rfl⟩)) ?_
    rintro n m hi ⟨ho, h, hn⟩
    have hpage : m.now.page p = n := hn.fact
    cases left with
    | succ pos =>
      have hreport := hi.reportDesc h
      have hhead : exactMatch = false → (acc ++ [((m.now.page p).fullKey pos,
          (m.now.page p).getPayload pos)]).head?.map Prod.fst = some bound := by
        intro hno
        rcases h.knows.fact.first hno with hhead | ⟨rfl, -, hfirst⟩
        · rw [List.head?_append, Option.map_or, hhead]
          rfl
        · exact congrArg some hfirst
      rw [hpage] at hreport hhead
      refine ite (fun _ => ih hi ho hreport) (fun hfn => ?_)
      exact endScan hi ho (hi.returnedDesc hreport hhead (Or.inl ⟨_, hfn⟩))
    | zero =>
      have hlen : n.lowerFence.len = 0 ↔ (m.now.page p).view.lower = [] := by
        rw [← List.length_eq_zero_iff, hpage]
        change _ ↔ n.getLowerFence.length = 0
        simp [BTreeNode.getLowerFence]
      have hhead : exactMatch = false → acc.head?.map Prod.fst = some bound := fun hno =>
        (h.knows.fact.first hno).resolve_right (fun hfirst => lt_irrefl 0 hfirst.2.1)
      refine ite (fun hzero => ?_) (fun hne => ?_)
      · exact endScan hi ho (hi.returnedDesc h hhead (Or.inr ⟨rfl, hlen.mp hzero⟩))
      have hlower : n.getLowerFence ≠ [] := fun hz => hne (hlen.mpr (by rw [hpage]; exact hz))
      refine bind hi (findLeafS (S := [p])
        (K := fun m => SweepingDesc t key bound fn exactMatch 0 p acc m ∧
          Knows t p (fun s => s.page = n) m) hi ho ⟨h, hn⟩) ?_
      rintro q m hi ⟨ho, hleaf, h, hn⟩
      obtain rfl : m.now.page p = n := hn.fact
      have hnext := hi.nextDesc hlower hleaf h
      refine bind hi (unfixS (S := [q]) (K := fun m => ∃ count,
        SweepingDesc t key bound fn exactMatch count q acc m ∧
          Knows t q (fun s => s.page.count = count) m) hi (ho.perm_shared (List.Perm.swap p q []))
          ⟨_, hnext, hleaf.holds, rfl⟩) ?_
      rintro _ m hi ⟨ho, count, h, hcount⟩
      refine bind (Q := fun (n : BTreeNode) m => Owns t [] [q] m ∧
        SweepingDesc t key bound fn exactMatch n.count q acc m) hi
        (view (A := fun m => Owns t [] [q] m ∧ SweepingDesc t key bound fn exactMatch count q acc m ∧
          Knows t q (fun s => s.page.count = count) m) ⟨ho, h, hcount⟩ (fun m _ h => ⟨h.1, ?_⟩)) ?_
      · rw [show (m.now.page q).count = count from h.2.2.fact]
        exact h.2.1
      · rintro n m hi ⟨ho, h⟩
        exact ih hi ho h

/-- A scan down among other threads. -/
theorem scanDesc (hi : Inv m) (h : Begun t (.scanDesc key fn) m) :
    Serves steady t (BTree.scanDesc env key fn) m
      (fun l => Done t (.scanDesc key fn) (.scan l)) E := by
  refine bind hi (findLeafS (S := []) (K := fun m => Pending t (.scanDesc key fn) m.now.trace) hi
    h.owns h.pending) ?_
  rintro p m hi ⟨ho, hleaf, hc⟩
  refine bind (Q := fun n m => Owns t [] [p] m ∧ (Knows t p (LeafFor key) m ∧
    Pending t (.scanDesc key fn) m.now.trace) ∧ Knows t p (fun s => s.page = n) m) hi
    (view (A := fun m => Owns t [] [p] m ∧ Knows t p (LeafFor key) m ∧
      Pending t (.scanDesc key fn) m.now.trace) ⟨ho, hleaf, hc⟩
      (fun m _ h => ⟨h.1, h.2, h.2.1.holds, rfl⟩)) ?_
  rintro n m hi ⟨ho, ⟨hleaf, hc⟩, hn⟩
  have hpage : m.now.page p = n := hn.fact
  refine lowerBoundIn (hpage ▸ hi.valid hleaf.fact.level) ?_
  subst hpage
  refine ite (fun hend => ?_) (fun hne => ?_)
  · exact scanDescLoop hi ho (hi.startDesc_end hleaf hc hend) env.fuel
  · refine scanDescLoop hi ho (hi.startDesc_entry hleaf hc ?_) env.fuel
    refine lt_of_le_of_ne ?_ hne
    rw [← BTreeNode.length_keys]
    exact rank_le_length _ key

end Serves

end Rules

end Point

end MemSafeDB
