import MemSafeDB.Concurrent.Inserting
import MemSafeDB.Sequential.Scanning

/-!
# Scans among other threads

A scan holds one leaf shared, and for a moment also the next one. What it holds does not change, so
that a key which has been stored all the time is either reported, or on the leaf at or behind the
position of the scan, or on a leaf that the scan has not reached.
-/

namespace MemSafeDB
open Lib PageState

variable {τ : Type} [DecidableEq τ]

namespace Point

variable {m m' : Point τ} {key : Key} {p q : PID} {t : τ} {cl : Call} {X S : List PID}
  {F F' : Sight → Prop}

/-- A scan stands at the page, on which `F` holds, and `todo` is ahead of it. -/
structure Sweeping (t : τ) (cl : Call) (before : Key → Key → Prop) (range : Key → Prop)
    (todo : Sight → Key → Prop) (F : Sight → Prop) (p : PID) (acc : List (Key × Key))
    (m : Point τ) : Prop where
  knows : Knows t p F m
  sweep : ∃ pre mid, InCall t cl pre mid m.now.trace ∧
    Sweep before range (todo (m.now.sight p)) (pre ++ [.call t cl]) mid acc

section Sweeping

variable {before : Key → Key → Prop} {range : Key → Prop} {todo todo' : Sight → Key → Prop}
  {acc : List (Key × Key)} {k v : Key}

omit [DecidableEq τ] in
lemma Sweeping.keep (h : Sweeping t cl before range todo F p acc m) (hp : Holds t p m')
    (hsight : m'.now.sight p = m.now.sight p) {es : List (Event τ)}
    (ht : m'.now.trace = m.now.trace ++ es) (hsilent : Silent t es) :
    Sweeping t cl before range todo F p acc m' := by
  obtain ⟨hknows, pre, mid, hin, hsweep⟩ := h
  refine ⟨⟨hp, by rw [hsight]; exact hknows.fact⟩, pre, mid ++ es, ht ▸ hin.append hsilent, ?_⟩
  rw [hsight]
  exact hsweep.append es

instance : Lasts t (Sweeping t cl before range todo F p acc) where
  lasts := by
    intro m m' _ _ hs h
    obtain ⟨es, hes, hsilent⟩ := hs.trace
    have hp := h.knows.holds
    exact h.keep (hs.holds.mpr hp) (hs.sight p hp) hes hsilent

instance : About t [p] (Sweeping t cl before range todo F p acc) where
  keep := by
    intro m m' _ hX ht h
    obtain ⟨hp, hsight⟩ := hX p List.mem_cons_self
    exact h.keep hp hsight (by rw [ht, List.append_nil]) (silent_nil t)

omit [DecidableEq τ] in
/-- The scan moves on to a page that the thread holds too, past keys that are not stored. -/
lemma Sweeping.pass (h : Sweeping t cl before range todo F p acc m) (hq : Knows t q F' m)
    (hsub : ∀ k, todo' (m.now.sight q) k → todo (m.now.sight p) k)
    (hkeep : ∀ k v, todo (m.now.sight p) k → contentsOf m.now.trace k = some v →
      todo' (m.now.sight q) k) :
    Sweeping t cl before range todo' F' q acc m := by
  obtain ⟨-, pre, mid, hin, hsweep⟩ := h
  refine ⟨hq, pre, mid, hin, hsweep.pass hsub ?_⟩
  rw [hin.contents]
  exact hkeep

omit [DecidableEq τ] in
/-- The scan reports an entry of the page. -/
lemma Sweeping.report (h : Sweeping t cl before range todo F p acc m)
    (hp : F' (m.now.sight p)) (hk : todo (m.now.sight p) k) (hrange : range k)
    (hv : contentsOf m.now.trace k = some v)
    (hsub : ∀ l, todo' (m.now.sight p) l → todo (m.now.sight p) l ∧ before k l)
    (hkeep : ∀ l w, todo (m.now.sight p) l → contentsOf m.now.trace l = some w →
      l = k ∨ todo' (m.now.sight p) l) :
    Sweeping t cl before range todo' F' p (acc ++ [(k, v)]) m := by
  obtain ⟨hknows, pre, mid, hin, hsweep⟩ := h
  refine ⟨⟨hknows.holds, hp⟩, pre, mid, hin, hsweep.report hk hrange ?_ hsub ?_⟩
  · rw [hin.contents]
    exact hv
  · rw [hin.contents]
    exact hkeep

end Sweeping

/-! ## What a leaf tells -/

/-- What is stored in the interval of a leaf is on the leaf. -/
lemma Inv.mem_entries (hi : Inv m) (hp : m.now.level p = some 0) {k v : Key}
    (hk : InRange (m.now.page p).view.lower (m.now.page p).view.upper k)
    (hv : contentsOf m.now.trace k = some v) : (k, v) ∈ (m.now.page p).entries :=
  (hi.tree.holds_iff hp hk v).mp ((hi.contents k v).mpr hv)

lemma Inv.stored_of_mem (hi : Inv m) (hp : m.now.level p = some 0) {e : Key × Key}
    (he : e ∈ (m.now.page p).entries) : contentsOf m.now.trace e.1 = some e.2 ∧
      InRange (m.now.page p).view.lower (m.now.page p).view.upper e.1 :=
  ⟨(hi.contents e.1 e.2).mp ⟨p, hp, he⟩, hi.tree.covers_of_mem hp he⟩

lemma Inv.ascending (hi : Inv m) (hp : m.now.level p = some 0) :
    Ascending (m.now.page p).entries := List.pairwise_map.mp (hi.tree.ok hp).sorted

/-! ## Ascending scans -/

/-- What is ahead of a scan at a position of a leaf. -/
structure AheadAsc (key : Key) (pos : Nat) (s : Sight) (k : Key) : Prop where
  range : key ≤ k
  behind : ∀ e ∈ s.page.entries.take pos, e.1 < k
  lower : s.page.view.lower = [] ∨ s.page.view.lower < k

/-- A scan from the key on may stand at the position of the leaf. -/
structure AtAsc (key : Key) (pos : Nat) (s : Sight) : Prop where
  level : s.level = some 0
  range : ∀ e ∈ s.page.entries.drop pos, key ≤ e.1
  upper : s.page.view.upper = [] ∨ key ≤ s.page.view.upper

variable {pos : Nat} {fn : List (Key × Key) → Bool} {acc : List (Key × Key)}

/-- The scan reports the entry at its position. -/
lemma Inv.reportAsc (hi : Inv m) (hlt : pos < (m.now.page p).count)
    (h : Sweeping t cl (· < ·) (key ≤ ·) (AheadAsc key pos) (AtAsc key pos) p acc m) :
    Sweeping t cl (· < ·) (key ≤ ·) (AheadAsc key (pos + 1)) (AtAsc key (pos + 1)) p
      (acc ++ [((m.now.page p).fullKey pos, (m.now.page p).getPayload pos)]) m := by
  have hat := h.knows.fact
  have hlen : pos < (m.now.page p).entries.length := by simpa using hlt
  have hentry := BTreeNode.getElem_entries hlen
  have hmem : ((m.now.page p).fullKey pos, (m.now.page p).getPayload pos) ∈
      (m.now.page p).entries := hentry ▸ List.getElem_mem hlen
  obtain ⟨hstored, hcover⟩ := hi.stored_of_mem hat.level hmem
  have hdrop := List.drop_eq_getElem_cons hlen
  have htake := List.take_succ_eq_append_getElem hlen
  rw [hentry] at hdrop htake
  have hasc := hi.ascending hat.level
  rw [← List.take_append_drop pos (m.now.page p).entries, hdrop, Ascending,
    List.pairwise_append, List.pairwise_cons] at hasc
  obtain ⟨-, ⟨hafter, -⟩, hbefore⟩ := hasc
  have hfirst : ((m.now.page p).fullKey pos, (m.now.page p).getPayload pos) ∈
      (m.now.page p).entries.drop pos := hdrop ▸ List.mem_cons_self
  have hkey : key ≤ (m.now.page p).fullKey pos := hat.range _ hfirst
  refine h.report ⟨hat.level, ?_, hat.upper⟩ ⟨hkey, fun e he => ?_, hcover.1⟩ hkey hstored ?_ ?_
  · intro e he
    refine hat.range e ?_
    change e ∈ (m.now.page p).entries.drop pos
    rw [hdrop]
    exact List.mem_cons_of_mem _ he
  · exact hbefore e he _ List.mem_cons_self
  · rintro l ⟨hl, hbehind, hlower⟩
    change ∀ e ∈ (m.now.page p).entries.take (pos + 1), e.1 < l at hbehind
    rw [htake] at hbehind
    exact ⟨⟨hl, fun e he => hbehind e (List.mem_append_left _ he), hlower⟩,
      hbehind ((m.now.page p).fullKey pos, (m.now.page p).getPayload pos) (by simp)⟩
  · rintro l w ⟨hl, hbehind, hlower⟩ hw
    by_cases heq : l = (m.now.page p).fullKey pos
    · exact Or.inl heq
    refine Or.inr ⟨hl, ?_, hlower⟩
    change ∀ e ∈ (m.now.page p).entries.take (pos + 1), e.1 < l
    rw [htake]
    intro e he
    rcases List.mem_append.mp he with he | he
    · exact hbehind e he
    rw [List.mem_singleton.mp he]
    by_contra hge
    have hlt : l < (m.now.page p).fullKey pos := lt_of_le_of_ne (not_lt.mp hge) heq
    -- the key would be on the leaf, but before the position all keys are smaller
    have hin := hi.mem_entries hat.level
      ⟨hlower, hcover.2.imp_right (fun hle => hlt.le.trans hle)⟩ hw
    rw [← List.take_append_drop pos (m.now.page p).entries, hdrop, List.mem_append,
      List.mem_cons] at hin
    rcases hin with hin | hin | hin
    · exact lt_irrefl _ (hbehind _ hin)
    · exact heq (congrArg Prod.fst hin)
    · exact lt_irrefl _ (hlt.trans (hafter _ hin))

/-- A leaf that has a neighbour. -/
lemma Inv.next (hi : Inv m) (hp : m.now.level p = some 0) (hlink : (m.now.page p).link ≠ noNeighbour) :
    (m.now.page p).view.upper ≠ [] ∧ m.now.level (m.now.page p).link = some 0 ∧
      (m.now.page (m.now.page p).link).view.lower = (m.now.page p).view.upper :=
  (hi.tree.next p hp).resolve_left (fun hlast => hlink hlast.2)

lemma Inv.nextLeaf (hi : Inv m) (hp : m.now.level p = some 0) (hlink : (m.now.page p).link = q)
    (hne : q ≠ noNeighbour) : m.now.level q = some 0 ∧ m.now.tree.Before p q := by
  subst hlink
  obtain ⟨hupper, hlevel, hlower⟩ := hi.next hp hne
  exact ⟨hlevel, Or.inr ⟨0, 0, hp, hlevel, Or.inr ⟨rfl, hupper, hlower.ge⟩⟩⟩

/-- At the end of the leaf, the keys in its interval that are ahead are not stored. -/
lemma Inv.aheadAsc_end (hi : Inv m) (hp : m.now.level p = some 0)
    (hend : (m.now.page p).count ≤ pos) {k v : Key} (hk : AheadAsc key pos (m.now.sight p) k)
    (hv : contentsOf m.now.trace k = some v) :
    (m.now.page p).view.upper ≠ [] ∧ (m.now.page p).view.upper < k := by
  have hnot : ¬((m.now.page p).view.upper = [] ∨ k ≤ (m.now.page p).view.upper) := by
    intro hupper
    have hin := hi.mem_entries hp ⟨hk.lower, hupper⟩ hv
    have htake : (m.now.page p).entries.take pos = (m.now.page p).entries :=
      List.take_of_length_le (by simpa using hend)
    refine lt_irrefl k (hk.behind (k, v) ?_)
    change (k, v) ∈ (m.now.page p).entries.take pos
    rwa [htake]
  rw [not_or, not_le] at hnot
  exact hnot

/-- The scan moves on to the next leaf. -/
lemma Inv.nextAsc (hi : Inv m) (hend : (m.now.page p).count ≤ pos)
    (hlink : (m.now.page p).link = q) (hne : q ≠ noNeighbour) (hq : Holds t q m)
    (h : Sweeping t cl (· < ·) (key ≤ ·) (AheadAsc key pos) (AtAsc key pos) p acc m) :
    Sweeping t cl (· < ·) (key ≤ ·) (AheadAsc key 0) (AtAsc key 0) q acc m := by
  subst hlink
  have hat := h.knows.fact
  obtain ⟨hupper, hlevel, hlower⟩ := hi.next hat.level hne
  have hle : key ≤ (m.now.page p).view.upper := hat.upper.resolve_left hupper
  have hcover : ∀ e ∈ (m.now.page (m.now.page p).link).entries, (m.now.page p).view.upper < e.1 := by
    intro e he
    have hin := (hi.stored_of_mem hlevel he).2.1
    rw [hlower] at hin
    exact hin.resolve_left hupper
  refine h.pass ⟨hq, hlevel, ?_, ?_⟩ ?_ ?_
  · intro e he
    exact hle.trans (hcover e (List.mem_of_mem_drop he)).le
  · refine (hi.tree.ok hlevel).fences.imp id (fun hlt => ?_)
    exact hle.trans (hlower ▸ hlt).le
  · rintro k ⟨hk, -, hlow⟩
    change (m.now.page (m.now.page p).link).view.lower = [] ∨
      (m.now.page (m.now.page p).link).view.lower < k at hlow
    rw [hlower] at hlow
    have hlt := hlow.resolve_left hupper
    refine ⟨hk, fun e he => ?_, ?_⟩
    · have hin := (hi.stored_of_mem hat.level (List.mem_of_mem_take he)).2.2
      exact (hin.resolve_left hupper).trans_lt hlt
    · exact Or.inr (((hi.tree.ok hat.level).fences.resolve_left hupper).trans hlt)
  · intro k v hk hv
    refine ⟨hk.range, fun e he => absurd he List.not_mem_nil, Or.inr ?_⟩
    change (m.now.page (m.now.page p).link).view.lower < k
    rw [hlower]
    exact (hi.aheadAsc_end hat.level hend hk hv).2

omit [DecidableEq τ] in
/-- A scan whose callback has stopped it. -/
lemma Sweeping.returnedAsc {F : Sight → Prop} {todo : Sight → Key → Prop}
    (h : Sweeping t (.scanAsc key fn) (· < ·) (key ≤ ·) todo F p acc m)
    (hstop : ∃ acc, fn acc ≠ true) : Returned t (.scan acc) (.scanAsc key fn) m.now.trace := by
  obtain ⟨-, pre, mid, hin, hsweep⟩ := h
  obtain ⟨acc', hacc'⟩ := hstop
  exact ⟨pre, mid, acc, hin, rfl, hsweep.toGathered, hsweep.unskipped, fun hfn => absurd (hfn acc') hacc'⟩

/-- A scan that has reached the last leaf. -/
lemma Inv.returnedAsc (hi : Inv m) (hend : (m.now.page p).count ≤ pos)
    (hlink : (m.now.page p).link = noNeighbour) (h : Sweeping t (.scanAsc key fn) (· < ·) (key ≤ ·)
      (AheadAsc key pos) (AtAsc key pos) p acc m) :
    Returned t (.scan acc) (.scanAsc key fn) m.now.trace := by
  obtain ⟨hknows, pre, mid, hin, hsweep⟩ := h
  refine ⟨pre, mid, acc, hin, rfl, hsweep.toGathered, hsweep.unskipped, fun _ => hsweep.complete ?_⟩
  intro k v hk hv
  rw [hin.contents] at hv
  obtain ⟨hupper, -⟩ := hi.aheadAsc_end hknows.fact.level hend hk hv
  obtain ⟨-, hlevel, -⟩ := (hi.tree.next p hknows.fact.level).resolve_left
    (fun hlast => hupper hlast.1)
  exact absurd hlink ((hi.tree.bound _ 0 hlevel).2).ne

/-- A scan begins at the position of its key. -/
lemma Inv.startAsc (hi : Inv m) (hleaf : Knows t p (LeafFor key) m)
    (hc : Pending t cl m.now.trace) (hpos : pos = rank (m.now.page p).keys key) :
    Sweeping t cl (· < ·) (key ≤ ·) (AheadAsc key pos) (AtAsc key pos) p [] m := by
  subst hpos
  obtain ⟨pre, mid, hin⟩ := hc
  have hlevel := hleaf.fact.level
  have hsorted : StrictSorted ((m.now.page p).entries.map Prod.fst) := (hi.tree.ok hlevel).sorted
  rw [BTreeNode.keys_eq]
  have hstart : Sweeping t cl (· < ·) (key ≤ ·) (fun _ => (key ≤ ·)) (LeafFor key) p [] m :=
    ⟨hleaf, pre, mid, hin, sweep_nil⟩
  refine hstart.pass ⟨hleaf.holds, hlevel, ?_, hleaf.fact.covers.2⟩ ?_ ?_
  · exact fun e he => hsorted.le_of_mem_drop he
  · exact fun k hk => hk.range
  · intro k v hk _
    refine ⟨hk, fun e he => ?_, hleaf.fact.covers.1.imp id (fun hlt => hlt.trans_le hk)⟩
    exact (hsorted.lt_of_mem_take he).trans_le hk

/-! ## Programs -/

lemma Owns.perm_shared {S' : List PID} (h : Owns t X S m) (hS : S.Perm S') : Owns t X S' m :=
  ⟨h.exclusive, fun p => (h.shared p).trans (hS.count_eq p)⟩

section Rules

variable {steady : Prop} {env : Env} {E K : Point τ → Prop} [Lasts t K]

namespace Serves

/-- The leaf of the key is latched. -/
lemma findLeafS [About t S K] (hi : Inv m) (ho : Owns t [] S m) (hK : K m) :
    Serves steady t (BTree.findLeafS env key) m (fun p m => Owns t [] (p :: S) m ∧
      Knows t p (LeafFor key) m ∧ K m) E := by
  refine retry_once (A := fun m => Owns t [] S m ∧ K m) hi ⟨ho, hK⟩ (fun m hi hA => ?_) env.fuel
  refine bind hi (findLeafO (fun _ h => h.1) hi hA) ?_
  rintro node m hi ⟨hA, hleaf⟩
  refine (onThrow hi (ofGuardO (K := fun m => K m ∧ Sees node (LeafFor key) m)
    (L := Knows t node.pid (LeafFor key)) (E := fun m => Owns t [] S m ∧ K m) hi hA.1 ⟨hA.2, hleaf⟩
    (fun m ho h => ⟨ho, h.1⟩) ?_) (fun m hi h => unwind hi h)).mono ?_ (fun _ _ h => h)
  · rintro m m' - ⟨-, hleaf⟩ hf - hm ho'
    exact Knows.of_relatched hm ho' (Or.inr List.mem_cons_self) (hleaf.fresh hf)
  · rintro _ m - ⟨rfl, ho, ⟨hK, -⟩, hleaf⟩
    exact ⟨ho, hleaf, hK⟩

/-- The end of a scan. -/
lemma endScan {a : List (Key × Key)} (hi : Inv m) (ho : Owns t [] [p] m)
    (hr : Returned t (.scan a) cl m.now.trace) :
    Serves steady t (do
      BufferManager.unfixS env p
      Pure.pure a) m (fun l => Done t cl (.scan l)) E := by
  refine bind hi (unfixS (S := []) (K := fun m => Returned t (.scan a) cl m.now.trace) hi ho hr) ?_
  rintro _ m - ⟨ho, hr⟩
  exact pure ⟨ho, hr⟩

/-- The position of the key in a page that the thread holds. -/
lemma lowerBoundIn {n : BTreeNode} {α : Type} {f : Nat × Bool → Prog α} {Q : α → Point τ → Prop}
    (hn : n.Valid) (hf : Serves steady t (f (rank n.keys key, decide (key ∈ n.keys))) m Q E) :
    Serves steady t (do
      let r ← liftFault (n.lowerBound key)
      f r) m Q E := by
  rw [hn.lowerBound_eq key]
  exact hf

lemma scanAscLoop (hi : Inv m) (ho : Owns t [] [p] m)
    (h : Sweeping t (.scanAsc key fn) (· < ·) (key ≤ ·) (AheadAsc key pos) (AtAsc key pos) p acc m)
    (fuel : Nat) :
    Serves steady t (BTree.scanAscLoop env fn p pos acc fuel) m
      (fun l => Done t (.scanAsc key fn) (.scan l)) E := by
  induction fuel generalizing m p pos acc with
  | zero => exact halt
  | succ fuel ih =>
    refine bind (Q := fun n m => Owns t [] [p] m ∧ Sweeping t (.scanAsc key fn) (· < ·) (key ≤ ·)
      (AheadAsc key pos) (AtAsc key pos) p acc m ∧ Knows t p (fun s => s.page = n) m) hi
      (view (A := fun m => Owns t [] [p] m ∧ Sweeping t (.scanAsc key fn) (· < ·) (key ≤ ·)
        (AheadAsc key pos) (AtAsc key pos) p acc m) ⟨ho, h⟩
        (fun m _ h => ⟨h.1, h.2, h.2.knows.holds, rfl⟩)) ?_
    rintro n m hi ⟨ho, h, hn⟩
    have hpage : m.now.page p = n := hn.fact
    refine ite (fun hlt => ?_) (fun hge => ?_)
    · have hreport := hi.reportAsc (hpage ▸ hlt) h
      rw [hpage] at hreport
      refine ite (fun _ => ih hi ho hreport) (fun hfn => ?_)
      exact endScan hi ho (hreport.returnedAsc ⟨_, hfn⟩)
    replace hge := not_lt.mp hge
    refine ite (fun hlink => ?_) (fun hlink => ?_)
    · exact endScan hi ho (hi.returnedAsc (hpage ▸ hge) (hpage ▸ hlink) h)
    obtain ⟨q, hq⟩ : ∃ q, n.link = q := ⟨_, rfl⟩
    rw [hq] at hlink ⊢
    refine bind hi (fixS (K := fun m => Sweeping t (.scanAsc key fn) (· < ·) (key ≤ ·)
      (AheadAsc key pos) (AtAsc key pos) p acc m ∧ Knows t p (fun s => s.page = n) m) hi ho ⟨h, hn⟩
      ?_ ?_) ?_
    · rintro m hi ⟨h, hn⟩
      exact hi.given q 0
        (hi.nextLeaf h.knows.fact.level ((congrArg BTreeNode.link hn.fact).trans hq) hlink).1
    · rintro m hi ho ⟨h, hn⟩ - r hr
      rw [ho.holds] at hr
      obtain rfl : r = p := by simpa using hr
      exact (hi.nextLeaf h.knows.fact.level ((congrArg BTreeNode.link hn.fact).trans hq) hlink).2
    rintro _ m hi ⟨rfl, ho, h, hn⟩
    have hpage : m.now.page p = n := hn.fact
    have hnext := hi.nextAsc (hpage ▸ hge) (hpage ▸ hq) hlink
      (ho.holds.mpr (Or.inr List.mem_cons_self)) h
    refine bind hi (unfixS (S := [_]) (K := Sweeping t (.scanAsc key fn) (· < ·) (key ≤ ·)
      (AheadAsc key 0) (AtAsc key 0) _ acc) hi (ho.perm_shared (List.Perm.swap p _ [])) hnext) ?_
    rintro _ m hi ⟨ho, h⟩
    exact ih hi ho h

/-- A scan among other threads. -/
theorem scanAsc (hi : Inv m) (h : Begun t (.scanAsc key fn) m) :
    Serves steady t (BTree.scanAsc env key fn) m (fun l => Done t (.scanAsc key fn) (.scan l)) E := by
  refine bind hi (findLeafS (S := []) (K := fun m => Pending t (.scanAsc key fn) m.now.trace) hi
    h.owns h.pending) ?_
  rintro p m hi ⟨ho, hleaf, hc⟩
  refine bind (Q := fun n m => Owns t [] [p] m ∧ (Knows t p (LeafFor key) m ∧
    Pending t (.scanAsc key fn) m.now.trace) ∧ Knows t p (fun s => s.page = n) m) hi
    (view (A := fun m => Owns t [] [p] m ∧ Knows t p (LeafFor key) m ∧
      Pending t (.scanAsc key fn) m.now.trace) ⟨ho, hleaf, hc⟩
      (fun m _ h => ⟨h.1, h.2, h.2.1.holds, rfl⟩)) ?_
  rintro n m hi ⟨ho, ⟨hleaf, hc⟩, hn⟩
  have hpage : m.now.page p = n := hn.fact
  refine lowerBoundIn (hpage ▸ hi.valid hleaf.fact.level) ?_
  exact scanAscLoop hi ho (hi.startAsc hleaf hc (by rw [hpage])) env.fuel

end Serves

end Rules

end Point

end MemSafeDB
