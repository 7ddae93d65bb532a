import MemSafeDB.ResidentSet.Invariant

/-!
# The steps on the shared table

Each step of an operation keeps the invariant, and the answers are as the monitor of its thread
expects them.
-/

namespace MemSafeDB.ResidentSet
open Lib Probing ResidentPageSet

variable {τ : Type} {count : Nat} {pages : Finset PID} {e : Nat} {park : PID → Nat}
  {past : List (Act τ)} {ms : τ → Doing} {s : Table} {A : Finset PID} {disp : PID → Nat} {t : τ}
  {pid v : PID} {d pos : Nat}

lemma empty_ne_tombstone : empty ≠ tombstone := by decide

/-- Another page id has come to the slot, which was loaded for it when it was empty. -/
def Stale (count : Nat) (ms : τ → Doing) (disp : PID → Nat) (pid : PID) (pos : Nat) (q : PID) : Prop :=
  q ≠ pid ∧ position count q (disp q) = pos ∧ ∃ u, ms u = .inserting q (disp q) (some empty)

/-- An insertion after another page id was stored at `pos`. -/
lemma Reads.fill {ht : Nat → PID} {X : Finset PID} {q : PID} {loaded : Option PID}
    (h : Reads count ht (disp q) q d loaded) (hpid : pid ≠ empty)
    (hX : q ∈ X ↔ position count q (disp q) = pos ∧ disp q = d ∧ loaded = some empty) :
    Reads count (Function.update ht pos pid) (advanced disp X q) q d loaded := by
  cases loaded with
  | none =>
    have hout : q ∉ X := fun h => by cases (hX.mp h).2.2
    rw [Reads, advanced, if_neg hout]
    exact h
  | some v =>
    obtain ⟨hopen, ⟨hd, hiff⟩ | ⟨hd, hv⟩⟩ := h
    · by_cases hin : q ∈ X
      · rw [advanced, if_pos hin, hd]
        exact ⟨hopen, Or.inr ⟨rfl, Option.some.inj (hX.mp hin).2.2⟩⟩
      · rw [advanced, if_neg hin]
        refine ⟨hopen, Or.inl ⟨hd, ?_⟩⟩
        by_cases hpos : position count q d = pos
        · rw [hpos, Function.update_self]
          refine iff_of_false (fun hv => hin (hX.mpr ⟨?_, hd, congrArg some hv⟩)) hpid
          rwa [hd]
        · rwa [Function.update_of_ne hpos]
    · have hout : q ∉ X := fun h => by
        have hd' := (hX.mp h).2.1
        omega
      rw [advanced, if_neg hout]
      exact ⟨hopen, Or.inr ⟨hd, hv⟩⟩

namespace Plan

variable (hplan : Plan count pages e park)
include hplan

lemma cell (h : pid ∈ pages) : ResidentPageSet.cell pid = .key pid :=
  cell_key.mpr ⟨rfl, not_or.mp (hplan.keys pid h)⟩

lemma position_lt (pid : PID) (d : Nat) : position count pid d < count :=
  Nat.mod_lt _ (Nat.zero_lt_of_lt hplan.gap.lt)

end Plan

namespace Inv

variable (hi : Inv count pages e park past ms s A disp)
include hi

lemma standing {m : Doing} (hm : ms t = m) : m.Stands count (trace past) s.set.ht disp t :=
  hm ▸ hi.stands t

lemma slot_eq (hpid : pid ∈ contents past) (hd : disp pid = d) :
    s.set.ht (position count pid d) = pid ∧ ¬Open pid := by
  subst hd
  obtain ⟨heq, hopen⟩ := cell_key.mp (hi.laid.live pid hpid)
  rw [heq] at hopen
  exact ⟨heq, not_or.mpr hopen⟩

/-- A page id that a slot holds is in the set. -/
lemma stored_of_slot (hpos : pos < count) (hopen : ¬Open (s.set.ht pos)) :
    s.set.ht pos ∈ contents past ∧ position count (s.set.ht pos) (disp (s.set.ht pos)) = pos :=
  hi.laid.only pos hpos _ (cell_key.mpr ⟨rfl, not_or.mp hopen⟩)

lemma path (hpid : pid ∈ A) {i : Nat} (h : i < disp pid) :
    s.set.ht (position count pid i) ≠ empty :=
  fun hempty => hi.laid.path pid hpid i h (cell_free.mpr hempty)

variable (hplan : Plan count pages e park)
include hplan

lemma path_lt (h : ∀ i, i < d → s.set.ht (position count pid i) ≠ empty) : d < count :=
  hi.laid.path_lt hplan.gap (fun i hid hfree => h i hid (cell_free.mp hfree))

/-- A page id that is being inserted passes a slot that holds another one. -/
lemma passes (ht : (ms t).target = some pid) (hdisp : disp pid = d)
    (hopen : ¬Open (s.set.ht (position count pid d))) :
    Contended count ResidentPageSet.hash pages e park s.set.cells (contents past) A
      (advanced disp {pid}) := by
  obtain ⟨hw, hcell⟩ := hi.stored_of_slot (hplan.position_lt pid d) hopen
  refine hi.laid.advance hplan.gap (hi.laid.subset hw) ?_ (fun x hx => ?_) ?_
  · rw [Finset.mem_singleton]
    exact ne_of_mem_of_not_mem hw (hi.notMem_of_target ht)
  · rw [Finset.mem_singleton.mp hx]
    exact ⟨hi.mem_of_target ht, hi.notMem_of_target ht, by rw [hdisp]; exact hcell.symm⟩
  · intro hfree
    rw [hi.laid.live _ hw] at hfree
    cases hfree

omit hplan in
lemma stale_notMem (h : Stale count ms disp pid pos v) : v ∉ contents past := by
  obtain ⟨-, -, u, hu⟩ := h
  exact hi.notMem_of_target (show (ms u).target = some v by rw [hu]; rfl)

/-- A page id takes the slot, and the ones that have come to it when it was empty pass it. -/
lemma fills (ht : (ms t).target = some pid)
    (hopen : Open (s.set.ht (position count pid (disp pid)))) {X : Finset PID}
    (hX : ∀ q ∈ X, q ∈ A ∧ Stale count ms disp pid (position count pid (disp pid)) q) :
    Contended count ResidentPageSet.hash pages e park
      (s.set.store (position count pid (disp pid)) pid).cells (insert pid (contents past)) A
      (advanced disp X) := by
  have hA := hi.mem_of_target ht
  rw [cells_store, hplan.cell (hi.laid.crowded.subset hA)]
  refine (hi.laid.settle hplan.gap hA (hi.notMem_of_target ht) (fun q hq => ?_)).advance hplan.gap
    hA (fun h => (hX pid h).2.1 rfl) (fun x hx => ⟨(hX x hx).1, ?_, (hX x hx).2.2.1⟩) ?_
  · exact not_or.mpr (cell_key.mp hq).2 ((cell_key.mp hq).1 ▸ hopen)
  · rw [Finset.mem_insert, not_or]
    exact ⟨(hX x hx).2.1, hi.stale_notMem (hX x hx).2⟩
  · rw [← position, Function.update_self]
    exact fun h => by cases h

end Inv

/-! ## Steps of a thread -/

variable [DecidableEq τ]

/-- The invariant holds after the action, which leaves the thread at `m'` and the table at `s'`. -/
def Keeps (count : Nat) (pages : Finset PID) (e : Nat) (park : PID → Nat) (past : List (Act τ))
    (ms : τ → Doing) (a : Act τ) (m' : Doing) (s' : Table) : Prop :=
  ∃ A disp, Inv count pages e park (a :: past) (Function.update ms a.thread m') s' A disp

namespace Inv

variable (hi : Inv count pages e park past ms s A disp) (hplan : Plan count pages e park)
include hi hplan

section Insertions

omit hplan in
/-- The call of `insert` with a page id that is neither stored nor being inserted. -/
lemma callInsert (hm : ms t = .idle) (hpages : pid ∈ pages) (hpid : pid ∉ busy past) :
    Keeps count pages e park past ms ⟨t, .call (.insert pid), ()⟩ (.inserting pid 0 none) s := by
  have hA : pid ∉ A := fun h => hpid (hi.occupied h)
  have hcontents : contents (⟨t, .call (.insert pid), ()⟩ :: past) = contents past :=
    contents_of_some (.call t (.insert pid)) rfl
  have htrace : trace (⟨t, .call (.insert pid), ()⟩ :: past) = trace past ++ [.call t (.insert pid)] :=
    trace_of_some _ rfl
  have hold : ∀ p ∈ A, Function.update disp pid 0 p = disp p :=
    fun p hp => Function.update_of_ne (ne_of_mem_of_not_mem hp hA) 0 disp
  refine ⟨insert pid A, Function.update disp pid 0, hi.next ?_ (fun p => ?_) ?_ ?_ ?_
    (fun _ h => h) (fun p hp => hold p (hi.laid.subset hp)) (fun u _ q k loaded hu => ?_) ?_ hi.clock⟩
  · rw [hcontents]
    exact hi.laid.arrive hpages hA
  · rw [hcontents, Finset.mem_insert, hi.active]
    constructor
    · rintro (rfl | hp | ⟨u, hu⟩)
      · exact Or.inr ⟨t, by rw [Function.update_self]; rfl⟩
      · exact Or.inl hp
      · refine Or.inr ⟨u, ?_⟩
        rwa [Function.update_of_ne]
        rintro rfl
        rw [hm] at hu
        cases hu
    · rintro (hp | ⟨u, hu⟩)
      · exact Or.inr (Or.inl hp)
      · by_cases hut : u = t
        · subst hut
          rw [Function.update_self] at hu
          exact Or.inl (Option.some.inj hu).symm
        · rw [Function.update_of_ne hut] at hu
          exact Or.inr (Or.inr ⟨u, hu⟩)
  · rw [htrace]
    exact hi.honest.concat (hi.standing hm)
  · rw [htrace]
    refine ⟨⟨trace past, [], rfl, Object.silent_nil t⟩, ?_, Function.update_self ..⟩
    rw [← htrace]
    change pid ∉ contents _
    rw [hcontents]
    exact fun h => hA (hi.laid.subset h)
  · rintro u - p hp hu
    obtain rfl := Option.some.inj hp
    exact hA (hi.mem_of_target hu)
  · have hq : (ms u).target = some q := by rw [hu]; rfl
    rw [hcontents, hold q (hi.mem_of_target hq)]
    exact (hi.standing hu).2
  · rw [busy_of_some (.call t (.insert pid)) rfl]
    exact Finset.insert_subset_insert pid hi.occupied

variable {loaded : Option PID} (hm : ms t = .inserting pid d loaded)
include hm

/-- The thread goes on to the next slot, when this one holds another page id. -/
lemma goOn {o : Op} {r : signature.Res o} (hdisp : disp pid = d)
    (hopen : ¬Open (s.set.ht (position count pid d))) (hnone : observed t o r = none) :
    d + 1 < count ∧
      Keeps count pages e park past ms ⟨t, o, r⟩ (.inserting pid (d + 1) none) s := by
  have ht : (ms t).target = some pid := by rw [hm]; rfl
  have hlaid := hi.passes hplan ht hdisp hopen
  have hd : advanced disp {pid} pid = d + 1 := by
    rw [advanced, if_pos (Finset.mem_singleton_self pid), hdisp]
  obtain ⟨hpending, hnot, -⟩ := hi.standing hm
  refine ⟨hlaid.path_lt hplan.gap (hd ▸ hlaid.path pid (hi.mem_of_target ht)), A, _,
    hi.silent (a := ⟨t, o, r⟩) hnone ht.symm rfl hi.clock hlaid (fun p _ hp => if_neg ?_)
      ⟨hpending, hnot, hd⟩⟩
  rw [Finset.mem_singleton]
  rintro rfl
  exact hp rfl

/-- The slot did not hold what was loaded from it. -/
lemma casInsert_false (hloaded : loaded = some v) (hne : s.set.ht (position count pid d) ≠ v) :
    d + 1 < count ∧ Keeps count pages e park past ms ⟨t, .cas pos v pid, false⟩
      (.inserting pid (d + 1) none) s := by
  subst hloaded
  have ht : (ms t).target = some pid := by rw [hm]; rfl
  obtain ⟨hpending, hnot, hopen, ⟨hdisp, hiff⟩ | ⟨hdisp, hv⟩⟩ := hi.standing hm
  · refine hi.goOn hplan hm hdisp ?_ rfl
    rintro (hempty | htomb)
    · exact hne (hempty.trans (hiff.mpr hempty).symm)
    · rcases hopen with rfl | rfl
      · exact empty_ne_tombstone ((hiff.mp rfl).symm.trans htomb)
      · exact hne htomb
  · refine ⟨hi.path_lt hplan (fun i h => hi.path (hi.mem_of_target ht) (hdisp ▸ h)), A, disp,
      hi.unseen (a := ⟨t, _, _⟩) rfl ht.symm rfl hi.clock ⟨hpending, hnot, hdisp⟩⟩

lemma loadInsert (hloaded : loaded = none) :
    (Doing.inserting pid d none).Loads count (s.set.ht (position count pid d)) ∧
      Keeps count pages e park past ms ⟨t, .load pos, s.set.ht (position count pid d)⟩
        ((Doing.inserting pid d none).afterLoad (s.set.ht (position count pid d))) s := by
  subst hloaded
  have ht : (ms t).target = some pid := by rw [hm]; rfl
  obtain ⟨hpending, hnot, hdisp⟩ := hi.standing hm
  have hne : s.set.ht (position count pid d) ≠ pid := by
    intro heq
    have hkey := hplan.cell (hi.laid.crowded.subset (hi.mem_of_target ht))
    exact hi.laid.ne_key (Nat.zero_lt_of_lt hplan.gap.lt) hnot _ ((congrArg cell heq).trans hkey)
  by_cases hopen : Open (s.set.ht (position count pid d))
  · refine ⟨⟨hne, fun h => absurd hopen h⟩, A, disp, ?_⟩
    rw [Doing.afterLoad, if_pos hopen]
    exact hi.unseen (a := ⟨t, _, _⟩) rfl ht.symm rfl hi.clock
      ⟨hpending, hnot, hopen, Or.inl ⟨hdisp, Iff.rfl⟩⟩
  · obtain ⟨hlt, hkeeps⟩ := hi.goOn (o := .load pos) (r := _) hplan hm hdisp hopen rfl
    rw [Doing.afterLoad, if_neg hopen]
    exact ⟨⟨hne, fun _ => hlt⟩, hkeeps⟩

open Classical in
/-- The page id is stored in a slot that is as it was when it was loaded. -/
lemma casInsert_true (hloaded : loaded = some v) (heq : s.set.ht (position count pid d) = v) :
    Keeps count pages e park past ms ⟨t, .cas pos v pid, true⟩ (.returning .unit)
      { s with set := s.set.store (position count pid d) pid } := by
  subst hloaded
  have ht : (ms t).target = some pid := by rw [hm]; rfl
  have hpidA := hi.mem_of_target ht
  have hpages := hi.laid.crowded.subset hpidA
  obtain ⟨hpending, hnot, hopen, hreads⟩ := hi.standing hm
  have hdisp : disp pid = d := by
    rcases hreads with ⟨hdisp, -⟩ | ⟨hdisp, hv⟩
    · exact hdisp
    · exact absurd (heq.trans hv) (hi.path hpidA (by omega))
  have htomb : pid ≠ tombstone := fun h => hplan.keys pid hpages (Or.inr h)
  have hempty : pid ≠ empty := fun h => hplan.keys pid hpages (Or.inl h)
  have hobs : observed t (.cas pos v pid) true = some (.effect t (.insert pid)) :=
    congrArg (fun c => some (Object.Event.effect t c)) (if_neg htomb)
  have htrace : trace (⟨t, .cas pos v pid, true⟩ :: past) = trace past ++ [.effect t (.insert pid)] :=
    trace_of_some _ hobs
  have hcontents : contents (⟨t, .cas pos v pid, true⟩ :: past) = insert pid (contents past) :=
    contents_of_some (.effect t (.insert pid)) hobs
  have hbusy : busy (⟨t, .cas pos v pid, true⟩ :: past) = busy past :=
    busy_of_some (.effect t (.insert pid)) hobs
  have htakes : takes (contents past) (.insert pid) = some (.insert pid) := if_neg hnot
  -- the page ids that have come to the slot when it was empty pass it
  set X := A.filter (Stale count ms disp pid (position count pid d)) with hX
  have hmemX : ∀ {q}, q ∈ X ↔ q ∈ A ∧ Stale count ms disp pid (position count pid d) q :=
    Finset.mem_filter
  have hlaid := hi.fills hplan ht (hdisp ▸ heq ▸ hopen) (fun q hq => hdisp ▸ hmemX.mp hq)
  rw [hdisp] at hlaid
  refine ⟨A, advanced disp X, hi.next (by rwa [hcontents]) (fun p => ?_) ?_ ?_ ?_ (fun i hne => ?_)
    (fun p hp => if_neg (fun h => hi.stale_notMem (hmemX.mp h).2 hp)) (fun u hu q k l hq => ?_)
    (hbusy ▸ hi.occupied) hi.clock⟩
  · rw [hcontents, Finset.mem_insert, hi.active]
    constructor
    · rintro (hp | ⟨u, hu⟩)
      · exact Or.inl (Or.inr hp)
      · by_cases hut : u = t
        · subst hut
          exact Or.inl (Or.inl (Option.some.inj (hu.symm.trans ht)))
        · exact Or.inr ⟨u, by rwa [Function.update_of_ne hut]⟩
    · rintro ((rfl | hp) | ⟨u, hu⟩)
      · exact Or.inr ⟨t, ht⟩
      · exact Or.inl hp
      · by_cases hut : u = t
        · subst hut
          rw [Function.update_self] at hu
          cases hu
        · exact Or.inr ⟨u, by rwa [Function.update_of_ne hut] at hu⟩
  · rw [htrace]
    exact hi.honest.concat ⟨.insert pid, hpending, htakes⟩
  · rw [htrace]
    exact ⟨.insert pid, Or.inr (hpending.ready_effect hnot htakes)⟩
  · rintro u - p hp -
    cases hp
  · change Function.update s.set.ht _ pid i ≠ empty
    by_cases hpos : i = position count pid d
    · subst hpos
      rwa [Function.update_self]
    · rwa [Function.update_of_ne hpos]
  · -- another insertion finds the slot taken, if it has come to it
    have hqt : (ms u).target = some q := by rw [hq]; rfl
    have hqne : q ≠ pid := by
      rintro rfl
      exact hu (hi.unique u t q hqt ht)
    obtain ⟨-, hqnot, hqreads⟩ := hi.standing hq
    refine ⟨by rw [hcontents, Finset.mem_insert, not_or]; exact ⟨hqne, hqnot⟩, ?_⟩
    have hqX : q ∈ X ↔ position count q (disp q) = position count pid d ∧ disp q = k ∧
        l = some empty := by
      rw [hmemX]
      constructor
      · rintro ⟨-, -, hpos, w, hw⟩
        have hwt : (ms w).target = some q := by rw [hw]; rfl
        have hwu := hi.unique w u q hwt hqt
        rw [hwu, hq] at hw
        obtain ⟨-, hk, hl⟩ := Doing.inserting.inj hw
        exact ⟨hpos, hk.symm, hl⟩
      · rintro ⟨hpos, hk, hl⟩
        exact ⟨hi.mem_of_target hqt, hqne, hpos, u, by rw [hq, hk, hl]⟩
    exact hqreads.fill hempty hqX

end Insertions

section Removals

variable {found : Bool} (hm : ms t = .removing pid d found)
include hm

omit [DecidableEq τ] in
/-- The page id that the slot holds is stored there. -/
lemma found_removing (heq : s.set.ht (position count pid d) = pid) (hempty : pid ≠ empty) :
    pid ∈ contents past ∧ disp pid = d := by
  obtain ⟨-, htomb, hpath, -⟩ := hi.standing hm
  have hopen : ¬Open (s.set.ht (position count pid d)) := by
    rw [heq]
    exact not_or.mpr ⟨hempty, htomb⟩
  obtain ⟨hpid, hcell⟩ := hi.stored_of_slot (hplan.position_lt pid d) hopen
  rw [heq] at hpid hcell
  refine ⟨hpid, hi.laid.disp_eq hplan.gap (hi.laid.subset hpid) (fun i h hfree => ?_) hcell.symm⟩
  exact hpath i h (cell_free.mp hfree)

/-- The thread goes on to the next slot, when the page id is not stored in this one. -/
lemma searchOn {o : Op} {r : signature.Res o} (hempty : s.set.ht (position count pid d) ≠ empty)
    (hne : s.set.ht (position count pid d) ≠ pid) (hnone : observed t o r = none) :
    d + 1 < count ∧ Keeps count pages e park past ms ⟨t, o, r⟩ (.removing pid (d + 1) false) s := by
  obtain ⟨hpending, htomb, hpath, -, hstored⟩ := hi.standing hm
  have hnext : ∀ i, i < d + 1 → s.set.ht (position count pid i) ≠ empty := by
    intro i h
    rcases Nat.lt_succ_iff_lt_or_eq.mp h with hlt | rfl
    · exact hpath i hlt
    · exact hempty
  refine ⟨hi.path_lt hplan hnext, A, disp, hi.unseen (a := ⟨t, o, r⟩) hnone (by rw [hm]; rfl) rfl
    hi.clock ⟨hpending, htomb, hnext, fun h => (by cases h), hstored.imp_right ?_⟩⟩
  rintro ⟨hpid, hle, -⟩
  refine ⟨hpid, ?_, fun h => (by cases h)⟩
  have hd : disp pid ≠ d := fun hd => hne (hi.slot_eq hpid hd).1
  omega

/-- The slot did not hold the page id any more. -/
lemma casRemove_false (hfound : found = true) (hne : s.set.ht (position count pid d) ≠ pid) :
    d + 1 < count ∧ Keeps count pages e park past ms ⟨t, .cas pos pid tombstone, false⟩
      (.removing pid (d + 1) false) s :=
  hi.searchOn hplan hm ((hi.standing hm).2.2.2.1 hfound) hne rfl

lemma loadRemove (hfound : found = false) :
    (Doing.removing pid d false).Loads count (s.set.ht (position count pid d)) ∧
      Keeps count pages e park past ms ⟨t, .load pos, s.set.ht (position count pid d)⟩
        ((Doing.removing pid d false).afterLoad (s.set.ht (position count pid d))) s := by
  subst hfound
  obtain ⟨hpending, htomb, hpath, -, hstored⟩ := hi.standing hm
  rw [Doing.afterLoad]
  by_cases hempty : s.set.ht (position count pid d) = empty
  · rw [if_pos hempty]
    refine ⟨fun h => absurd hempty h, A, disp, hi.unseen (a := ⟨t, _, _⟩) rfl (by rw [hm]; rfl) rfl
      hi.clock ⟨.remove pid, Or.inr (hstored.resolve_right ?_)⟩⟩
    rintro ⟨hpid, hle, -⟩
    rcases Nat.lt_or_eq_of_le hle with hlt | heq
    · exact hi.path (hi.laid.subset hpid) hlt hempty
    · obtain ⟨hslot, hne⟩ := hi.slot_eq hpid heq.symm
      exact hne (Or.inl (hslot.symm.trans hempty))
  · rw [if_neg hempty]
    by_cases hpid : s.set.ht (position count pid d) = pid
    · rw [if_pos hpid]
      refine ⟨fun _ h => absurd hpid h, A, disp, hi.unseen (a := ⟨t, _, _⟩) rfl (by rw [hm]; rfl) rfl
        hi.clock ⟨hpending, htomb, hpath, fun _ => hempty, Or.inr ?_⟩⟩
      obtain ⟨hmem, hd⟩ := hi.found_removing hplan hm hpid (hpid ▸ hempty)
      exact ⟨hmem, hd.ge, fun _ => hd⟩
    · rw [if_neg hpid]
      obtain ⟨hlt, hkeeps⟩ := hi.searchOn (o := .load pos) (r := _) hplan hm hempty hpid rfl
      exact ⟨fun _ _ => hlt, hkeeps⟩

/-- The page id is removed from its slot. -/
lemma casRemove_true (hfound : found = true) (heq : s.set.ht (position count pid d) = pid) :
    Keeps count pages e park past ms ⟨t, .cas pos pid tombstone, true⟩ (.returning (.bool true))
      { s with set := s.set.store (position count pid d) tombstone } := by
  obtain ⟨hpending, htomb, -, hempty, -⟩ := hi.standing hm
  obtain ⟨hpid, rfl⟩ := hi.found_removing hplan hm heq (heq ▸ hempty hfound)
  have htrace : trace (⟨t, .cas pos pid tombstone, true⟩ :: past) =
      trace past ++ [.effect t (.remove pid)] := trace_of_some _ rfl
  have hcontents : contents (⟨t, .cas pos pid tombstone, true⟩ :: past) = (contents past).erase pid :=
    contents_of_some (.effect t (.remove pid)) rfl
  have htakes : takes (contents past) (.remove pid) = some (.remove pid) := if_pos hpid
  have hslots : ∀ i, (s.set.store (position count pid (disp pid)) tombstone).ht i = empty ↔
      s.set.ht i = empty := by
    intro i
    change Function.update s.set.ht _ tombstone i = empty ↔ _
    by_cases hpos : i = position count pid (disp pid)
    · subst hpos
      rw [Function.update_self]
      exact iff_of_false empty_ne_tombstone.symm (hempty hfound)
    · rw [Function.update_of_ne hpos]
  have hother : ∀ u p, (ms u).target = some p → p ≠ pid :=
    fun u p hu => (ne_of_mem_of_not_mem hpid (hi.notMem_of_target hu)).symm
  refine ⟨A.erase pid, disp, hi.next ?_ (fun p => ?_) ?_ ?_ ?_ (fun i => mt (hslots i).mp)
    (fun _ _ => rfl) (fun u _ q k l hq => ?_) ?_ hi.clock⟩
  · rw [hcontents, cells_store, cell_tombstone]
    exact hi.laid.delete hpid
  · rw [hcontents, Finset.mem_erase, Finset.mem_erase, hi.active]
    constructor
    · rintro ⟨hne, hp | ⟨u, hu⟩⟩
      · exact Or.inl ⟨hne, hp⟩
      · refine Or.inr ⟨u, ?_⟩
        rwa [Function.update_of_ne]
        rintro rfl
        rw [hm] at hu
        cases hu
    · rintro (⟨hne, hp⟩ | ⟨u, hu⟩)
      · exact ⟨hne, Or.inl hp⟩
      · by_cases hut : u = t
        · subst hut
          rw [Function.update_self] at hu
          cases hu
        · rw [Function.update_of_ne hut] at hu
          exact ⟨hother u p hu, Or.inr ⟨u, hu⟩⟩
  · rw [htrace]
    exact hi.honest.concat ⟨.remove pid, hpending, htakes⟩
  · rw [htrace]
    exact ⟨.remove pid, Or.inr (hpending.ready_effect (decide_eq_true hpid).symm htakes)⟩
  · rintro u - p hp -
    cases hp
  · obtain ⟨-, hqnot, hqreads⟩ := hi.standing hq
    refine ⟨by rw [hcontents]; exact fun h => hqnot (Finset.mem_of_mem_erase h), ?_⟩
    cases l with
    | none => exact hqreads
    | some w =>
      refine ⟨hqreads.1, hqreads.2.imp_left (fun h => ⟨h.1, h.2.trans ?_⟩)⟩
      exact (hslots _).symm
  · rw [busy_of_some (.effect t (.remove pid)) rfl]
    exact Finset.erase_subset_erase pid hi.occupied

end Removals

omit hplan

/-- A call begins or returns. -/
lemma seen {a : Act τ} {m' : Doing} (ev : Event τ) (hobs : observed a.thread a.op a.answer = some ev)
    (hchange : changes.change (contents past) ev = contents past)
    (hoccupy : occupy (busy past) ev = busy past) (hhonest : ev.Honest changes (trace past))
    (htarget : m'.target = (ms a.thread).target)
    (hstands : m'.Stands count (trace past ++ [ev]) s.set.ht disp a.thread) :
    Keeps count pages e park past ms a m' s := by
  have htrace : trace (a :: past) = trace past ++ [ev] := trace_of_some ev hobs
  refine ⟨A, disp, hi.stay htarget ((contents_of_some ev hobs).trans hchange) ?_ ?_ rfl hi.clock
    hi.laid (fun _ _ _ => rfl) (by rwa [htrace])⟩
  · rw [busy_of_some ev hobs, hoccupy]
  · rw [htrace]
    exact hi.honest.concat hhonest

lemma callRemove (hm : ms t = .idle) (htomb : pid ≠ tombstone) :
    Keeps count pages e park past ms ⟨t, .call (.remove pid), ()⟩ (.removing pid 0 false) s := by
  refine hi.seen (.call t (.remove pid)) rfl rfl rfl (hi.standing hm) (by rw [hm]; rfl) ?_
  have hpending : Object.Pending t (.remove pid) (trace past ++ [.call t (.remove pid)]) :=
    ⟨trace past, [], rfl, Object.silent_nil t⟩
  refine ⟨hpending, htomb, fun i h => by omega, fun h => (by cases h), ?_⟩
  by_cases hpid : pid ∈ changes.stateOf (trace past ++ [.call t (.remove pid)])
  · exact Or.inr ⟨hpid, Nat.zero_le _, fun h => (by cases h)⟩
  · exact Or.inl (hpending.ready (decide_eq_false hpid).symm (if_neg hpid))

lemma callClock {batch : Nat} (hm : ms t = .idle) :
    Keeps count pages e park past ms ⟨t, .call (.iterateClockBatch batch), ()⟩ (.moving batch none)
      s :=
  hi.seen (.call t (.iterateClockBatch batch)) rfl rfl rfl (hi.standing hm) (by rw [hm]; rfl)
    ⟨trace past, [], rfl, Object.silent_nil t⟩

lemma ret {b : Answer} (hm : ms t = .returning b) :
    Keeps count pages e park past ms ⟨t, .ret b, ()⟩ .idle s :=
  hi.seen (.ret t b) rfl rfl rfl (hi.standing hm) (by rw [hm]; rfl)
    (Or.inr ⟨trace past, b, [], rfl, Object.silent_nil t⟩)

end Inv

end MemSafeDB.ResidentSet
