import MemSafeDB.ResidentSet.Steps

/-!
# What holds in every interleaving

From an empty table any number of threads insert page ids, remove them and pass over the slots, one
load or compare-exchange after the other. The set is linearizable, some slot stays empty, and no
insertion and no removal makes more rounds than there are slots.
-/

namespace MemSafeDB.ResidentSet
open Lib Probing ResidentPageSet

variable {τ : Type} [DecidableEq τ] {count : Nat} {pages : Finset PID} {e : Nat} {park : PID → Nat}

lemma perform_cas {s s' : Table} {pos : Nat} {curr new : PID} {ok : Bool}
    (h : s.perform (.cas pos curr new) = some (ok, s')) :
    ok = true ∧ s.set.ht pos = curr ∧ s' = { s with set := s.set.store pos new } ∨
      ok = false ∧ s.set.ht pos ≠ curr ∧ s' = s := by
  rw [Table.perform] at h
  split at h <;> cases h
  · exact Or.inl ⟨rfl, ‹_›, rfl⟩
  · exact Or.inr ⟨rfl, ‹_›, rfl⟩

lemma perform_casClock {s s' : Table} {pos newPos : Nat} {ok : Bool}
    (h : s.perform (.casClock pos newPos) = some (ok, s')) :
    ok = true ∧ s.clockPos = pos ∧ s' = { s with clockPos := newPos } ∨ ok = false ∧ s' = s := by
  rw [Table.perform] at h
  split at h <;> cases h
  · exact Or.inl ⟨rfl, ‹_›, rfl⟩
  · exact Or.inr ⟨rfl, rfl⟩

lemma target_atSlot (pos batch i : Nat) : (Doing.atSlot pos batch i).target = none := by
  rw [Doing.atSlot]
  split <;> rfl

omit [DecidableEq τ] in
lemma stands_atSlot {tr : List (Event τ)} {t : τ} {batch : Nat}
    (h : Object.Pending t (.iterateClockBatch batch) tr) (ht : Nat → PID) (disp : PID → Nat)
    (pos i : Nat) : (Doing.atSlot pos batch i).Stands count tr ht disp t := by
  rw [Doing.atSlot]
  split
  · exact h
  · exact ⟨.iterateClockBatch batch, Or.inl ⟨trivial, h⟩⟩

def Related (count : Nat) (pages : Finset PID) (e : Nat) (park : PID → Nat) (past : List (Act τ))
    (ms : τ → Doing) (s : Table) : Prop :=
  ∃ A disp, Inv count pages e park past ms s A disp

/-- Every step of a thread keeps the invariant, and its answer is as expected. -/
theorem reflects (hplan : Plan count pages e park) :
    History.Reflects exec (monitor count) (allowed pages) (Related (τ := τ) count pages e park) := by
  rintro past ms s t ⟨⟩ o r s' ⟨A, disp, hi⟩ hlegal hexec hallowed
  generalize hm : ms t = m at hlegal ⊢
  cases m with
  | idle =>
    cases o with
    | call c =>
      cases hexec
      refine ⟨trivial, ?_⟩
      cases c with
      | insert pid => exact hi.callInsert hm hallowed.1 hallowed.2
      | remove pid => exact hi.callRemove hm hallowed
      | iterateClockBatch batch => exact hi.callClock hm
    | _ => exact hlegal.elim
  | inserting pid d loaded =>
    cases loaded with
    | none =>
      cases o with
      | load pos =>
        cases hexec
        obtain rfl : pos = position count pid d := hlegal
        exact hi.loadInsert hplan hm rfl
      | _ => exact hlegal.elim
    | some v =>
      cases o with
      | cas pos curr new =>
        obtain ⟨rfl, rfl, rfl⟩ := hlegal
        rcases perform_cas hexec with ⟨rfl, heq, rfl⟩ | ⟨rfl, hne, rfl⟩
        · exact ⟨fun h => (by cases h), hi.casInsert_true hplan hm rfl heq⟩
        · obtain ⟨hlt, hkeeps⟩ := hi.casInsert_false hplan hm rfl hne
          exact ⟨fun _ => hlt, hkeeps⟩
      | _ => exact hlegal.elim
  | removing pid d found =>
    cases found with
    | false =>
      cases o with
      | load pos =>
        cases hexec
        obtain rfl : pos = position count pid d := hlegal
        exact hi.loadRemove hplan hm rfl
      | _ => exact hlegal.elim
    | true =>
      cases o with
      | cas pos curr new =>
        obtain ⟨rfl, rfl, rfl⟩ := hlegal
        rcases perform_cas hexec with ⟨rfl, heq, rfl⟩ | ⟨rfl, hne, rfl⟩
        · exact ⟨fun h => (by cases h), hi.casRemove_true hplan hm rfl heq⟩
        · obtain ⟨hlt, hkeeps⟩ := hi.casRemove_false hplan hm rfl hne
          exact ⟨fun _ => hlt, hkeeps⟩
      | _ => exact hlegal.elim
  | moving batch loaded =>
    have hstands := hi.standing hm
    have htarget : (ms t).target = none := by rw [hm]; rfl
    cases o with
    | loadClock =>
      cases loaded with
      | none =>
        cases hexec
        exact ⟨hi.clock, A, disp, hi.unseen (a := ⟨t, _, _⟩) rfl htarget.symm rfl hi.clock hstands⟩
      | some pos => exact hlegal.elim
    | casClock pos newPos =>
      cases loaded with
      | none => exact hlegal.elim
      | some pos' =>
        obtain ⟨rfl, rfl⟩ := hlegal
        rcases perform_casClock hexec with ⟨rfl, -, rfl⟩ | ⟨rfl, rfl⟩
        · exact ⟨trivial, A, disp, hi.unseen (a := ⟨t, _, _⟩) rfl
            ((target_atSlot _ _ _).trans htarget.symm) rfl
            (Nat.mod_lt _ (Nat.zero_lt_of_lt hplan.gap.lt)) (stands_atSlot hstands _ _ _ _)⟩
        · exact ⟨trivial, A, disp, hi.unseen (a := ⟨t, _, _⟩) rfl htarget.symm rfl hi.clock hstands⟩
    | halt => cases hexec
    | _ => cases loaded <;> exact hlegal.elim
  | passing pos batch i seen =>
    have hstands := hi.standing hm
    have htarget : (ms t).target = none := by rw [hm]; rfl
    cases seen with
    | none =>
      cases o with
      | load pos' =>
        cases hexec
        refine ⟨trivial, A, disp, ?_⟩
        simp only [monitor, Doing.next_load, Doing.afterLoad]
        split
        · exact hi.unseen (a := ⟨t, _, _⟩) rfl ((target_atSlot _ _ _).trans htarget.symm) rfl hi.clock
            (stands_atSlot hstands _ _ _ _)
        · exact hi.unseen (a := ⟨t, _, _⟩) rfl htarget.symm rfl hi.clock hstands
      | _ => exact hlegal.elim
    | some v =>
      cases o with
      | fn pid =>
        cases hexec
        exact ⟨trivial, A, disp, hi.unseen (a := ⟨t, _, _⟩) rfl
          ((target_atSlot _ _ _).trans htarget.symm) rfl hi.clock (stands_atSlot hstands _ _ _ _)⟩
      | _ => exact hlegal.elim
  | returning b =>
    cases o with
    | ret b' =>
      cases hexec
      obtain rfl : b' = b := hlegal
      exact ⟨trivial, hi.ret hm⟩
    | _ => exact hlegal.elim
  | stopped => cases o <;> exact hlegal.elim

omit [DecidableEq τ] in
lemma Doing.not_legal_crash {m : Doing} {f : Fault} : ¬m.Legal count (.crash f) := by
  cases m with
  | inserting _ _ loaded => cases loaded <;> exact id
  | removing _ _ found => cases found <;> exact id
  | moving _ loaded => cases loaded <;> exact id
  | passing _ _ _ seen => cases seen <;> exact id
  | _ => exact id

lemma Doing.of_legal_halt {m : Doing} (h : m.Legal count .halt) :
    ∃ batch loaded, m = .moving batch loaded := by
  cases m with
  | moving batch loaded => exact ⟨batch, loaded, rfl⟩
  | inserting _ _ loaded => cases loaded <;> exact h.elim
  | removing _ _ found => cases found <;> exact h.elim
  | passing _ _ _ seen => cases seen <;> exact h.elim
  | _ => exact h.elim

/-! ## Runs -/

/-- How many slots `init` makes. -/
abbrev slotCount (maxCount : Nat) : Nat := (ResidentPageSet.init maxCount).count

/-- Threads share a set that `init` has made. The loops that move the clock make at most
`clockRounds` rounds, and the other ones at most `rounds`. -/
def launch (maxCount rounds clockRounds : Nat) (calls : τ → List Call) :
    History signature Empty Table τ :=
  .start ⟨Table.init maxCount, fun t => thread (slotCount maxCount)
    (ResidentPageSet.init maxCount).mask rounds clockRounds (calls t)⟩

/-- A run with fewer page ids than slots. -/
structure Run (maxCount : Nat) (pages : Finset PID) (rounds clockRounds : Nat) (calls : τ → List Call)
    (x : History signature Empty Table τ) : Prop where
  two_le : 2 ≤ maxCount
  le : maxCount * 3 / 2 ≤ 2 ^ 30
  card : pages.card < slotCount maxCount
  keys : ∀ p ∈ pages, ¬Open p
  enough : slotCount maxCount ≤ rounds
  leads : History.Leads exec (allowed pages) (launch maxCount rounds clockRounds calls) x

namespace Run

variable {maxCount rounds clockRounds : Nat} {calls : τ → List Call} {x : History signature Empty Table τ}
  (h : Run maxCount pages rounds clockRounds calls x)
include h

lemma geometry :
    Geometry (slotCount maxCount) (ResidentPageSet.init maxCount).mask := by
  have hcircular := circular_init h.two_le h.le
  refine ⟨hcircular.count_pos, hcircular.and_mask, ?_⟩
  have hcount : slotCount maxCount =
      2 ^ (Nat.log2 (maxCount * 3 / 2 - 1) + 1) :=
    nextPow2_eq (by have := h.two_le; omega) h.le
  rw [hcount]
  have hlog : Nat.log2 (maxCount * 3 / 2 - 1) < 30 := by
    have hle := h.le
    have htwo := h.two_le
    exact (Nat.log2_lt (by omega)).mpr (by omega)
  exact Nat.pow_dvd_pow 2 (by omega)

lemma exists_plan : ∃ e park, Plan (slotCount maxCount) pages e park := by
  obtain ⟨e, park, hgap⟩ := exists_gap ResidentPageSet.hash pages h.card
  exact ⟨e, park, hgap, h.keys⟩

lemma related_start (e : Nat) (park : PID → Nat) :
    Related (slotCount maxCount) pages e park [] (fun _ : τ => .idle)
      (Table.init maxCount) := by
  refine ⟨∅, fun _ => 0, contended_free _ _ _ _ _ _, fun p => ?_, .nil,
    fun t => Or.inl (Object.silent_nil t), fun t u p ht => (by cases ht), Finset.empty_subset _,
    h.geometry.pos⟩
  refine iff_of_false (Finset.notMem_empty p) ?_
  rintro (hp | ⟨t, ht⟩)
  · exact absurd hp (Finset.notMem_empty p)
  · cases ht

/-- What every step keeps holds in the end. -/
lemma monitored {R : List (Act τ) → (τ → Doing) → Table → Prop}
    (hreflects : History.Reflects exec (monitor (slotCount maxCount)) (allowed pages) R)
    (hstart : R [] (fun _ => .idle) (Table.init maxCount)) :
    History.Monitored (monitor (slotCount maxCount)) R x :=
  History.Monitored.leads (x := launch maxCount rounds clockRounds calls) hreflects
    ⟨fun _ => .idle, hstart, fun t => h.geometry.does_thread h.enough (calls t)⟩ h.leads

lemma related : ∃ e park, Plan (slotCount maxCount) pages e park ∧
    History.Monitored (monitor (slotCount maxCount))
      (Related (slotCount maxCount) pages e park) x := by
  obtain ⟨e, park, hplan⟩ := h.exists_plan
  exact ⟨e, park, hplan, h.monitored (reflects hplan) (h.related_start e park)⟩

end Run

/-! ## Two threads -/

def twoThreads (calls : Bool → List Call) (turns : List Bool) :
    Option (History signature Empty Table Bool) :=
  History.playAllowed exec (allowed {7, 8}) (turns.map (fun t => (t, ()))) (launch 2 4 2 calls)

lemma twoThreads_run {calls : Bool → List Call} {turns : List Bool} {α : Type}
    {f : History signature Empty Table Bool → α} {a : α} (h : (twoThreads calls turns).map f = some a) :
    ∃ x, Run 2 {7, 8} 4 2 calls x ∧ f x = a := by
  obtain ⟨x, hplay, hf⟩ := Option.map_eq_some_iff.mp h
  exact ⟨x, ⟨by decide, by decide, by decide, by decide, by decide,
    History.leads_of_playAllowed hplay⟩, hf⟩

/-- Two page ids with the same hash, of which both threads remove the first one. -/
def contending : Bool → List Call
  | true => [.insert 7, .remove 7]
  | false => [.insert 8, .remove 7]

/-- Both threads load the same empty slot, and later both find the first page id. -/
def contendingTurns : List Bool :=
  [true, false, true, false, true, false, false, false, true, true,
    false, false, true, false, true, false, false, false, false, true]

/-- What a run has come to: its length, and the slots. -/
def outcome (x : History signature Empty Table Bool) : Nat × List PID :=
  (x.past.length, (List.range 4).map x.cfg.shared.set.ht)

/-- The program is about to take an empty slot. -/
def triesToTake (pos : Nat) (pid : PID) : Prog Unit → Bool
  | .step (.cas pos' curr new) _ => pos' == pos && curr == empty && new == pid
  | _ => false

lemma eq_of_triesToTake {pos : Nat} {pid : PID} {p : Prog Unit} (h : triesToTake pos pid p = true) :
    ∃ k, p = .step (.cas pos empty pid) k := by
  unfold triesToTake at h
  split at h
  · rw [Bool.and_eq_true, Bool.and_eq_true] at h
    obtain ⟨⟨hpos, hcurr⟩, hnew⟩ := h
    obtain rfl := eq_of_beq hpos
    obtain rfl := eq_of_beq hcurr
    obtain rfl := eq_of_beq hnew
    exact ⟨_, rfl⟩
  · cases h

/-! ## The results -/

section Results

variable {maxCount rounds clockRounds : Nat} {calls : τ → List Call} {x : History signature Empty Table τ}

/-- Some slot stays empty, and no page id is stored twice. -/
theorem Run.slots_sound (h : Run maxCount pages rounds clockRounds calls x) :
    (∃ i, i < slotCount maxCount ∧ x.cfg.shared.set.ht i = empty) ∧
    ∀ i j, i < slotCount maxCount → j < slotCount maxCount →
      x.cfg.shared.set.ht i = x.cfg.shared.set.ht j → ¬Open (x.cfg.shared.set.ht i) → i = j := by
  obtain ⟨e, park, hplan, ms, ⟨A, disp, hi⟩, -⟩ := h.related
  refine ⟨⟨e, hplan.gap.lt, cell_free.mp hi.laid.gap⟩, fun i j hlt hlt' heq hopen => ?_⟩
  have hslot := (hi.stored_of_slot hlt hopen).2
  have hslot' := (hi.stored_of_slot hlt' (heq ▸ hopen)).2
  rw [← hslot, ← hslot', heq]

theorem slots_sound_contending : ∃ x, Run 2 {7, 8} 4 2 contending x ∧
    outcome x = (20, [tombstone, 8, empty, empty]) ∧
    (∃ i, i < slotCount 2 ∧ x.cfg.shared.set.ht i = empty) ∧
    ∀ i j, i < slotCount 2 → j < slotCount 2 →
      x.cfg.shared.set.ht i = x.cfg.shared.set.ht j → ¬Open (x.cfg.shared.set.ht i) → i = j := by
  have hplay : (twoThreads contending contendingTurns).map outcome =
      some (20, [tombstone, 8, empty, empty]) := by decide +kernel
  obtain ⟨x, hrun, houtcome⟩ := twoThreads_run hplay
  exact ⟨x, hrun, houtcome, Run.slots_sound hrun⟩

/-- Insertions and removals are linearizable, and the slots hold the page ids that they leave. -/
theorem Run.set_linearizable (h : Run maxCount pages rounds clockRounds calls x) :
    ∃ A, setObject.Linearizable (trace x.past) A ∧ ∀ p, ¬Open p →
    ((∃ i, i < slotCount maxCount ∧ x.cfg.shared.set.ht i = p) ↔ p ∈ A) := by
  obtain ⟨e, park, hplan, ms, ⟨A, disp, hi⟩, -⟩ := h.related
  refine ⟨contents x.past, hi.honest.linearizable, fun p hp => ⟨?_, fun hmem => ?_⟩⟩
  · rintro ⟨i, hlt, rfl⟩
    exact (hi.stored_of_slot hlt hp).1
  · exact ⟨_, hplan.position_lt p (disp p), (hi.slot_eq hmem rfl).1⟩

theorem set_linearizable_contending : ∃ x A, Run 2 {7, 8} 4 2 contending x ∧
    outcome x = (20, [tombstone, 8, empty, empty]) ∧ setObject.Linearizable (trace x.past) A ∧
      ∀ p, ¬Open p →
        ((∃ i, i < slotCount 2 ∧ x.cfg.shared.set.ht i = p) ↔ p ∈ A) := by
  have hplay : (twoThreads contending contendingTurns).map outcome =
      some (20, [tombstone, 8, empty, empty]) := by decide +kernel
  obtain ⟨x, hrun, houtcome⟩ := twoThreads_run hplay
  obtain ⟨A, hA⟩ := Run.set_linearizable hrun
  exact ⟨x, A, hrun, houtcome, hA⟩

/-- No assertion fails, and only passes of the clock run out of rounds: insertions and removals come to
their ends in as many rounds as there are slots, whatever other threads do. -/
theorem Run.goes_on (h : Run maxCount pages rounds clockRounds calls x) {t : τ} {o : Op}
    {k : signature.Res o → Prog Unit} (hprog : x.cfg.prog t = .step o k) :
    (∃ rs, exec t () o x.cfg.shared = some rs) ∨
      o = .halt ∧ ∃ batch, Object.Pending t (.iterateClockBatch batch) (trace x.past) := by
  obtain ⟨e, park, hplan, hmonitored⟩ := h.related
  obtain ⟨ms, ⟨A, disp, hi⟩, hlegal⟩ := hmonitored.legal hprog
  cases o with
  | crash f => exact (Doing.not_legal_crash hlegal).elim
  | halt =>
    obtain ⟨batch, loaded, hm⟩ := Doing.of_legal_halt hlegal
    exact Or.inr ⟨rfl, batch, hi.standing hm⟩
  | cas pos curr new =>
    refine Or.inl ?_
    by_cases heq : x.cfg.shared.set.ht pos = curr
    · exact ⟨_, if_pos heq⟩
    · exact ⟨_, if_neg heq⟩
  | casClock pos newPos =>
    refine Or.inl ?_
    by_cases heq : x.cfg.shared.clockPos = pos
    · exact ⟨_, if_pos heq⟩
    · exact ⟨_, if_neg heq⟩
  | _ => exact Or.inl ⟨_, rfl⟩

theorem goes_on_contending : ∃ x k, Run 2 {7, 8} 4 2 contending x ∧
    x.cfg.prog false = .step (.cas 0 empty 8) k ∧
      ((∃ rs, exec false () (.cas 0 empty 8) x.cfg.shared = some rs) ∨
        (Op.cas 0 empty 8 = .halt ∧ ∃ batch,
          Object.Pending false (.iterateClockBatch batch) (trace x.past))) := by
  have hplay : (twoThreads contending (contendingTurns.take 5)).map (fun x =>
      triesToTake 0 8 (x.cfg.prog false)) = some true := by decide +kernel
  obtain ⟨x, hrun, htries⟩ := twoThreads_run hplay
  obtain ⟨k, hprog⟩ := eq_of_triesToTake htries
  exact ⟨x, k, hrun, hprog, Run.goes_on hrun hprog⟩

end Results

end MemSafeDB.ResidentSet
