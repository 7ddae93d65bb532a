import MemSafeDB.ResidentSet.Guarantees

/-!
# The passes of the clock

Every pass over a batch reserves the slots behind those of the pass before, by moving the clock. A
pass that has ended has given each of its slots' page ids to the function, if the slot held it all
the time. A page id that stays in the set stays in its slot, so that it is given to the function
whenever the clock goes round.
-/

namespace MemSafeDB.ResidentSet
open Lib Probing ResidentPageSet

variable {τ : Type} {count : Nat}

/-! ## What was done -/

def written (ht : Nat → PID) : (o : Op) → o.Res → Nat → PID
  | .cas pos _ new, ok => cond ok (Function.update ht pos new) ht
  | _, _ => ht

/-- The slots after what was done. -/
def slots : List (Act τ) → Nat → PID
  | [] => fun _ => empty
  | a :: past => written (slots past) a.op a.answer

/-- The action reserves the slots of a batch. -/
def reserves : (o : Op) → o.Res → Bool
  | .casClock _ _, ok => ok
  | _, _ => false

section

variable [DecidableEq τ]

/-- The batch of the last pass that the thread has begun. -/
def batchOf (t : τ) : List (Act τ) → Nat
  | [] => 0
  | a :: past =>
    match a.op with
    | .call (.iterateClockBatch batch) => if a.thread = t then batch else batchOf t past
    | _ => batchOf t past

/-- How many slots were reserved. -/
def reserved : List (Act τ) → Nat
  | [] => 0
  | a :: past =>
    if reserves a.op a.answer then reserved past + batchOf a.thread past else reserved past

/-- The action that reserves a slot, when the clock has come past it. -/
lemma exists_reservation {before mid : List (Act τ)} {n : Nat} (hsuffix : before <:+ mid)
    (hle : reserved before ≤ n) (hlt : n < reserved mid) :
    ∃ a earlier, before <:+ earlier ∧ (a :: earlier) <:+ mid ∧ reserves a.op a.answer = true ∧
      reserved earlier ≤ n ∧ n < reserved earlier + batchOf a.thread earlier := by
  induction mid with
  | nil =>
    rw [List.suffix_nil.mp hsuffix] at hle
    exact absurd hlt (by omega)
  | cons a past ih =>
    rcases List.suffix_cons_iff.mp hsuffix with rfl | hpast
    · exact absurd hlt (by omega)
    by_cases hn : n < reserved past
    · obtain ⟨b, earlier, hbefore, hmid, hrest⟩ := ih hpast hn
      exact ⟨b, earlier, hbefore, hmid.trans (List.suffix_cons a past), hrest⟩
    · rw [reserved] at hlt
      split at hlt
      · exact ⟨a, past, hpast, List.suffix_rfl, ‹_›, by omega, hlt⟩
      · exact absurd hlt hn

end

/-! ## Slots that stay as they are -/

/-- The slot holds `v` since `earlier`. -/
def Stays (v : PID) (slot : Nat) (later earlier : List (Act τ)) : Prop :=
  ∀ l l', later = l ++ l' → slots (l' ++ earlier) slot = v

/-- The thread has given the page id to the function, before it has returned from its call. -/
def Gives (t : τ) (v : PID) (later : List (Act τ)) : Prop :=
  ∃ l l', later = l ++ ⟨t, .fn v, ()⟩ :: l' ∧ ∀ b, ⟨t, .ret b, ()⟩ ∉ l'

/-- If the slot has held a page id since `earlier`, the thread has given it to the function. -/
def Handed (t : τ) (slot : Nat) (later earlier : List (Act τ)) : Prop :=
  ∀ v, ¬Open v → Stays v slot later earlier → Gives t v later

section Slots

variable {v : PID} {slot : Nat} {later earlier : List (Act τ)} {a : Act τ} {t : τ}

lemma Stays.of_cons (h : Stays v slot (a :: later) earlier) : Stays v slot later earlier := by
  rintro l l' rfl
  exact h (a :: l) l' rfl

lemma Stays.now (h : Stays v slot later earlier) : slots (later ++ earlier) slot = v := h [] later rfl

lemma Gives.cons (h : Gives t v later) : Gives t v (a :: later) := by
  obtain ⟨l, l', rfl, hret⟩ := h
  exact ⟨a :: l, l', rfl, hret⟩

lemma Handed.cons (h : Handed t slot later earlier) : Handed t slot (a :: later) earlier :=
  fun v hv hstays => (h v hv hstays.of_cons).cons

end Slots

/-- How far the thread has come with the slots of a batch, which begin at `start`. -/
def Handles (count start batch : Nat) (t : τ) (later earlier : List (Act τ)) (m : Doing) : Prop :=
  (∀ j, j < batch → Handed t ((start + j) % count) later earlier) ∨
    ∃ i seen, m = .passing (start % count) batch i seen ∧ (∀ b, ⟨t, .ret b, ()⟩ ∉ later) ∧
      (∀ j, j < i → Handed t ((start + j) % count) later earlier) ∧
      ∀ v, seen = some v → ∀ w, Stays w ((start + i) % count) later earlier → w = v

namespace Handles

variable {start batch i : Nat} {t : τ} {later earlier : List (Act τ)} {m : Doing} {a : Act τ}

/-- The thread goes on to the next slot, if there is one. -/
lemma atSlot (hhanded : ∀ j, j < i → Handed t ((start + j) % count) later earlier)
    (hret : ∀ b, ⟨t, .ret b, ()⟩ ∉ later) :
    Handles count start batch t later earlier (.atSlot (start % count) batch i) := by
  rw [Doing.atSlot]
  split
  · exact Or.inr ⟨i, none, rfl, hret, hhanded, fun v h => by cases h⟩
  · exact Or.inl (fun j hj => hhanded j (by omega))

/-- A step of another thread. -/
lemma other (h : Handles count start batch t later earlier m) (ha : a.thread ≠ t) :
    Handles count start batch t (a :: later) earlier m := by
  rcases h with hall | ⟨i, seen, rfl, hret, hhanded, hseen⟩
  · exact Or.inl (fun j hj => (hall j hj).cons)
  · refine Or.inr ⟨i, seen, rfl, fun b hb => ?_, fun j hj => (hhanded j hj).cons,
      fun v hv w hw => hseen v hv w hw.of_cons⟩
    rcases List.mem_cons.mp hb with rfl | hb
    · exact ha rfl
    · exact hret b hb

/-- A step of the thread itself. -/
lemma own {s s' : Table} {o : Op} {r : signature.Res o}
    (h : Handles count start batch t later earlier m) (hlegal : m.Legal count o)
    (hexec : s.perform o = some (r, s')) (hslots : s.set.ht = slots (later ++ earlier)) :
    Handles count start batch t (⟨t, o, r⟩ :: later) earlier (m.next o r) := by
  rcases h with hall | ⟨i, seen, rfl, hret, hhanded, hseen⟩
  · exact Or.inl (fun j hj => (hall j hj).cons)
  have hret' : ∀ b, ⟨t, .ret b, ()⟩ ∉ (⟨t, o, r⟩ :: later : List (Act τ)) := by
    intro b hb
    rcases List.mem_cons.mp hb with heq | hb
    · cases heq
      cases seen <;> exact hlegal
    · exact hret b hb
  have hnext : Handed t ((start + i) % count) (⟨t, o, r⟩ :: later) earlier →
      Handles count start batch t (⟨t, o, r⟩ :: later) earlier
        (.atSlot (start % count) batch (i + 1)) := by
    refine fun hlast => atSlot (fun j hj => ?_) hret'
    rcases Nat.lt_succ_iff_lt_or_eq.mp hj with hlt | rfl
    · exact (hhanded j hlt).cons
    · exact hlast
  cases seen with
  | none =>
    cases o with
    | load pos =>
      obtain ⟨-, rfl⟩ := hlegal
      cases hexec
      have hstays : ∀ {a : Act τ} (w : PID), Stays w ((start + i) % count) (a :: later) earlier →
          w = s.set.ht ((start % count + i) % count) := by
        intro a w hw
        rw [hslots, Nat.mod_add_mod]
        exact hw.of_cons.now.symm
      rw [Doing.next_load, Doing.afterLoad]
      split
      · refine hnext (fun v hv hw => absurd ?_ hv)
        rwa [hstays v hw]
      · exact Or.inr ⟨i, _, rfl, hret', fun j hj => (hhanded j hj).cons,
          fun v hv w hw => (hstays w hw).trans (Option.some.inj hv)⟩
    | _ => exact hlegal.elim
  | some v =>
    cases o with
    | fn pid =>
      obtain rfl : pid = v := hlegal
      cases hexec
      refine hnext (fun w _ hw => ?_)
      rw [hseen pid rfl w hw.of_cons]
      exact ⟨[], later, rfl, hret⟩
    | _ => exact hlegal.elim

end Handles

/-! ## The record of a run -/

/-- A compare-exchange that succeeds removes what it finds, or finds a slot that is free. -/
def Careful (ht : Nat → PID) : (o : Op) → o.Res → Prop
  | .cas pos curr new, ok => ok = true → ht pos = curr ∧ (new = tombstone ∨ Open curr)
  | _, _ => True

/-- At every moment the page ids of the set were stored. -/
def Sane (count : Nat) : List (Act τ) → Prop
  | [] => True
  | a :: past => Careful (slots past) a.op a.answer ∧
      (∀ p ∈ contents (a :: past), ∃ i, i < count ∧ slots (a :: past) i = p) ∧ Sane count past

section Sane

variable {past l later before : List (Act τ)} {p : PID} {i : Nat}

lemma Sane.of_suffix (h : Sane count past) (hl : l <:+ past) : Sane count l := by
  obtain ⟨later, rfl⟩ := hl
  induction later with
  | nil => exact h
  | cons a later ih => exact ih h.2.2

lemma Sane.stored (h : Sane count l) (hp : p ∈ contents l) : ∃ i, i < count ∧ slots l i = p := by
  cases l with
  | nil => exact absurd hp (Finset.notMem_empty p)
  | cons a past => exact h.2.1 p hp

/-- A page id that stays in the set stays in its slot. -/
lemma Sane.slot_eq (h : Sane count past) (hopen : ¬Open p)
    (hin : ∀ l, before <:+ l → l <:+ past → p ∈ contents l) (hslot : slots before i = p) :
    ∀ l, before <:+ l → l <:+ past → slots l i = p := by
  intro l hbefore hl
  induction l with
  | nil =>
    rw [← List.suffix_nil.mp hbefore]
    exact hslot
  | cons a l ih =>
    rcases List.suffix_cons_iff.mp hbefore with rfl | hbefore'
    · exact hslot
    have hold := ih hbefore' ((List.suffix_cons a l).trans hl)
    have hmem := hin _ hbefore hl
    obtain ⟨t, o, r⟩ := a
    have hcareful := (h.of_suffix hl).1
    cases o with
    | cas pos curr new =>
      cases r with
      | false => exact hold
      | true =>
        obtain ⟨hfound, hnew⟩ := hcareful rfl
        change Function.update (slots l) pos new i = p
        by_cases hi : i = pos
        · subst hi
          rw [hold] at hfound
          subst hfound
          rcases hnew with rfl | hcurr
          · -- the page id would have been removed
            rw [contents_of_some (.effect t (.remove p)) rfl] at hmem
            exact absurd rfl (Finset.ne_of_mem_erase hmem)
          · exact absurd hcurr hopen
        · rw [Function.update_of_ne hi, hold]
    | _ => exact hold

end Sane

variable [DecidableEq τ]

/-- The state as the actions have left it, and what passes have done with the slots of their
batches. -/
structure Log (count : Nat) (past : List (Act τ)) (ms : τ → Doing) (s : Table) : Prop where
  ht : s.set.ht = slots past
  clock : s.clockPos = reserved past % count
  sane : Sane count past
  batch : ∀ t batch loaded, ms t = .moving batch loaded → batchOf t past = batch
  handles : ∀ later a earlier, past = later ++ a :: earlier → reserves a.op a.answer = true →
    Handles count (reserved earlier) (batchOf a.thread earlier) a.thread later (a :: earlier)
      (ms a.thread)

section Steps

variable {pages : Finset PID} {e : Nat} {park : PID → Nat} {past : List (Act τ)} {ms : τ → Doing}
  {s s' : Table} {A : Finset PID} {disp : PID → Nat} {t u : τ} {o : Op} {r : signature.Res o}
  {m : Doing} {batch : Nat} {loaded : Option Nat}

omit [DecidableEq τ] in
lemma perform_written (h : s.perform o = some (r, s')) : s'.set.ht = written s.set.ht o r := by
  cases o with
  | cas pos curr new => rcases perform_cas h with ⟨rfl, -, rfl⟩ | ⟨rfl, -, rfl⟩ <;> rfl
  | casClock pos newPos => rcases perform_casClock h with ⟨rfl, -, rfl⟩ | ⟨rfl, rfl⟩ <;> rfl
  | crash f => cases h
  | halt => cases h
  | _ =>
    cases h
    rfl

lemma batchOf_other (h : u ≠ t) : batchOf u (⟨t, o, r⟩ :: past) = batchOf u past := by
  rw [batchOf]
  split
  · exact if_neg h.symm
  · rfl

omit [DecidableEq τ] in
/-- The action that reserves the slots of a batch. -/
lemma reserves_legal (hlegal : m.Legal count o) (hexec : s.perform o = some (r, s'))
    (h : reserves o r = true) : ∃ batch, m = .moving batch (some s.clockPos) ∧
      s'.clockPos = (s.clockPos + batch) % count ∧ m.next o r = .atSlot s.clockPos batch 0 := by
  cases o with
  | casClock pos newPos =>
    cases m with
    | moving batch loaded =>
      cases loaded with
      | none => exact hlegal.elim
      | some pos' =>
        obtain ⟨rfl, rfl⟩ := hlegal
        rcases perform_casClock hexec with ⟨rfl, rfl, rfl⟩ | ⟨rfl, -⟩
        · exact ⟨batch, rfl, rfl, rfl⟩
        · cases h
    | inserting _ _ l => cases l <;> exact hlegal.elim
    | removing _ _ f => cases f <;> exact hlegal.elim
    | passing _ _ _ l => cases l <;> exact hlegal.elim
    | _ => exact hlegal.elim
  | _ => cases h

omit [DecidableEq τ] in
/-- No other action moves the clock. -/
lemma clock_of_not_reserves (hexec : s.perform o = some (r, s')) (h : reserves o r = false) :
    s'.clockPos = s.clockPos := by
  cases o with
  | casClock pos newPos =>
    rcases perform_casClock hexec with ⟨rfl, -⟩ | ⟨-, rfl⟩
    · cases h
    · rfl
  | cas pos curr new => rcases perform_cas hexec with ⟨-, -, rfl⟩ | ⟨-, -, rfl⟩ <;> rfl
  | crash f => cases hexec
  | halt => cases hexec
  | _ =>
    cases hexec
    rfl

omit [DecidableEq τ] in
lemma atSlot_ne_moving (pos b i batch : Nat) (loaded : Option Nat) :
    Doing.atSlot pos b i ≠ .moving batch loaded := by
  rw [Doing.atSlot]
  split <;> exact fun h => by cases h

omit [DecidableEq τ] in
/-- How a thread comes to be about to move the clock. -/
lemma moving_cases (hlegal : m.Legal count o) (h : m.next o r = .moving batch loaded) :
    o = .call (.iterateClockBatch batch) ∨ (∃ l, m = .moving batch l) ∧ ∀ c, o ≠ .call c := by
  cases m with
  | idle =>
    cases o with
    | call c =>
      cases c with
      | iterateClockBatch b =>
        cases h
        exact Or.inl rfl
      | _ => cases h
    | _ => exact hlegal.elim
  | moving b l =>
    refine Or.inr ?_
    cases o with
    | loadClock =>
      cases l with
      | none =>
        cases h
        exact ⟨⟨none, rfl⟩, fun c hc => by cases hc⟩
      | some pos => exact hlegal.elim
    | casClock pos newPos =>
      cases l with
      | none => exact hlegal.elim
      | some pos' =>
        cases r with
        | true => exact absurd h (atSlot_ne_moving _ _ _ _ _)
        | false =>
          cases h
          exact ⟨⟨some pos', rfl⟩, fun c hc => by cases hc⟩
    | halt => exact r.elim
    | _ => cases l <;> exact hlegal.elim
  | inserting pid d l =>
    cases l <;> cases o <;> try exact hlegal.elim
    · simp only [Doing.next_load _ _ r, Doing.afterLoad] at h
      split at h <;> cases h
    · cases r <;> cases h
  | removing pid d f =>
    cases f <;> cases o <;> try exact hlegal.elim
    · simp only [Doing.next_load _ _ r, Doing.afterLoad] at h
      split at h
      · cases h
      · split at h <;> cases h
    · cases r <;> cases h
  | passing pos b i seen =>
    cases seen <;> cases o <;> try exact hlegal.elim
    · simp only [Doing.next_load _ _ r, Doing.afterLoad] at h
      split at h
      · exact absurd h (atSlot_ne_moving _ _ _ _ _)
      · cases h
    · exact absurd h (atSlot_ne_moving _ _ _ _ _)
  | returning b =>
    cases o <;> try exact hlegal.elim
    cases h
  | stopped => cases o <;> exact hlegal.elim

lemma batchOf_call : batchOf t (⟨t, .call (.iterateClockBatch batch), ()⟩ :: past) = batch := if_pos rfl

lemma batchOf_of_not_call (h : ∀ c, o ≠ .call c) : batchOf t (⟨t, o, r⟩ :: past) = batchOf t past := by
  cases o with
  | call c => exact absurd rfl (h c)
  | _ => rfl

omit [DecidableEq τ] in
lemma Inv.careful (hi : Inv count pages e park past ms s A disp) (hlegal : (ms t).Legal count o)
    (hexec : s.perform o = some (r, s')) : Careful s.set.ht o r := by
  cases o with
  | cas pos curr new =>
    intro hr
    rcases perform_cas hexec with ⟨-, heq, -⟩ | ⟨hfalse, -⟩
    · refine ⟨heq, ?_⟩
      cases hm : ms t with
      | inserting pid d l =>
        rw [hm] at hlegal
        cases l with
        | none => exact hlegal.elim
        | some v =>
          obtain ⟨-, rfl, -⟩ := hlegal
          exact Or.inr (hi.standing hm).2.2.1
      | removing pid d f =>
        rw [hm] at hlegal
        cases f with
        | false => exact hlegal.elim
        | true => exact Or.inl hlegal.2.2
      | moving _ l =>
        rw [hm] at hlegal
        cases l <;> exact hlegal.elim
      | passing _ _ _ l =>
        rw [hm] at hlegal
        cases l <;> exact hlegal.elim
      | _ =>
        rw [hm] at hlegal
        exact hlegal.elim
    · rw [hr] at hfalse
      cases hfalse
  | _ => trivial

/-- The record of a run is kept. -/
lemma Log.next (hlog : Log count past ms s) (hi : Inv count pages e park past ms s A disp)
    (hlegal : (ms t).Legal count o) (hexec : s.perform o = some (r, s')) {m' : Doing}
    (hm' : m' = (ms t).next o r)
    (hnext : Related count pages e park (⟨t, o, r⟩ :: past) (Function.update ms t m') s') :
    Log count (⟨t, o, r⟩ :: past) (Function.update ms t m') s' := by
  subst hm'
  obtain ⟨A', disp', hi'⟩ := hnext
  have hht : s'.set.ht = slots (⟨t, o, r⟩ :: past) := by
    rw [perform_written hexec, hlog.ht]
    rfl
  refine ⟨hht, ?_, ⟨?_, fun p hp => ?_, hlog.sane⟩, fun u batch loaded hu => ?_, ?_⟩
  · -- the clock
    cases hr : reserves o r with
    | true =>
      obtain ⟨batch, hm, hclock, -⟩ := reserves_legal hlegal hexec hr
      rw [reserved, hr, if_pos rfl, hclock, hlog.clock, Nat.mod_add_mod, hlog.batch t batch _ hm]
    | false =>
      rw [reserved, hr, if_neg Bool.false_ne_true, clock_of_not_reserves hexec hr, hlog.clock]
  · rw [← hlog.ht]
    exact hi.careful hlegal hexec
  · exact ⟨_, Nat.mod_lt _ (Nat.zero_lt_of_lt hi'.clock), hht ▸ (hi'.slot_eq hp rfl).1⟩
  · by_cases hut : u = t
    · subst hut
      rw [Function.update_self] at hu
      rcases moving_cases hlegal hu with rfl | ⟨⟨l, hm⟩, hnot⟩
      · exact batchOf_call
      · exact (batchOf_of_not_call hnot).trans (hlog.batch u batch l hm)
    · rw [Function.update_of_ne hut] at hu
      exact (batchOf_other hut).trans (hlog.batch u batch loaded hu)
  · intro later b earlier heq hb
    rcases List.cons_eq_append_iff.mp heq with ⟨rfl, hcons⟩ | ⟨later', rfl, rfl⟩
    · obtain ⟨rfl, rfl⟩ := List.cons.inj hcons
      obtain ⟨batch, hm, -, hatSlot⟩ := reserves_legal hlegal hexec hb
      rw [Function.update_self, hatSlot, hlog.clock, hlog.batch t batch _ hm]
      exact Handles.atSlot (fun j hj => absurd hj (Nat.not_lt_zero j)) (fun b => List.not_mem_nil)
    · have hold := hlog.handles later' b earlier rfl hb
      by_cases hbt : b.thread = t
      · subst hbt
        rw [Function.update_self]
        exact hold.own hlegal hexec hlog.ht
      · rw [Function.update_of_ne hbt]
        exact hold.other (Ne.symm hbt)

end Steps

/-! ## A round of the clock -/

namespace Run

variable {maxCount rounds clockRounds : Nat} {pages : Finset PID} {calls : τ → List Call}
  {x : History signature Empty Table τ} (h : Run maxCount pages rounds clockRounds calls x)
include h

lemma logged : ∃ e park ms, Related (slotCount maxCount) pages e park x.past ms
    x.cfg.shared ∧ Log (slotCount maxCount) x.past ms x.cfg.shared := by
  obtain ⟨e, park, hplan⟩ := h.exists_plan
  have hreflects := (reflects (τ := τ) hplan).and (fun past ms s t _ o r s' hrelated
      (hlog : Log (slotCount maxCount) past ms s) hlegal hexec hnext => by
    obtain ⟨A, disp, hi⟩ := hrelated
    exact hlog.next hi hlegal hexec rfl hnext)
  have hstart : Log (slotCount maxCount) [] (fun _ : τ => .idle)
      (Table.init maxCount) :=
    ⟨rfl, (Nat.zero_mod _).symm, trivial, fun t batch loaded ht => (by cases ht),
      fun later a earlier heq => absurd heq (by simp)⟩
  obtain ⟨ms, hms, -⟩ := h.monitored hreflects ⟨h.related_start e park, hstart⟩
  exact ⟨e, park, ms, hms⟩

end Run

/-! ## A round with two threads -/

/-- The passes of both threads make one round. -/
def passing : Bool → List Call
  | true => [.insert 7, .iterateClockBatch 3]
  | false => [.iterateClockBatch 2]

def returns (t : Bool) (later : List (Act Bool)) : Bool :=
  later.any (fun a => match a.op with
    | .ret _ => a.thread == t
    | _ => false)

lemma returns_iff {t : Bool} {later : List (Act Bool)} (h : returns t later = true) :
    ∃ b, ⟨t, .ret b, ()⟩ ∈ later := by
  obtain ⟨⟨u, o, r⟩, hmem, ha⟩ := List.any_eq_true.mp h
  cases o with
  | ret b =>
    obtain rfl := eq_of_beq ha
    exact ⟨b, hmem⟩
  | _ => cases ha

/-- The first page id is in the set since the fourth action, and the passes have ended. -/
def roundEnds (past : List (Act Bool)) : Bool :=
  past.tails.all (fun l => l.length < 4 || 7 ∈ contents l) &&
    past.tails.all (fun l => match l with
      | [] => true
      | a :: _ => !reserves a.op a.answer || returns a.thread (past.take (past.length - l.length)))

def passingTurns : List Bool :=
  [true, true, true, true, true, true, false, false, false, true, true, true,
    false, false, false, true, true, true, true, true, false]

/-! ## The result -/

section Result

variable {maxCount rounds clockRounds : Nat} {pages : Finset PID} {calls : τ → List Call}
  {x : History signature Empty Table τ}

/-- Whenever the clock goes round, a page id that stays in the set is given to the function by one of
the passes of this round, once all of them have ended. -/
theorem Run.swept (h : Run maxCount pages rounds clockRounds calls x) {before mid : List (Act τ)}
    {p : PID} (hbefore : before <:+ mid) (hmid : mid <:+ x.past)
    (hin : ∀ l, before <:+ l → l <:+ x.past → p ∈ contents l)
    (hround : reserved before + slotCount maxCount ≤ reserved mid)
    (hdone : ∀ later a earlier, x.past = later ++ a :: earlier → before <:+ earlier →
      (a :: earlier) <:+ mid → reserves a.op a.answer = true → ∃ b, ⟨a.thread, .ret b, ()⟩ ∈ later) :
    ∃ later a earlier, x.past = later ++ a :: earlier ∧ before <:+ earlier ∧
      (a :: earlier) <:+ mid ∧ reserves a.op a.answer = true ∧ Gives a.thread p later := by
  obtain ⟨e, park, ms, ⟨A, disp, hi⟩, hlog⟩ := h.logged
  have hpast := hbefore.trans hmid
  obtain ⟨-, hopen⟩ := hi.slot_eq (hin x.past hpast List.suffix_rfl) rfl
  obtain ⟨i, hlt, hslot⟩ := (hlog.sane.of_suffix hpast).stored (hin before List.suffix_rfl hpast)
  have hstays := hlog.sane.slot_eq hopen hin hslot
  obtain ⟨d, hd, hdi⟩ := exists_offset (reserved before) hlt
  obtain ⟨a, earlier, hbefore', hmid', hreserves, hle, hlt'⟩ :=
    exists_reservation hbefore (Nat.le_add_right _ d) (by omega)
  obtain ⟨later, hlater⟩ := hmid'.trans hmid
  obtain ⟨b, hb⟩ := hdone later a earlier hlater.symm hbefore' hmid' hreserves
  rcases hlog.handles later a earlier hlater.symm hreserves with hall | ⟨-, -, -, hret, -⟩
  · have hhanded := hall (reserved before + d - reserved earlier) (by omega)
    rw [Nat.add_sub_cancel' hle, hdi] at hhanded
    refine ⟨later, a, earlier, hlater.symm, hbefore', hmid', hreserves,
      hhanded p hopen (fun l l' heq => ?_)⟩
    refine hstays _ (hbefore'.trans ?_) ?_
    · exact (List.suffix_cons a earlier).trans (List.suffix_append l' _)
    · rw [← hlater, heq, List.append_assoc]
      exact List.suffix_append l _
  · exact absurd hb (hret b)

theorem swept_passing : ∃ x before later a earlier, Run 2 {7, 8} 4 2 passing x ∧
    before.length = 4 ∧ x.past = later ++ a :: earlier ∧ before <:+ earlier ∧
      reserves a.op a.answer = true ∧ Gives a.thread 7 later := by
  have hplay : (twoThreads passing passingTurns).map (fun x => (x.past.length, roundEnds x.past,
      decide (reserved (x.past.drop 17) + 4 ≤ reserved x.past))) = some (21, true, true) := by
    decide +kernel
  obtain ⟨x, hrun, hend⟩ := twoThreads_run hplay
  obtain ⟨hlength, hend⟩ := Prod.mk.inj hend
  obtain ⟨hends, hround⟩ := Prod.mk.inj hend
  obtain ⟨hin, hdone⟩ := Bool.and_eq_true_iff.mp hends
  have hbefore : (x.past.drop 17).length = 4 := by rw [List.length_drop, hlength]
  have hstays : ∀ l, x.past.drop 17 <:+ l → l <:+ x.past → 7 ∈ contents l := by
    intro l hl hpast
    have hl' := List.all_eq_true.mp hin l ((List.mem_tails _ _).mpr hpast)
    have hle := hl.length_le
    rw [Bool.or_eq_true, decide_eq_true_eq, decide_eq_true_eq] at hl'
    exact hl'.resolve_left (by omega)
  have hended : ∀ later a earlier, x.past = later ++ a :: earlier →
      reserves a.op a.answer = true → ∃ b, ⟨a.thread, .ret b, ()⟩ ∈ later := by
    intro later a earlier hpast ha
    have ha' := List.all_eq_true.mp hdone (a :: earlier)
      ((List.mem_tails _ _).mpr (hpast ▸ List.suffix_append later _))
    have htake : x.past.take (x.past.length - (a :: earlier).length) = later := by
      rw [hpast]
      exact List.take_left' (by simp)
    simp only [ha, Bool.not_true, Bool.false_or, htake] at ha'
    exact returns_iff ha'
  obtain ⟨later, a, earlier, hlater, hearlier, -, hreserves, hgives⟩ := Run.swept hrun
    (List.drop_suffix 17 x.past) List.suffix_rfl hstays (of_decide_eq_true hround)
    (fun later a earlier hpast _ _ => hended later a earlier hpast)
  exact ⟨x, _, later, a, earlier, hrun, hbefore, hlater, hearlier, hreserves, hgives⟩

end Result

end MemSafeDB.ResidentSet
