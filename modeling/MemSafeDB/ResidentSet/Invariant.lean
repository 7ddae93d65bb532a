import MemSafeDB.Lib.Crowding
import MemSafeDB.ResidentSet.Traces

/-!
# The invariant of the shared table

A page id that is being inserted has a place of its own in the table before it is stored: the slot
that its thread tries next. When another page id takes an empty slot that the thread has loaded, the
thread's compare-exchange can only fail, and its page id has passed the slot at that moment. So no
page id comes to the gap, in whatever order the threads take their steps.
-/

namespace MemSafeDB.ResidentSet
open Lib Probing ResidentPageSet

variable {τ : Type}

/-- The page id that the thread is inserting. -/
def Doing.target : Doing → Option PID
  | inserting pid _ _ => some pid
  | _ => none

/-- How an insertion that has come to distance `d` stands to the slot there. -/
def Reads (count : Nat) (ht : Nat → PID) (disp : Nat) (pid : PID) (d : Nat) : Option PID → Prop
  | none => disp = d
  | some v => Open v ∧ (disp = d ∧ (v = empty ↔ ht (position count pid d) = empty) ∨
      disp = d + 1 ∧ v = empty)

/-- What a removal knows while the page id stays in the set. -/
def Nears (disp d : Nat) (found : Bool) : Prop := d ≤ disp ∧ (found = true → disp = d)

/-- What is so when a thread has come so far. -/
def Doing.Stands (count : Nat) (tr : List (Event τ)) (ht : Nat → PID) (disp : PID → Nat) (t : τ) :
    Doing → Prop
  | idle => Object.Resting t tr
  | inserting pid d loaded => Object.Pending t (.insert pid) tr ∧ pid ∉ changes.stateOf tr ∧
      Reads count ht (disp pid) pid d loaded
  | removing pid d found => Object.Pending t (.remove pid) tr ∧ pid ≠ tombstone ∧
      (∀ i, i < d → ht (position count pid i) ≠ empty) ∧
      (found = true → ht (position count pid d) ≠ empty) ∧
      (Object.Ready changes t (.remove pid) (.bool false) tr ∨
        pid ∈ changes.stateOf tr ∧ Nears (disp pid) d found)
  | moving batch _ => Object.Pending t (.iterateClockBatch batch) tr
  | passing _ batch _ _ => Object.Pending t (.iterateClockBatch batch) tr
  | returning a => Object.Returned changes t a tr
  | stopped => True

/-- The page ids `A` are the ones that are stored and the ones that are being inserted. -/
structure Inv (count : Nat) (pages : Finset PID) (e : Nat) (park : PID → Nat) (past : List (Act τ))
    (ms : τ → Doing) (s : Table) (A : Finset PID) (disp : PID → Nat) : Prop where
  laid : Contended count ResidentPageSet.hash pages e park s.set.cells (contents past) A disp
  active : ∀ p, p ∈ A ↔ p ∈ contents past ∨ ∃ t, (ms t).target = some p
  honest : Object.Honest changes (trace past)
  stands : ∀ t, (ms t).Stands count (trace past) s.set.ht disp t
  unique : ∀ t u p, (ms t).target = some p → (ms u).target = some p → t = u
  occupied : A ⊆ busy past
  clock : s.clockPos < count

/-- The page ids leave a gap, and they are none of the marks of free slots. -/
structure Plan (count : Nat) (pages : Finset PID) (e : Nat) (park : PID → Nat) : Prop where
  gap : Gap count ResidentPageSet.hash pages e park
  keys : ∀ p ∈ pages, ¬Open p

/-! ## What an action adds to the trace -/

section Traces

variable {past : List (Act τ)} {t u : τ} {o : Op} {r : signature.Res o} {tr es : List (Event τ)}

lemma trace_cons (a : Act τ) (past : List (Act τ)) :
    trace (a :: past) = trace past ++ (observed a.thread a.op a.answer).toList := rfl

lemma observed_thread {ev : Event τ} (h : observed t o r = some ev) : ev.thread = t := by
  cases o with
  | cas pos curr new =>
    cases r with
    | true =>
      cases h
      rfl
    | false => cases h
  | call c =>
    cases h
    rfl
  | ret a =>
    cases h
    rfl
  | _ => cases h

lemma observed_silent (h : u ≠ t) : Object.Silent u (observed t o r).toList := by
  intro ev hev
  rw [observed_thread (Option.mem_toList.mp hev)]
  exact h.symm

lemma trace_of_none {a : Act τ} (h : observed a.thread a.op a.answer = none) :
    trace (a :: past) = trace past := by
  rw [trace_cons, h]
  exact List.append_nil _

lemma trace_of_some {a : Act τ} (ev : Event τ) (h : observed a.thread a.op a.answer = some ev) :
    trace (a :: past) = trace past ++ [ev] := by
  rw [trace_cons, h]
  rfl

lemma contents_of_some {a : Act τ} (ev : Event τ)
    (h : observed a.thread a.op a.answer = some ev) :
    contents (a :: past) = changes.change (contents past) ev := by
  rw [contents, trace_of_some ev h, Object.Effects.stateOf_concat]
  rfl

lemma busy_of_some {a : Act τ} (ev : Event τ) (h : observed a.thread a.op a.answer = some ev) :
    busy (a :: past) = occupy (busy past) ev := by
  rw [busy, trace_of_some ev h, List.foldl_append]
  rfl

end Traces

/-! ## What a step of another thread leaves -/

section Frames

variable {count : Nat} {tr es : List (Event τ)} {ht ht' : Nat → PID} {disp disp' : PID → Nat} {t : τ}
  {m : Doing}

/-- A slot that was taken is never empty again. -/
lemma Doing.Stands.frame (h : m.Stands count tr ht disp t) (hes : Object.Silent t es)
    (hslots : ∀ i, ht i ≠ empty → ht' i ≠ empty)
    (hdisp : ∀ p ∈ changes.stateOf tr, disp' p = disp p)
    (hinserting : ∀ pid d loaded, m = .inserting pid d loaded →
      pid ∉ changes.stateOf (tr ++ es) ∧ Reads count ht' (disp' pid) pid d loaded) :
    m.Stands count (tr ++ es) ht' disp' t := by
  cases m with
  | idle => exact Object.Resting.append h hes
  | inserting pid d loaded => exact ⟨h.1.append hes, hinserting pid d loaded rfl⟩
  | removing pid d found =>
    obtain ⟨hpending, hne, hpath, hfound, hstored⟩ := h
    refine ⟨hpending.append hes, hne, fun i hi => hslots _ (hpath i hi),
      fun hf => hslots _ (hfound hf), ?_⟩
    rcases hstored with habsent | ⟨hpid, hnears⟩
    · exact Or.inl (habsent.append hes)
    · by_cases hstill : pid ∈ changes.stateOf (tr ++ es)
      · exact Or.inr ⟨hstill, by rwa [hdisp pid hpid]⟩
      · -- this is the moment at which the page id is not in the set
        exact Or.inl ((hpending.append hes).ready (decide_eq_false hstill).symm (if_neg hstill))
  | moving batch loaded => exact Object.Pending.append h hes
  | passing pos batch i seen => exact Object.Pending.append h hes
  | returning a => exact Object.Returned.append h hes
  | stopped => trivial

end Frames

/-! ## The steps that keep the invariant -/

section Steps

variable [DecidableEq τ] {count : Nat} {pages : Finset PID} {e : Nat} {park : PID → Nat}
  {past : List (Act τ)} {ms : τ → Doing} {s s' : Table} {A A' : Finset PID} {disp disp' : PID → Nat}
  {a : Act τ} {m' : Doing}

namespace Inv

/-- An action of one thread, when it leaves the others where they are. -/
lemma next (hi : Inv count pages e park past ms s A disp)
    (hlaid : Contended count ResidentPageSet.hash pages e park s'.set.cells (contents (a :: past)) A'
      disp')
    (hactive : ∀ p, p ∈ A' ↔ p ∈ contents (a :: past) ∨
      ∃ t, (Function.update ms a.thread m' t).target = some p)
    (hhonest : Object.Honest changes (trace (a :: past)))
    (hstands : m'.Stands count (trace (a :: past)) s'.set.ht disp' a.thread)
    (hunique : ∀ u, u ≠ a.thread → ∀ p, m'.target = some p → (ms u).target ≠ some p)
    (hslots : ∀ i, s.set.ht i ≠ empty → s'.set.ht i ≠ empty)
    (hdisp : ∀ p ∈ contents past, disp' p = disp p)
    (hinserting : ∀ u, u ≠ a.thread → ∀ pid d loaded, ms u = .inserting pid d loaded →
      pid ∉ contents (a :: past) ∧ Reads count s'.set.ht (disp' pid) pid d loaded)
    (hbusy : A' ⊆ busy (a :: past)) (hclock : s'.clockPos < count) :
    Inv count pages e park (a :: past) (Function.update ms a.thread m') s' A' disp' := by
  refine ⟨hlaid, hactive, hhonest, fun u => ?_, fun t u p ht hu => ?_, hbusy, hclock⟩
  · by_cases hu : u = a.thread
    · subst hu
      rwa [Function.update_self]
    · rw [Function.update_of_ne hu]
      exact (hi.stands u).frame (observed_silent hu) hslots hdisp (hinserting u hu)
  · by_cases hta : t = a.thread
    · subst hta
      rw [Function.update_self] at ht
      by_contra hne
      rw [Function.update_of_ne (Ne.symm hne)] at hu
      exact hunique u (Ne.symm hne) p ht hu
    · rw [Function.update_of_ne hta] at ht
      by_cases hua : u = a.thread
      · subst hua
        rw [Function.update_self] at hu
        exact absurd ht (hunique t hta p hu)
      · rw [Function.update_of_ne hua] at hu
        exact hi.unique t u p ht hu

omit [DecidableEq τ] in
lemma mem_of_target (hi : Inv count pages e park past ms s A disp) {t : τ} {p : PID}
    (h : (ms t).target = some p) : p ∈ A := (hi.active p).mpr (Or.inr ⟨t, h⟩)

omit [DecidableEq τ] in
lemma notMem_of_target (hi : Inv count pages e park past ms s A disp) {t : τ} {p : PID}
    (h : (ms t).target = some p) : p ∉ contents past := by
  have hstands := hi.stands t
  cases hm : ms t with
  | inserting pid d loaded =>
    rw [hm] at h hstands
    obtain rfl := Option.some.inj h
    exact hstands.2.1
  | _ =>
    rw [hm] at h
    cases h

/-- A step that leaves the set and the table as they are. -/
lemma stay (hi : Inv count pages e park past ms s A disp)
    (htarget : m'.target = (ms a.thread).target) (hcontents : contents (a :: past) = contents past)
    (hbusy : busy past ⊆ busy (a :: past)) (hhonest : Object.Honest changes (trace (a :: past)))
    (hset : s'.set = s.set) (hclock : s'.clockPos < count)
    (hlaid : Contended count ResidentPageSet.hash pages e park s.set.cells (contents past) A disp')
    (hdisp : ∀ p ∈ A, m'.target ≠ some p → disp' p = disp p)
    (hstands : m'.Stands count (trace (a :: past)) s.set.ht disp' a.thread) :
    Inv count pages e park (a :: past) (Function.update ms a.thread m') s' A disp' := by
  have hother : ∀ u, u ≠ a.thread → ∀ p, m'.target = some p → (ms u).target ≠ some p := by
    intro u hu p hp hup
    rw [htarget] at hp
    exact hu (hi.unique u a.thread p hup hp)
  refine hi.next (by rwa [hset, hcontents]) (fun p => ?_) hhonest (by rwa [hset]) hother
    (by rw [hset]; exact fun _ h => h) (fun p hp => ?_) (fun u hu pid d loaded hm => ?_)
    (hi.occupied.trans hbusy) hclock
  · rw [hcontents, hi.active]
    refine or_congr_right (exists_congr fun u => ?_)
    by_cases hu : u = a.thread
    · subst hu
      rw [Function.update_self, htarget]
    · rw [Function.update_of_ne hu]
  · refine hdisp p ((hi.active p).mpr (Or.inl hp)) (fun h => ?_)
    rw [htarget] at h
    exact hi.notMem_of_target h hp
  · have hupid : (ms u).target = some pid := by rw [hm]; rfl
    have hstands' := hi.stands u
    rw [hm] at hstands'
    rw [hcontents, hset, hdisp pid (hi.mem_of_target hupid) (fun h => hother u hu pid h hupid)]
    exact hstands'.2

/-- A step that is not seen. -/
lemma silent (hi : Inv count pages e park past ms s A disp)
    (hnone : observed a.thread a.op a.answer = none) (htarget : m'.target = (ms a.thread).target)
    (hset : s'.set = s.set) (hclock : s'.clockPos < count)
    (hlaid : Contended count ResidentPageSet.hash pages e park s.set.cells (contents past) A disp')
    (hdisp : ∀ p ∈ A, m'.target ≠ some p → disp' p = disp p)
    (hstands : m'.Stands count (trace past) s.set.ht disp' a.thread) :
    Inv count pages e park (a :: past) (Function.update ms a.thread m') s' A disp' := by
  have htrace : trace (a :: past) = trace past := trace_of_none hnone
  refine hi.stay htarget ?_ ?_ (by rw [htrace]; exact hi.honest) hset hclock hlaid hdisp
    (by rwa [htrace])
  · rw [contents, htrace]
    rfl
  · rw [busy, busy, htrace]

/-- A step that is not seen and in which nothing moves. -/
lemma unseen (hi : Inv count pages e park past ms s A disp)
    (hnone : observed a.thread a.op a.answer = none) (htarget : m'.target = (ms a.thread).target)
    (hset : s'.set = s.set) (hclock : s'.clockPos < count)
    (hstands : m'.Stands count (trace past) s.set.ht disp a.thread) :
    Inv count pages e park (a :: past) (Function.update ms a.thread m') s' A disp :=
  hi.silent hnone htarget hset hclock hi.laid (fun _ _ _ => rfl) hstands

end Inv

end Steps

end MemSafeDB.ResidentSet
