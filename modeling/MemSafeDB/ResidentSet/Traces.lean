import Mathlib.Data.Finset.Basic
import MemSafeDB.Lib.Linearization
import MemSafeDB.ResidentSet.Programs

/-!
# What the set is for

A set of page ids to which threads add page ids and from which they remove them. A pass of the clock
leaves the set as it is and takes more than one moment.
-/

namespace MemSafeDB.ResidentSet
open Lib ResidentPageSet

inductive Change where
  | insert (pid : PID)
  | remove (pid : PID)

/-- `insert` is made when the page id is not in the set. -/
def setObject : Object Call Answer (Finset PID) where
  start := ∅
  after A c := match c with
    | .insert pid => Insert.insert pid A
    | .remove pid => A.erase pid
    | .iterateClockBatch _ => A
  answers A c a := match c, a with
    | .insert pid, .unit => pid ∉ A
    | .remove pid, .bool b => b = decide (pid ∈ A)
    | _, _ => False
  loose c := match c with
    | .iterateClockBatch _ => True
    | _ => False

def takes (A : Finset PID) : Call → Option Change
  | .insert pid => if pid ∈ A then none else some (.insert pid)
  | .remove pid => if pid ∈ A then some (.remove pid) else none
  | .iterateClockBatch _ => none

def changes : Object.Effects setObject Change where
  apply A e := match e with
    | .insert pid => Insert.insert pid A
    | .remove pid => A.erase pid
  takes := takes
  after_of_some := by
    intro A c e h
    cases c with
    | iterateClockBatch batch => cases h
    | _ pid =>
      rw [takes] at h
      split at h <;> cases h
      rfl
  after_of_none := by
    intro A c h
    cases c with
    | iterateClockBatch batch => rfl
    | insert pid =>
      rw [takes] at h
      split at h
      · exact Finset.insert_eq_of_mem ‹_›
      · cases h
    | remove pid =>
      rw [takes] at h
      split at h
      · cases h
      · exact Finset.erase_eq_of_notMem ‹_›
  exists_answer := by
    intro A c e h
    cases c with
    | iterateClockBatch batch => cases h
    | insert pid =>
      rw [takes] at h
      split at h
      · cases h
      · exact ⟨.unit, ‹_›⟩
    | remove pid => exact ⟨.bool _, rfl⟩
  answers_unique := by
    intro A c a a' h h'
    cases c <;> cases a <;> try exact h.elim
    all_goals cases a' <;> try exact h'.elim
    · rfl
    · exact congrArg _ (Eq.trans h (Eq.symm h'))

/-! ## What can be seen of a run -/

variable {τ : Type}

abbrev Act (τ : Type) := Action signature τ

abbrev Event (τ : Type) := Object.Event τ Call Answer Change

/-- What can be seen of an operation. A compare-exchange that succeeds changes the set. -/
def observed (t : τ) : (o : Op) → o.Res → Option (Event τ)
  | .call c, _ => some (.call t c)
  | .ret a, _ => some (.ret t a)
  | .cas _ curr new, ok =>
    cond ok (some (.effect t (if new = tombstone then .remove curr else .insert new))) none
  | _, _ => none

/-- The trace of what was done, the latest action first. -/
def trace : List (Act τ) → List (Event τ)
  | [] => []
  | a :: past => trace past ++ (observed a.thread a.op a.answer).toList

/-- The page ids that were inserted and not removed since. -/
def contents (past : List (Act τ)) : Finset PID := changes.stateOf (trace past)

def occupy (B : Finset PID) : Event τ → Finset PID
  | .call _ (.insert pid) => Insert.insert pid B
  | .effect _ (.remove pid) => B.erase pid
  | _ => B

/-- The page ids for which `insert` was called and that were not removed since. -/
def busy (past : List (Act τ)) : Finset PID := (trace past).foldl occupy ∅

/-- `insert` is called with one of the page ids `pages`, and not again before it is removed. -/
def allowed (pages : Finset PID) (past : List (Act τ)) (a : Act τ) : Prop :=
  match a.op with
  | .call (.insert pid) => pid ∈ pages ∧ pid ∉ busy past
  | .call (.remove pid) => pid ≠ tombstone
  | _ => True

instance (pages : Finset PID) (past : List (Act τ)) : (a : Act τ) → Decidable (allowed pages past a)
  | ⟨_, .call (.insert pid), _⟩ => (inferInstance : Decidable (pid ∈ pages ∧ pid ∉ busy past))
  | ⟨_, .call (.remove pid), _⟩ => (inferInstance : Decidable (pid ≠ tombstone))
  | ⟨_, .call (.iterateClockBatch _), _⟩ => .isTrue trivial
  | ⟨_, .load _, _⟩ => .isTrue trivial
  | ⟨_, .cas _ _ _, _⟩ => .isTrue trivial
  | ⟨_, .loadClock, _⟩ => .isTrue trivial
  | ⟨_, .casClock _ _, _⟩ => .isTrue trivial
  | ⟨_, .fn _, _⟩ => .isTrue trivial
  | ⟨_, .ret _, _⟩ => .isTrue trivial
  | ⟨_, .crash _, _⟩ => .isTrue trivial
  | ⟨_, .halt, _⟩ => .isTrue trivial

end MemSafeDB.ResidentSet
