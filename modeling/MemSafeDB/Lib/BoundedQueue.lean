import Mathlib.Tactic.Common

/-!
# Bounded queues

A queue that many threads use as if each of its operations happened at one moment: what is pushed
goes to its end, what is popped comes from its front. A push fails only if the queue is full, and
a pop only if it is empty.
-/

namespace Lib

/-- A queue with what it holds, the oldest item first. -/
structure BoundedQueue (α : Type) where
  State : Type
  empty : State
  contents : State → List α
  capacity : Nat
  /-- `none` where it fails -/
  push : α → State → Option State
  pop : State → Option (α × State)
  contents_empty : contents empty = []
  push_some : ∀ {a q q'}, push a q = some q' → contents q' = contents q ++ [a]
  push_none : ∀ {a q}, push a q = none → capacity ≤ (contents q).length
  pop_some : ∀ {a q q'}, pop q = some (a, q') → contents q = a :: contents q'
  pop_none : ∀ {q}, pop q = none → contents q = []

namespace BoundedQueue

/-- A list as a queue. -/
def ofList (α : Type) (capacity : Nat) : BoundedQueue α where
  State := List α
  empty := []
  contents := id
  capacity := capacity
  push a q := if q.length < capacity then some (q ++ [a]) else none
  pop
    | [] => none
    | a :: q => some (a, q)
  contents_empty := rfl
  push_some := by
    intro a q q' h
    split_ifs at h
    exact (Option.some.inj h).symm
  push_none := by
    intro a q h
    split_ifs at h with hlt
    exact Nat.not_lt.mp hlt
  pop_some := by
    intro a q q' h
    cases q with
    | nil => cases h
    | cons b q =>
      obtain ⟨rfl, rfl⟩ := Prod.mk.inj (Option.some.inj h)
      rfl
  pop_none := by
    intro q h
    cases q with
    | nil => rfl
    | cons b q => cases h

variable {α : Type} (Q : BoundedQueue α)

lemma pop_eq_none {q : Q.State} (h : Q.contents q = []) : Q.pop q = none := by
  cases hpop : Q.pop q with
  | none => rfl
  | some r =>
    have hr := Q.pop_some hpop
    rw [h] at hr
    cases hr

/-- An empty queue with room takes an item, and gives it back. -/
lemma push_pop {q : Q.State} (h : Q.contents q = []) (hcap : 0 < Q.capacity) (a : α) :
    ∃ q' q'', Q.push a q = some q' ∧ Q.pop q' = some (a, q'') ∧ Q.contents q'' = [] := by
  cases hpush : Q.push a q with
  | none =>
    have hfull := Q.push_none hpush
    rw [h] at hfull
    exact absurd hcap (Nat.not_lt.mpr hfull)
  | some q' =>
    have hq' := Q.push_some hpush
    rw [h, List.nil_append] at hq'
    cases hpop : Q.pop q' with
    | none =>
      rw [Q.pop_none hpop] at hq'
      cases hq'
    | some r =>
      obtain ⟨b, q''⟩ := r
      have hq'' := Q.pop_some hpop
      rw [hq'] at hq''
      obtain ⟨rfl, hnil⟩ := List.cons.inj hq''
      exact ⟨q', q'', rfl, hpop, hnil.symm⟩

end BoundedQueue

end Lib
