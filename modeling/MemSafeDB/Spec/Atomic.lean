import MemSafeDB.Lib.Linearization
import MemSafeDB.Spec.Traces

/-!
# The atomic map

A map that many threads call, where every call on a single key takes effect at one moment between
its beginning and its end. Scans take more than one moment, so that the map leaves their answers
open. An honest trace is one of this map.
-/

namespace MemSafeDB
open Lib

variable {τ : Type}

def Call.IsScan : Call → Prop
  | .scanAsc _ _ => True
  | .scanDesc _ _ => True
  | _ => False

def mapObject : Object Call Answer Contents where
  start := .empty
  after := Contents.after
  answers := Contents.Answers
  loose := Call.IsScan

def Event.seen : Event τ → Object.Event τ Call Answer Effect
  | .call t c => .call t c
  | .effect t e => .effect t e
  | .ret t a => .ret t a

def events (trace : List (Event τ)) : List (Object.Event τ Call Answer Effect) :=
  trace.map Event.seen

/-- The calls on single keys are linearizable, and these are the contents that they leave. -/
def Linearizable [DecidableEq τ] (trace : List (Event τ)) (m : Contents) : Prop :=
  mapObject.Linearizable (events trace) m

/-! ## Changes of the contents -/

lemma Contents.Answers.unique {m : Contents} {c : Call} {a a' : Answer} (h : m.Answers c a)
    (h' : m.Answers c a') : a = a' := by
  cases c <;> cases a <;> try exact h.elim
  all_goals cases a' <;> try exact h'.elim
  all_goals first | rfl | exact congrArg _ (Eq.trans h (Eq.symm h'))

lemma Contents.exists_answer {m : Contents} {c : Call} {e : Effect} (h : c.takes m = some e) :
    ∃ a, m.Answers c a := by
  cases c with
  | insert key payload => exact ⟨.unit, trivial⟩
  | remove key => exact ⟨.bool _, rfl⟩
  | updateInPlace key fn => exact ⟨.bool _, rfl⟩
  | _ => cases h

def mapEffects : Object.Effects mapObject Effect where
  apply := Contents.apply
  takes := fun m c => c.takes m
  after_of_some := Contents.after_of_takes
  after_of_none := Contents.after_of_takes_none
  exists_answer := Contents.exists_answer
  answers_unique := Contents.Answers.unique

/-! ## Traces of the map -/

section Seen

variable {t : τ} {c : Call} {a : Answer} {trace xs ys : List (Event τ)}

lemma events_append (xs ys : List (Event τ)) : events (xs ++ ys) = events xs ++ events ys := List.map_append

lemma events_injective : Function.Injective (events : List (Event τ) → _) := by
  refine List.map_injective_iff.mpr (fun e f h => ?_)
  cases e <;> cases f <;> cases h <;> rfl

lemma stateOf_events (trace : List (Event τ)) : mapEffects.stateOf (events trace) = contentsOf trace := by
  induction trace using List.reverseRecOn with
  | nil => rfl
  | append_singleton trace e ih =>
    rw [events_append, contentsOf_concat, ← ih]
    cases e <;> exact Object.Effects.stateOf_concat _ _ _

lemma Silent.seen (h : Silent t trace) : Object.Silent t (events trace) := by
  intro e he
  obtain ⟨f, hf, rfl⟩ := List.mem_map.mp he
  have hne := h f hf
  cases f <;> exact hne

lemma Resting.seen (h : Resting t trace) : Object.Resting t (events trace) := by
  rcases h with h | ⟨pre, a, mid, rfl, hmid⟩
  · exact Or.inl h.seen
  · exact Or.inr ⟨_, a, _, events_append _ _, hmid.seen⟩

lemma Pending.seen (h : Pending t c trace) : Object.Pending t c (events trace) := by
  obtain ⟨pre, mid, rfl, hmid⟩ := h
  exact ⟨_, _, events_append _ _, hmid.seen⟩

lemma Ready.seen (h : Ready t c a trace) : Object.Ready mapEffects t c a (events trace) := by
  obtain ⟨pre, mid, post, rfl, hmid, hanswer, hpost⟩ := h
  have hcall : events (pre ++ .call t c :: mid) = events pre ++ .call t c :: events mid :=
    events_append _ _
  refine ⟨events pre, events mid, events post, by rw [events_append, hcall], hmid.seen, ?_⟩
  rw [← hcall, stateOf_events]
  refine ⟨hanswer, ?_⟩
  cases htakes : mapEffects.takes (contentsOf (pre ++ .call t c :: mid)) c with
  | none =>
    rw [show c.takes _ = none from htakes] at hpost
    exact hpost.seen
  | some e =>
    rw [show c.takes _ = some e from htakes] at hpost
    obtain ⟨rest, rfl, hrest⟩ := hpost
    exact ⟨_, rfl, hrest.seen⟩

lemma Returned.scan_or_ready (h : Returned t a c trace) :
    (c.IsScan ∧ Pending t c trace) ∨ Ready t c a trace := by
  cases c with
  | scanAsc key fn =>
    obtain ⟨pre, mid, -, hin, -⟩ := h
    exact Or.inl ⟨trivial, pre, mid, hin⟩
  | scanDesc key fn =>
    obtain ⟨pre, mid, -, -, -, hin, -⟩ := h
    exact Or.inl ⟨trivial, pre, mid, hin⟩
  | _ => exact Or.inr h

/-- A call that returns is the last one that its thread has begun. -/
lemma Returned.call_eq {c' : Call} {pre mid : List (Event τ)}
    (h : Returned t a c' (pre ++ .call t c :: mid)) (hmid : Silent t mid) : c' = c := by
  have hc : Pending t c (pre ++ .call t c :: mid) := ⟨pre, mid, rfl, hmid⟩
  have htold := Object.Status.Told.pending (F := mapEffects) hc.seen
  rcases h.scan_or_ready with ⟨-, hc'⟩ | hready
  · cases htold.eq_pending hc'.seen
    rfl
  · rcases hready.seen.moment htold with heq | ⟨heq, -⟩
    · cases heq
    · cases heq
      rfl

lemma InCall.unique {pre pre' mid mid' : List (Event τ)}
    (h : InCall t c pre' mid' (pre ++ .call t c :: mid)) (hmid : Silent t mid) :
    pre' = pre ∧ mid' = mid := by
  have heq : events pre ++ .call t c :: events mid = events pre' ++ .call t c :: events mid' := by
    have htrace := congrArg events h.trace
    rwa [events_append, events_append] at htrace
  obtain ⟨hpre, -, hmid'⟩ := Object.last_unique heq rfl rfl hmid.seen h.silent.seen
  exact ⟨events_injective hpre.symm, events_injective hmid'.symm⟩

lemma Honest.seen (h : Honest trace) : Object.Honest mapEffects (events trace) := by
  induction h with
  | nil => exact .nil
  | @concat trace e _ he ih =>
    rw [events_append]
    refine ih.concat ?_
    cases e with
    | call t c => exact he.seen
    | effect t e =>
      obtain ⟨c, hc, htakes⟩ := he
      exact ⟨c, hc.seen, by rwa [stateOf_events]⟩
    | ret t a =>
      obtain ⟨c, hreturned⟩ := he
      exact ⟨c, hreturned.scan_or_ready.imp (fun h => ⟨h.1, h.2.seen⟩) Ready.seen⟩

end Seen

section

variable [DecidableEq τ] {trace : List (Event τ)}

/-- When all calls have returned, every call on a single key has had its moment. -/
lemma Honest.shows_idle (h : Honest trace) (hrest : ∀ t, Resting t trace) :
    mapObject.Shows (Object.visible (events trace)) ⟨contentsOf trace, fun _ => .idle⟩ := by
  rw [← stateOf_events]
  exact h.seen.shows_idle (fun t => (hrest t).seen)

/-- The calls on single keys of an honest trace are linearizable. -/
theorem Honest.linearizable (h : Honest trace) : Linearizable trace (contentsOf trace) := by
  rw [Linearizable, ← stateOf_events]
  exact h.seen.linearizable

end

end MemSafeDB
