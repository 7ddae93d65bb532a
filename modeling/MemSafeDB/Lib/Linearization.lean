import Mathlib.Data.List.Infix
import Mathlib.Logic.Function.Basic
import Mathlib.Tactic.Common

/-!
# Objects that many threads call

At the atomic object every call takes effect at one moment between its beginning and its end. A
trace tells when calls begin and end and when they change the state of an object. It is honest when
every change is one that a pending call makes of the state at that moment, and every answer was right
at some moment between the beginning and the end of its call. An honest trace is one of the atomic
object: a change is the moment of the call that makes it, and a call that changes nothing is given
the moment at which its answer was right.
-/

namespace Lib

/-- An object: what a call leaves and what it may answer. -/
structure Object (C A σ : Type) where
  start : σ
  after : σ → C → σ
  answers : σ → C → A → Prop
  /-- the call takes more than one moment, so that its answer is left open -/
  loose : C → Prop

namespace Object

variable {τ C A E σ : Type}

inductive Event (τ C A E : Type) where
  | call (t : τ) (c : C)
  | effect (t : τ) (e : E)
  | ret (t : τ) (a : A)

def Event.thread : Event τ C A E → τ
  | .call t _ => t
  | .effect t _ => t
  | .ret t _ => t

/-- What a thread does at the object. -/
inductive Status (C A : Type) where
  | idle
  | pending (c : C)
  | finished (c : C) (a : A)

/-- The state of the object, and what the threads do. -/
structure Atomic (τ C A σ : Type) where
  state : σ
  status : τ → Status C A

/-- The beginnings and the ends of the calls. -/
def visible (trace : List (Event τ C A E)) : List (Event τ C A E) :=
  trace.filter (fun e => match e with
    | .effect _ _ => false
    | _ => true)

lemma visible_concat (trace : List (Event τ C A E)) (e : Event τ C A E) :
    visible (trace ++ [e]) = visible trace ++ visible [e] := List.filter_append trace [e]

section Runs

variable [DecidableEq τ]

def Atomic.set (x : Atomic τ C A σ) (t : τ) (s : Status C A) : Atomic τ C A σ :=
  { x with status := Function.update x.status t s }

variable (O : Object C A σ)

/-- What may happen next at the atomic object, and what of it can be seen. -/
inductive Step (x : Atomic τ C A σ) : Option (Event τ C A E) → Atomic τ C A σ → Prop where
  | call {t : τ} (c : C) (h : x.status t = .idle) : Step x (some (.call t c)) (x.set t (.pending c))
  | commit {t : τ} {c : C} {a : A} (h : x.status t = .pending c) (ha : O.answers x.state c a) :
    Step x none ({ x with state := O.after x.state c }.set t (.finished c a))
  | ret {t : τ} {c : C} {a : A} (h : x.status t = .finished c a) :
    Step x (some (.ret t a)) (x.set t .idle)
  | loose {t : τ} {c : C} (a : A) (h : x.status t = .pending c) (hc : O.loose c) :
    Step x (some (.ret t a)) (x.set t .idle)

/-- The atomic object can come to this, while these events are seen. -/
inductive Shows : List (Event τ C A E) → Atomic τ C A σ → Prop where
  | start : Shows [] ⟨O.start, fun _ => .idle⟩
  | step {es : List (Event τ C A E)} {x y : Atomic τ C A σ} {e : Option (Event τ C A E)}
      (h : Shows es x) (hstep : O.Step x e y) : Shows (es ++ e.toList) y

/-- The calls are linearizable, and this is the state that they leave. -/
def Linearizable (trace : List (Event τ C A E)) (s : σ) : Prop :=
  ∃ x : Atomic τ C A σ, O.Shows (visible trace) x ∧ x.state = s

end Runs

/-! ## Traces -/

/-- The changes that calls make of a state. -/
structure Effects (O : Object C A σ) (E : Type) where
  apply : σ → E → σ
  takes : σ → C → Option E
  after_of_some : ∀ {s c e}, takes s c = some e → O.after s c = apply s e
  after_of_none : ∀ {s c}, takes s c = none → O.after s c = s
  exists_answer : ∀ {s c e}, takes s c = some e → ∃ a, O.answers s c a
  answers_unique : ∀ {s c a a'}, O.answers s c a → O.answers s c a' → a = a'

/-- None of the events is of thread `t`. -/
def Silent (t : τ) (es : List (Event τ C A E)) : Prop := ∀ e ∈ es, e.thread ≠ t

/-- Thread `t` has made no call yet, or the last one has returned. -/
def Resting (t : τ) (trace : List (Event τ C A E)) : Prop :=
  Silent t trace ∨ ∃ pre a mid, trace = pre ++ .ret t a :: mid ∧ Silent t mid

/-- Thread `t` is in the call and has changed nothing so far. -/
def Pending (t : τ) (c : C) (trace : List (Event τ C A E)) : Prop :=
  ∃ pre mid, trace = pre ++ .call t c :: mid ∧ Silent t mid

variable {O : Object C A σ} (F : Effects O E)

/-- The state after an event. -/
def Effects.change (s : σ) : Event τ C A E → σ
  | .effect _ e => F.apply s e
  | _ => s

/-- The state that the events leave. -/
def Effects.stateOf (trace : List (Event τ C A E)) : σ := trace.foldl F.change O.start

/-- The answer was right at some moment since the call began, when the call made its change. -/
def Ready (t : τ) (c : C) (a : A) (trace : List (Event τ C A E)) : Prop :=
  ∃ pre mid post, trace = (pre ++ .call t c :: mid) ++ post ∧ Silent t mid ∧
    O.answers (F.stateOf (pre ++ .call t c :: mid)) c a ∧
    match F.takes (F.stateOf (pre ++ .call t c :: mid)) c with
    | none => Silent t post
    | some e => ∃ rest, post = .effect t e :: rest ∧ Silent t rest

/-- The call may return so. -/
def Returned (t : τ) (a : A) (trace : List (Event τ C A E)) : Prop :=
  ∃ c, (O.loose c ∧ Pending t c trace) ∨ Ready F t c a trace

/-- The event may come after the others. -/
def Event.Honest (trace : List (Event τ C A E)) : Event τ C A E → Prop
  | .call t _ => Resting t trace
  | .effect t e => ∃ c, Pending t c trace ∧ F.takes (F.stateOf trace) c = some e
  | .ret t a => Returned F t a trace

inductive Honest : List (Event τ C A E) → Prop where
  | nil : Honest []
  | concat {trace : List (Event τ C A E)} {e : Event τ C A E} (h : Honest trace)
      (he : e.Honest F trace) : Honest (trace ++ [e])

variable {F} {t : τ} {c : C} {a : A} {trace es : List (Event τ C A E)}

@[simp] lemma Effects.stateOf_concat (F : Effects O E) (trace : List (Event τ C A E))
    (e : Event τ C A E) : F.stateOf (trace ++ [e]) = F.change (F.stateOf trace) e := List.foldl_append

lemma silent_nil (t : τ) : Silent t ([] : List (Event τ C A E)) := fun _ h => by cases h

lemma Silent.append (h : Silent t trace) (he : Silent t es) : Silent t (trace ++ es) :=
  fun e hmem => (List.mem_append.mp hmem).elim (h e) (he e)

lemma silent_singleton {e : Event τ C A E} (h : e.thread ≠ t) : Silent t [e] := by
  intro f hf
  rwa [List.mem_singleton.mp hf]

lemma Resting.append (h : Resting t trace) (he : Silent t es) : Resting t (trace ++ es) := by
  rcases h with h | ⟨pre, a, mid, rfl, hmid⟩
  · exact Or.inl (h.append he)
  · exact Or.inr ⟨pre, a, mid ++ es, by rw [List.append_assoc, List.cons_append], hmid.append he⟩

lemma Pending.append (h : Pending t c trace) (he : Silent t es) : Pending t c (trace ++ es) := by
  obtain ⟨pre, mid, rfl, hmid⟩ := h
  exact ⟨pre, mid ++ es, by rw [List.append_assoc, List.cons_append], hmid.append he⟩

lemma Ready.append (h : Ready F t c a trace) (he : Silent t es) : Ready F t c a (trace ++ es) := by
  obtain ⟨pre, mid, post, rfl, hmid, hanswer, hpost⟩ := h
  refine ⟨pre, mid, post ++ es, by rw [List.append_assoc _ post], hmid, hanswer, ?_⟩
  split at hpost
  · exact hpost.append he
  · obtain ⟨rest, rfl, hrest⟩ := hpost
    exact ⟨rest ++ es, by rw [List.cons_append], hrest.append he⟩

lemma Returned.append (h : Returned F t a trace) (he : Silent t es) :
    Returned F t a (trace ++ es) := by
  obtain ⟨c, ⟨hloose, hc⟩ | hready⟩ := h
  · exact ⟨c, Or.inl ⟨hloose, hc.append he⟩⟩
  · exact ⟨c, Or.inr (hready.append he)⟩

/-- A pending call that changes nothing is ready with the answer of the moment. -/
lemma Pending.ready (h : Pending t c trace) (ha : O.answers (F.stateOf trace) c a)
    (hc : F.takes (F.stateOf trace) c = none) : Ready F t c a trace := by
  obtain ⟨pre, mid, rfl, hmid⟩ := h
  refine ⟨pre, mid, [], by rw [List.append_nil], hmid, ha, ?_⟩
  rw [hc]
  exact silent_nil t

/-- A pending call is ready with the answer of the moment when it makes its change. -/
lemma Pending.ready_effect {e : E} (h : Pending t c trace) (ha : O.answers (F.stateOf trace) c a)
    (hc : F.takes (F.stateOf trace) c = some e) : Ready F t c a (trace ++ [.effect t e]) := by
  obtain ⟨pre, mid, rfl, hmid⟩ := h
  refine ⟨pre, mid, [.effect t e], rfl, hmid, ha, ?_⟩
  rw [hc]
  exact ⟨[], rfl, silent_nil t⟩

/-! ## The last event of a thread -/

section Last

variable {e e' : Event τ C A E} {pre pre' mid mid' : List (Event τ C A E)}

lemma Silent.not_mem (h : Silent t trace) (he : e.thread = t) : e ∉ trace := fun hmem => h e hmem he

/-- A trace has only one last event of a thread. -/
lemma last_unique (h : pre ++ e :: mid = pre' ++ e' :: mid') (he : e.thread = t)
    (he' : e'.thread = t) (hmid : Silent t mid) (hmid' : Silent t mid') :
    pre = pre' ∧ e = e' ∧ mid = mid' := by
  rcases List.append_eq_append_iff.mp h with ⟨as, rfl, heq⟩ | ⟨as, rfl, heq⟩
  · cases as with
    | nil =>
      obtain ⟨rfl, rfl⟩ := List.cons.inj heq
      exact ⟨(List.append_nil pre).symm, rfl, rfl⟩
    | cons b as =>
      obtain ⟨-, rfl⟩ := List.cons.inj heq
      exact absurd (List.mem_append_right as List.mem_cons_self) (hmid.not_mem he')
  · cases as with
    | nil =>
      obtain ⟨rfl, rfl⟩ := List.cons.inj heq
      exact ⟨List.append_nil pre', rfl, rfl⟩
    | cons b as =>
      obtain ⟨-, rfl⟩ := List.cons.inj heq
      exact absurd (List.mem_append_right as List.mem_cons_self) (hmid'.not_mem he)

lemma Resting.not_last (h : Resting t (pre ++ e :: mid)) (he : e.thread = t) (hmid : Silent t mid)
    (hne : ∀ a, e ≠ .ret t a) : False := by
  rcases h with h | ⟨pre', a, mid', heq, hmid'⟩
  · exact h.not_mem he (List.mem_append_right pre List.mem_cons_self)
  · exact hne a (last_unique heq he rfl hmid hmid').2.1

end Last

/-- What the trace tells of a thread. -/
inductive Status.Told (F : Effects O E) (t : τ) (trace : List (Event τ C A E)) :
    Status C A → Prop where
  | idle (h : Resting t trace) : Told F t trace .idle
  | pending {c : C} (h : Pending t c trace) : Told F t trace (.pending c)
  | finished {c : C} {a : A} {e : E} {pre mid rest : List (Event τ C A E)}
      (htrace : trace = (pre ++ .call t c :: mid) ++ .effect t e :: rest) (hmid : Silent t mid)
      (hrest : Silent t rest) (ha : O.answers (F.stateOf (pre ++ .call t c :: mid)) c a) :
      Told F t trace (.finished c a)

namespace Status.Told

variable {s : Status C A}

lemma append (h : s.Told F t trace) (he : Silent t es) : s.Told F t (trace ++ es) := by
  cases h with
  | idle h => exact .idle (h.append he)
  | pending h => exact .pending (h.append he)
  | @finished c a e pre mid rest htrace hmid hrest ha =>
    refine .finished (e := e) ?_ hmid (hrest.append he) ha
    rw [htrace, List.append_assoc, List.cons_append]

lemma eq_idle (h : s.Told F t trace) (hrest : Resting t trace) : s = .idle := by
  cases h with
  | idle _ => rfl
  | pending h =>
    obtain ⟨pre, mid, rfl, hmid⟩ := h
    exact (hrest.not_last rfl hmid (fun _ heq => by cases heq)).elim
  | finished htrace hmid hsilent ha =>
    subst htrace
    exact (hrest.not_last rfl hsilent (fun _ heq => by cases heq)).elim

lemma eq_pending (h : s.Told F t trace) (hc : Pending t c trace) : s = .pending c := by
  obtain ⟨pre, mid, rfl, hmid⟩ := hc
  cases h with
  | idle h => exact (h.not_last rfl hmid (fun _ heq => by cases heq)).elim
  | pending h =>
    obtain ⟨pre', mid', heq, hmid'⟩ := h
    obtain ⟨-, heq, -⟩ := last_unique heq rfl rfl hmid hmid'
    cases heq
    rfl
  | finished htrace _ hrest _ =>
    obtain ⟨-, heq, -⟩ := last_unique htrace rfl rfl hmid hrest
    cases heq

end Status.Told

/-- A call that is ready to return has had its moment, or may still be given one. -/
lemma Ready.moment {s : Status C A} (h : Ready F t c a trace) (hs : s.Told F t trace) :
    s = .finished c a ∨ s = .pending c ∧ ∃ pre es, trace = pre ++ es ∧ Silent t es ∧
      F.takes (F.stateOf pre) c = none ∧ O.answers (F.stateOf pre) c a := by
  obtain ⟨pre, mid, post, rfl, hmid, hanswer, hpost⟩ := h
  split at hpost
  · rename_i hnone
    have hc : Pending t c ((pre ++ .call t c :: mid) ++ post) :=
      ⟨pre, mid ++ post, by rw [List.append_assoc]; rfl, hmid.append hpost⟩
    exact Or.inr ⟨hs.eq_pending hc, _, post, rfl, hpost, hnone, hanswer⟩
  · obtain ⟨rest, rfl, hrest⟩ := hpost
    refine Or.inl ?_
    cases hs with
    | idle h => exact (h.not_last rfl hrest (fun _ heq => by cases heq)).elim
    | pending h =>
      obtain ⟨pre', mid', heq, hmid'⟩ := h
      obtain ⟨-, heq, -⟩ := last_unique heq rfl rfl hrest hmid'
      cases heq
    | finished heq hmid' hrest' ha =>
      obtain ⟨heq, -, -⟩ := last_unique heq rfl rfl hrest hrest'
      obtain ⟨rfl, hcall, rfl⟩ := last_unique heq rfl rfl hmid hmid'
      cases hcall
      rw [F.answers_unique hanswer ha]

/-! ## Runs of the atomic object along a trace -/

variable [DecidableEq τ]

/-- What an event makes of its thread, when the object is in this state. -/
inductive Status.Moves (F : Effects O E) (s : σ) : Status C A → Event τ C A E → Status C A → Prop where
  | call {t : τ} (c : C) : Moves F s .idle (.call t c) (.pending c)
  | effect {t : τ} {c : C} {a : A} {e : E} (he : F.takes s c = some e) (ha : O.answers s c a) :
    Moves F s (.pending c) (.effect t e) (.finished c a)
  | ret {t : τ} {c : C} {a : A} : Moves F s (.finished c a) (.ret t a) .idle
  | loose {t : τ} {c : C} (a : A) (hc : O.loose c) : Moves F s (.pending c) (.ret t a) .idle

/-- What the threads do at the atomic object after the trace. A change of the trace is the moment of
its call; other calls may have any moment. -/
inductive Along (F : Effects O E) : List (Event τ C A E) → (τ → Status C A) → Prop where
  | start : Along F [] (fun _ => .idle)
  | event {trace : List (Event τ C A E)} {st : τ → Status C A} {e : Event τ C A E} {s : Status C A}
      (h : Along F trace st) (he : (st e.thread).Moves F (F.stateOf trace) e s) :
      Along F (trace ++ [e]) (Function.update st e.thread s)
  | read {trace : List (Event τ C A E)} {st : τ → Status C A} {t : τ} {c : C} {a : A}
      (h : Along F trace st) (hst : st t = .pending c) (hc : F.takes (F.stateOf trace) c = none)
      (ha : O.answers (F.stateOf trace) c a) : Along F trace (Function.update st t (.finished c a))

namespace Along

variable {st : τ → Status C A} (h : Along F trace st)
include h

/-- These are runs of the atomic object. -/
lemma shows : O.Shows (visible trace) ⟨F.stateOf trace, st⟩ := by
  induction h with
  | start => exact .start
  | @event trace st e s _ he ih =>
    rw [visible_concat, F.stateOf_concat]
    generalize hst : st e.thread = s₀ at he
    cases he with
    | call c => exact ih.step (.call c hst)
    | effect he ha =>
      have hstep := ih.step (.commit hst ha)
      rw [F.after_of_some he] at hstep
      exact hstep
    | ret => exact ih.step (.ret hst)
    | loose a hc => exact ih.step (.loose a hst hc)
  | read _ hst hc ha ih =>
    have hstep := ih.step (.commit hst ha)
    rw [F.after_of_none hc, Option.toList_none, List.append_nil] at hstep
    exact hstep

/-- A call that changes nothing may be given any moment at which its answer is right. -/
lemma insert {pre : List (Event τ C A E)} (htrace : trace = pre ++ es) (hes : Silent t es)
    (hst : st t = .pending c) (hc : F.takes (F.stateOf pre) c = none)
    (ha : O.answers (F.stateOf pre) c a) : Along F trace (Function.update st t (.finished c a)) := by
  induction h generalizing es with
  | start => cases hst
  | @event trace st e s h he ih =>
    rcases List.eq_nil_or_concat' es with rfl | ⟨fs, f, rfl⟩
    · rw [List.append_nil] at htrace
      subst htrace
      exact (h.event he).read hst hc ha
    rw [← List.append_assoc] at htrace
    obtain ⟨rfl, hlast⟩ := List.append_inj' htrace rfl
    obtain rfl := List.singleton_inj.mp hlast
    have hne : e.thread ≠ t := hes e (List.mem_append_right fs List.mem_cons_self)
    rw [Function.update_of_ne hne.symm] at hst
    have hread := ih rfl (fun f hf => hes f (List.mem_append_left _ hf)) hst
    rw [Function.update_comm hne]
    refine hread.event ?_
    rwa [Function.update_of_ne hne]
  | @read trace st u c' a' h hst' hc' ha' ih =>
    have hne : u ≠ t := by
      rintro rfl
      rw [Function.update_self] at hst
      cases hst
    rw [Function.update_of_ne hne.symm] at hst
    have hread := ih htrace hes hst
    rw [Function.update_comm hne]
    exact hread.read (by rwa [Function.update_of_ne hne]) hc' ha'

end Along

namespace Honest

/-- An honest trace is a trace of the atomic object. -/
lemma along (h : Honest F trace) : ∃ st, Along F trace st ∧ ∀ t, (st t).Told F t trace := by
  induction h with
  | nil => exact ⟨_, .start, fun t => .idle (Or.inl (silent_nil t))⟩
  | @concat trace e _ he ih =>
    obtain ⟨st, halong, htold⟩ := ih
    have hnext : ∀ {st' : τ → Status C A} {s s' : Status C A}, Along F trace st' →
        (∀ t, t ≠ e.thread → st' t = st t) → st' e.thread = s → s.Moves F (F.stateOf trace) e s' →
        s'.Told F e.thread (trace ++ [e]) →
        ∃ st, Along F (trace ++ [e]) st ∧ ∀ t, (st t).Told F t (trace ++ [e]) := by
      intro st' s s' halong' hsame hs hmoves htold'
      refine ⟨_, halong'.event (hs ▸ hmoves), fun t => ?_⟩
      by_cases ht : t = e.thread
      · subst ht
        rwa [Function.update_self]
      · rw [Function.update_of_ne ht, hsame t ht]
        exact (htold t).append (silent_singleton (Ne.symm ht))
    cases e with
    | call t c =>
      exact hnext halong (fun _ _ => rfl) ((htold t).eq_idle he) (.call c)
        (.pending ⟨trace, [], rfl, silent_nil t⟩)
    | effect t e =>
      obtain ⟨c, hc, htakes⟩ := he
      have hst := (htold t).eq_pending hc
      obtain ⟨a, ha⟩ := F.exists_answer htakes
      obtain ⟨pre, mid, rfl, hmid⟩ := hc
      exact hnext halong (fun _ _ => rfl) hst (.effect htakes ha)
        (.finished rfl hmid (silent_nil t) ha)
    | ret t a =>
      obtain ⟨c, hreturned⟩ := he
      have hrest : Status.idle.Told F t (trace ++ [.ret t a]) :=
        .idle (Or.inr ⟨trace, a, [], rfl, silent_nil t⟩)
      rcases hreturned with ⟨hloose, hc⟩ | hready
      · exact hnext halong (fun _ _ => rfl) ((htold t).eq_pending hc) (.loose a hloose) hrest
      · rcases hready.moment (htold t) with hst | ⟨hst, pre, es, htrace, hes, hnone, ha⟩
        · exact hnext halong (fun _ _ => rfl) hst .ret hrest
        · -- the call is given its moment only now
          exact hnext (halong.insert htrace hes hst hnone ha)
            (fun u hu => Function.update_of_ne hu _ _) (Function.update_self t _ _) .ret hrest

/-- When all calls have returned, every call has had its moment. -/
lemma shows_idle (h : Honest F trace) (hrest : ∀ t, Resting t trace) :
    O.Shows (visible trace) ⟨F.stateOf trace, fun _ => .idle⟩ := by
  obtain ⟨st, halong, htold⟩ := h.along
  have hidle : st = fun _ => .idle := funext fun t => (htold t).eq_idle (hrest t)
  exact hidle ▸ halong.shows

/-- The calls of an honest trace are linearizable. -/
theorem linearizable (h : Honest F trace) : O.Linearizable trace (F.stateOf trace) := by
  obtain ⟨st, halong, -⟩ := h.along
  exact ⟨_, halong.shows, rfl⟩

end Honest

end Object
end Lib
