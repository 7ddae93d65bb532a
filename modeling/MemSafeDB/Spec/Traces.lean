import Mathlib.Data.List.Infix
import MemSafeDB.Spec.Contents

/-!
# What happens in a run, seen from outside

A trace tells when the calls begin and end and when they change the contents. In an honest trace
every change is one that a pending call makes of the contents at that moment, and every answer was
right at some moment between the beginning and the end of its call.
-/

namespace MemSafeDB
open Lib

variable {τ : Type}

def Contents.apply (m : Contents) : Effect → Contents
  | .insert key payload => Function.update m key (some payload)
  | .remove key => Function.update m key none
  | .update key fn => Function.update m key ((m key).map fn.run)

/-- The change that a call on a single key makes of the contents. -/
def Call.takes (m : Contents) : Call → Option Effect
  | .insert key payload => some (.insert key payload)
  | .remove key => if (m key).isSome then some (.remove key) else none
  | .updateInPlace key fn => if (m key).isSome then some (.update key fn) else none
  | _ => none

lemma Contents.after_of_takes_none {m : Contents} {c : Call} (h : c.takes m = none) :
    m.after c = m := by
  cases c with
  | insert key payload => cases h
  | remove key =>
    rw [Call.takes, ite_eq_right_iff] at h
    have hnone : m key = none := by simpa using fun hs => Option.some_ne_none _ (h hs)
    rw [after, ← hnone, Function.update_eq_self]
  | updateInPlace key fn =>
    rw [Call.takes, ite_eq_right_iff] at h
    have hnone : m key = none := by simpa using fun hs => Option.some_ne_none _ (h hs)
    rw [after, hnone, Option.map_none, ← hnone, Function.update_eq_self]
  | _ => rfl

lemma Contents.after_of_takes {m : Contents} {c : Call} {e : Effect} (h : c.takes m = some e) :
    m.after c = m.apply e := by
  cases c with
  | insert key payload =>
    obtain rfl := Option.some.inj h
    rfl
  | remove key =>
    rw [Call.takes] at h
    split at h
    · obtain rfl := Option.some.inj h
      rfl
    · cases h
  | updateInPlace key fn =>
    rw [Call.takes] at h
    split at h
    · obtain rfl := Option.some.inj h
      rfl
    · cases h
  | _ => cases h

namespace Event

def thread : Event τ → τ
  | .call t _ => t
  | .effect t _ => t
  | .ret t _ => t

/-- The contents after an event. -/
def change (m : Contents) : Event τ → Contents
  | .effect _ e => m.apply e
  | _ => m

end Event

/-- The contents that the events leave. -/
def contentsOf (trace : List (Event τ)) : Contents := trace.foldl Event.change .empty

@[simp] lemma contentsOf_nil : contentsOf ([] : List (Event τ)) = .empty := rfl

lemma contentsOf_append (xs ys : List (Event τ)) :
    contentsOf (xs ++ ys) = ys.foldl Event.change (contentsOf xs) := List.foldl_append

@[simp] lemma contentsOf_concat (xs : List (Event τ)) (e : Event τ) :
    contentsOf (xs ++ [e]) = e.change (contentsOf xs) := contentsOf_append xs [e]

/-- None of the events is of thread `t`. -/
def Silent (t : τ) (es : List (Event τ)) : Prop := ∀ e ∈ es, e.thread ≠ t

lemma silent_nil (t : τ) : Silent t [] := fun _ h => by cases h

lemma Silent.append {t : τ} {es fs : List (Event τ)} (h : Silent t es) (h' : Silent t fs) :
    Silent t (es ++ fs) := by
  intro e he
  exact (List.mem_append.mp he).elim (h e) (h' e)

/-! ## Calls that are running -/

/-- Thread `t` has made no call yet, or the last one has returned. -/
def Resting (t : τ) (trace : List (Event τ)) : Prop :=
  Silent t trace ∨ ∃ pre a mid, trace = pre ++ .ret t a :: mid ∧ Silent t mid

/-- Thread `t` is in the call, which began at the end of `pre`, and has changed nothing so far. -/
structure InCall (t : τ) (c : Call) (pre mid trace : List (Event τ)) : Prop where
  trace : trace = pre ++ .call t c :: mid
  silent : Silent t mid

def Pending (t : τ) (c : Call) (trace : List (Event τ)) : Prop := ∃ pre mid, InCall t c pre mid trace

/-- The answer was right at some moment since the call began, when the call made its change. -/
def Ready (t : τ) (c : Call) (a : Answer) (trace : List (Event τ)) : Prop :=
  ∃ pre mid post, trace = (pre ++ .call t c :: mid) ++ post ∧ Silent t mid ∧
    (contentsOf (pre ++ .call t c :: mid)).Answers c a ∧
    match c.takes (contentsOf (pre ++ .call t c :: mid)) with
    | none => Silent t post
    | some e => ∃ rest, post = .effect t e :: rest ∧ Silent t rest

/-- The key was stored at some moment of the scan, with this payload. -/
def Sometime (pre mid : List (Event τ)) (k v : Key) : Prop :=
  ∃ mid₁ mid₂, mid = mid₁ ++ mid₂ ∧ contentsOf (pre ++ mid₁) k = some v

/-- The key was stored at every moment of the scan. -/
def Throughout (pre mid : List (Event τ)) (k : Key) : Prop :=
  ∀ mid₁ mid₂, mid = mid₁ ++ mid₂ → ∃ v, contentsOf (pre ++ mid₁) k = some v

/-- The entries of a scan: in the order `before`, with keys in the range, each of them stored at some
moment of the scan. -/
structure Gathered (before : Key → Key → Prop) (range : Key → Prop) (pre mid : List (Event τ))
    (es : List (Key × Key)) : Prop where
  ordered : es.Pairwise (fun e f => before e.1 f.1)
  inRange : ∀ e ∈ es, range e.1
  seen : ∀ e ∈ es, Sometime pre mid e.1 e.2

/-- A key in the range that was stored all the time is among the entries, or behind all of them. -/
def Unskipped (before : Key → Key → Prop) (range : Key → Prop) (pre mid : List (Event τ))
    (es : List (Key × Key)) : Prop :=
  ∀ k, range k → Throughout pre mid k → (∃ v, (k, v) ∈ es) ∨ ∀ e ∈ es, before e.1 k

/-- The entries include all keys in the range that were stored all the time. -/
def Complete (range : Key → Prop) (pre mid : List (Event τ)) (es : List (Key × Key)) : Prop :=
  ∀ k, range k → Throughout pre mid k → ∃ v, (k, v) ∈ es

/-- A scan from the key on. It is complete, if the callback does not stop it. -/
structure ScannedAsc (key : Key) (fn : List (Key × Key) → Bool) (pre mid : List (Event τ))
    (es : List (Key × Key)) : Prop where
  gathered : Gathered (· < ·) (key ≤ ·) pre mid es
  unskipped : Unskipped (· < ·) (key ≤ ·) pre mid es
  complete : (∀ acc, fn acc = true) → Complete (key ≤ ·) pre mid es

/-- A scan down from the key, which begins with an entry behind the key, if it tells the callback
that there is no exact match. -/
structure ScannedDesc (key : Key) (fn : Bool → List (Key × Key) → Bool) (pre mid : List (Event τ))
    (exactMatch : Bool) (bound : Key) (es : List (Key × Key)) : Prop where
  gathered : Gathered (· > ·) (fun k => k ≤ key ∨ k = bound) pre mid es
  bound : if exactMatch then bound = key else key < bound ∧ es.head?.map Prod.fst = some bound
  unskipped : Unskipped (· > ·) (· ≤ key) pre mid es
  complete : (∀ acc, fn exactMatch acc = true) → Complete (· ≤ key) pre mid es

/-- What a call may answer. -/
def Returned (t : τ) (a : Answer) : Call → List (Event τ) → Prop
  | .scanAsc key fn, trace => ∃ pre mid es, InCall t (.scanAsc key fn) pre mid trace ∧ a = .scan es ∧
      ScannedAsc key fn (pre ++ [.call t (.scanAsc key fn)]) mid es
  | .scanDesc key fn, trace => ∃ pre mid es exactMatch bound, InCall t (.scanDesc key fn) pre mid trace ∧
      a = .scan es ∧
      ScannedDesc key fn (pre ++ [.call t (.scanDesc key fn)]) mid exactMatch bound es
  | c, trace => Ready t c a trace

/-- The event may come after the others. -/
def Event.Honest (trace : List (Event τ)) : Event τ → Prop
  | .call t _ => Resting t trace
  | .effect t e => ∃ c, Pending t c trace ∧ c.takes (contentsOf trace) = some e
  | .ret t a => ∃ c, Returned t a c trace

inductive Honest : List (Event τ) → Prop where
  | nil : Honest []
  | concat {trace : List (Event τ)} {e : Event τ} (h : Honest trace) (he : e.Honest trace) :
    Honest (trace ++ [e])

lemma Honest.concat_iff {trace : List (Event τ)} {e : Event τ} :
    Honest (trace ++ [e]) ↔ Honest trace ∧ e.Honest trace := by
  refine ⟨fun h => ?_, fun h => .concat h.1 h.2⟩
  generalize hl : trace ++ [e] = l at h
  cases h with
  | nil => simp at hl
  | concat h he =>
    obtain ⟨rfl, hlast⟩ := List.append_inj' hl rfl
    obtain rfl := List.singleton_inj.mp hlast
    exact ⟨h, he⟩

lemma Resting.append {t : τ} {trace es : List (Event τ)} (h : Resting t trace)
    (he : Silent t es) : Resting t (trace ++ es) := by
  rcases h with h | ⟨pre, a, mid, rfl, hmid⟩
  · exact Or.inl (h.append he)
  · exact Or.inr ⟨pre, a, mid ++ es, by rw [List.append_assoc, List.cons_append], hmid.append he⟩

lemma InCall.append {t : τ} {c : Call} {pre mid trace es : List (Event τ)}
    (h : InCall t c pre mid trace) (he : Silent t es) : InCall t c pre (mid ++ es) (trace ++ es) :=
  ⟨by rw [h.trace, List.append_assoc, List.cons_append], h.silent.append he⟩

lemma InCall.contents {t : τ} {c : Call} {pre mid trace : List (Event τ)}
    (h : InCall t c pre mid trace) : contentsOf (pre ++ [.call t c] ++ mid) = contentsOf trace := by
  rw [h.trace, List.append_assoc]
  rfl

lemma Pending.append {t : τ} {c : Call} {trace es : List (Event τ)} (h : Pending t c trace)
    (he : Silent t es) : Pending t c (trace ++ es) := by
  obtain ⟨pre, mid, hin⟩ := h
  exact ⟨pre, mid ++ es, hin.append he⟩

lemma Ready.append {t : τ} {c : Call} {a : Answer} {trace es : List (Event τ)}
    (h : Ready t c a trace) (he : Silent t es) : Ready t c a (trace ++ es) := by
  obtain ⟨pre, mid, post, rfl, hmid, hanswer, hpost⟩ := h
  refine ⟨pre, mid, post ++ es, by rw [List.append_assoc _ post], hmid, hanswer, ?_⟩
  split at hpost
  · exact hpost.append he
  · obtain ⟨rest, rfl, hrest⟩ := hpost
    exact ⟨rest ++ es, by rw [List.cons_append], hrest.append he⟩

/-- A pending call that changes nothing is ready with the answer of the moment. -/
lemma Pending.ready {t : τ} {c : Call} {a : Answer} {trace : List (Event τ)}
    (h : Pending t c trace) (ha : (contentsOf trace).Answers c a)
    (hc : c.takes (contentsOf trace) = none) : Ready t c a trace := by
  obtain ⟨pre, mid, rfl, hmid⟩ := h
  refine ⟨pre, mid, [], by rw [List.append_nil], hmid, ha, ?_⟩
  rw [hc]
  exact silent_nil t

/-- A pending call is ready with the answer of the moment when it makes its change. -/
lemma Pending.ready_effect {t : τ} {c : Call} {a : Answer} {e : Effect} {trace : List (Event τ)}
    (h : Pending t c trace) (ha : (contentsOf trace).Answers c a)
    (hc : c.takes (contentsOf trace) = some e) : Ready t c a (trace ++ [.effect t e]) := by
  obtain ⟨pre, mid, rfl, hmid⟩ := h
  refine ⟨pre, mid, [.effect t e], rfl, hmid, ha, ?_⟩
  rw [hc]
  exact ⟨[], rfl, silent_nil t⟩

/-! ## Scans -/

section Scans

variable {pre mid es : List (Event τ)} {key : Key} {before : Key → Key → Prop}
  {range todo todo' : Key → Prop} {acc : List (Key × Key)} {k v : Key}

lemma Sometime.append (h : Sometime pre mid k v) (es : List (Event τ)) :
    Sometime pre (mid ++ es) k v := by
  obtain ⟨mid₁, mid₂, rfl, hk⟩ := h
  exact ⟨mid₁, mid₂ ++ es, List.append_assoc _ _ _, hk⟩

lemma Sometime.now (h : contentsOf (pre ++ mid) k = some v) : Sometime pre mid k v :=
  ⟨mid, [], (List.append_nil mid).symm, h⟩

lemma Throughout.of_append (h : Throughout pre (mid ++ es) k) : Throughout pre mid k := by
  rintro mid₁ mid₂ rfl
  exact h mid₁ (mid₂ ++ es) (List.append_assoc _ _ _)

lemma Throughout.now (h : Throughout pre mid k) : ∃ v, contentsOf (pre ++ mid) k = some v :=
  h mid [] (List.append_nil mid).symm

lemma Gathered.append (h : Gathered before range pre mid acc) (es : List (Event τ)) :
    Gathered before range pre (mid ++ es) acc :=
  ⟨h.ordered, h.inRange, fun e he => (h.seen e he).append es⟩

lemma Unskipped.append (h : Unskipped before range pre mid acc) (es : List (Event τ)) :
    Unskipped before range pre (mid ++ es) acc := fun k hk hthrough => h k hk hthrough.of_append

lemma Complete.append (h : Complete range pre mid acc) (es : List (Event τ)) :
    Complete range pre (mid ++ es) acc := fun k hk hthrough => h k hk hthrough.of_append

lemma Returned.append {t : τ} {a : Answer} {c : Call} {trace : List (Event τ)}
    (h : Returned t a c trace) (he : Silent t es) : Returned t a c (trace ++ es) := by
  cases c with
  | scanAsc key fn =>
    obtain ⟨pre, mid, acc, hin, rfl, hscan⟩ := h
    exact ⟨pre, mid ++ es, acc, hin.append he, rfl, hscan.gathered.append es,
      hscan.unskipped.append es, fun hfn => (hscan.complete hfn).append es⟩
  | scanDesc key fn =>
    obtain ⟨pre, mid, acc, exactMatch, bound, hin, rfl, hscan⟩ := h
    exact ⟨pre, mid ++ es, acc, exactMatch, bound, hin.append he, rfl, hscan.gathered.append es,
      hscan.bound, hscan.unskipped.append es, fun hfn => (hscan.complete hfn).append es⟩
  | _ => exact Ready.append h he

/-- The entries that a scan has gathered so far, and the keys that are ahead of it. -/
structure Sweep (before : Key → Key → Prop) (range todo : Key → Prop) (pre mid : List (Event τ))
    (acc : List (Key × Key)) : Prop extends Gathered before range pre mid acc where
  ahead : ∀ e ∈ acc, ∀ k, todo k → before e.1 k
  rest : ∀ k, range k → Throughout pre mid k → todo k ∨ ∃ v, (k, v) ∈ acc

namespace Sweep

variable (h : Sweep before range todo pre mid acc)
include h

lemma append (es : List (Event τ)) : Sweep before range todo pre (mid ++ es) acc :=
  ⟨h.toGathered.append es, h.ahead, fun k hk hthrough => h.rest k hk hthrough.of_append⟩

/-- Keys that are not stored may be passed. -/
lemma pass (hsub : ∀ k, todo' k → todo k)
    (hkeep : ∀ k v, todo k → contentsOf (pre ++ mid) k = some v → todo' k) :
    Sweep before range todo' pre mid acc where
  toGathered := h.toGathered
  ahead := fun e he k hk => h.ahead e he k (hsub k hk)
  rest := by
    intro k hk hthrough
    obtain ⟨v, hv⟩ := hthrough.now
    exact (h.rest k hk hthrough).imp_left (fun htodo => hkeep k v htodo hv)

/-- The next entry is reported. -/
lemma report (hk : todo k) (hrange : range k) (hv : contentsOf (pre ++ mid) k = some v)
    (hsub : ∀ l, todo' l → todo l ∧ before k l)
    (hkeep : ∀ l w, todo l → contentsOf (pre ++ mid) l = some w → l = k ∨ todo' l) :
    Sweep before range todo' pre mid (acc ++ [(k, v)]) where
  ordered := by
    refine List.pairwise_append.mpr ⟨h.ordered, List.pairwise_singleton _ _, ?_⟩
    intro e he f hf
    rw [List.mem_singleton.mp hf]
    exact h.ahead e he k hk
  inRange := by
    intro e he
    rcases List.mem_append.mp he with he | he
    · exact h.inRange e he
    · rw [List.mem_singleton.mp he]
      exact hrange
  seen := by
    intro e he
    rcases List.mem_append.mp he with he | he
    · exact h.seen e he
    · rw [List.mem_singleton.mp he]
      exact .now hv
  ahead := by
    intro e he l hl
    rcases List.mem_append.mp he with he | he
    · exact h.ahead e he l (hsub l hl).1
    · rw [List.mem_singleton.mp he]
      exact (hsub l hl).2
  rest := by
    intro l hl hthrough
    obtain ⟨w, hw⟩ := hthrough.now
    rcases h.rest l hl hthrough with htodo | ⟨u, hu⟩
    · rcases hkeep l w htodo hw with rfl | htodo'
      · exact Or.inr ⟨v, by simp⟩
      · exact Or.inl htodo'
    · exact Or.inr ⟨u, List.mem_append_left _ hu⟩

/-- What has not been reported is ahead. -/
lemma unskipped : Unskipped before range pre mid acc :=
  fun k hk hthrough => (h.rest k hk hthrough).symm.imp_right (fun htodo e he => h.ahead e he k htodo)

/-- Nothing is ahead. -/
lemma complete (hnone : ∀ k v, todo k → contentsOf (pre ++ mid) k ≠ some v) :
    Complete range pre mid acc := by
  intro k hk hthrough
  obtain ⟨v, hv⟩ := hthrough.now
  exact (h.rest k hk hthrough).resolve_left (fun htodo => hnone k v htodo hv)

end Sweep

lemma sweep_nil : Sweep before range range pre mid [] where
  ordered := .nil
  inRange := fun e he => by cases he
  seen := fun e he => by cases he
  ahead := fun e he => by cases he
  rest := fun _ hk _ => Or.inl hk

end Scans

end MemSafeDB
