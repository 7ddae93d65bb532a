import MemSafeDB.Lib.Monitor

/-!
# Runs with a history

A run of many threads together with the list of what they have done so far. A condition tells
which actions may come next; it can look at all that was done before.
-/

namespace Lib

variable {S : Signature} {μ ε σ τ χ : Type}

/-- An operation of a thread and the answer to it. -/
structure Action (S : Signature) (τ : Type) where
  thread : τ
  op : S.Op
  answer : S.Res op

/-- A configuration and the actions that led to it, the latest one first. -/
structure History (S : Signature) (ε σ τ : Type) where
  past : List (Action S τ)
  cfg : Config S ε σ τ

variable [DecidableEq τ] {exec : Exec S σ τ χ} {allowed : List (Action S τ) → Action S τ → Prop}

namespace History

/-- One thread performs one operation, and the condition allows it. -/
inductive Step (exec : Exec S σ τ χ) (allowed : List (Action S τ) → Action S τ → Prop) :
    History S ε σ τ → History S ε σ τ → Prop where
  | mk {x : History S ε σ τ} {t : τ} {c : χ} {o : S.Op} {k : S.Res o → Program S ε Unit}
      {r : S.Res o} {s' : σ} (hprog : x.cfg.prog t = .step o k)
      (hexec : exec t c o x.cfg.shared = some (r, s')) (hallowed : allowed x.past ⟨t, o, r⟩) :
      Step exec allowed x ⟨⟨t, o, r⟩ :: x.past, ⟨s', Function.update x.cfg.prog t (k r)⟩⟩

/-- The histories that any number of allowed steps lead to. -/
def Leads (exec : Exec S σ τ χ) (allowed : List (Action S τ) → Action S τ → Prop) :
    History S ε σ τ → History S ε σ τ → Prop :=
  Relation.ReflTransGen (Step exec allowed)

/-- The configuration before anything was done. -/
def start (cfg : Config S ε σ τ) : History S ε σ τ := ⟨[], cfg⟩

lemma Leads.refl (x : History S ε σ τ) : Leads exec allowed x x := Relation.ReflTransGen.refl

lemma Leads.trans {x y z : History S ε σ τ} (h : Leads exec allowed x y)
    (h' : Leads exec allowed y z) : Leads exec allowed x z :=
  Relation.ReflTransGen.trans h h'

lemma Leads.head {x y z : History S ε σ τ} (h : Step exec allowed x y)
    (h' : Leads exec allowed y z) : Leads exec allowed x z :=
  Relation.ReflTransGen.head h h'

lemma Leads.single {x y : History S ε σ τ} (h : Step exec allowed x y) : Leads exec allowed x y :=
  Relation.ReflTransGen.single h

lemma Leads.invariant {x y : History S ε σ τ} {P : History S ε σ τ → Prop}
    (h : Leads exec allowed x y) (hx : P x) (hstep : ∀ a b, P a → Step exec allowed a b → P b) :
    P y := by
  induction h with
  | refl => exact hx
  | tail _ hs ih => exact hstep _ _ ih hs

/-- Runs the threads in the given order, with the given choices. -/
def play (exec : Exec S σ τ χ) : List (τ × χ) → History S ε σ τ → Option (History S ε σ τ)
  | [], x => some x
  | (t, c) :: rest, x =>
    match x.cfg.prog t with
    | .step o k =>
      (exec t c o x.cfg.shared).bind fun rs =>
        play exec rest ⟨⟨t, o, rs.1⟩ :: x.past, ⟨rs.2, Function.update x.cfg.prog t (k rs.1)⟩⟩
    | _ => none

/-- Without a condition, what is played is a run. -/
lemma leads_of_play {order : List (τ × χ)} {x y : History S ε σ τ}
    (h : play exec order x = some y) : Leads exec (fun _ _ => True) x y := by
  induction order generalizing x with
  | nil =>
    obtain rfl := Option.some.inj h
    exact Leads.refl x
  | cons next rest ih =>
    rw [play] at h
    split at h
    · rename_i o k hprog
      obtain ⟨⟨r, s'⟩, hexec, hrest⟩ := Option.bind_eq_some_iff.mp h
      exact Leads.head (Step.mk hprog hexec trivial) (ih hrest)
    · cases h

/-- Runs the threads in the given order, as long as what they do is allowed. -/
def playAllowed (exec : Exec S σ τ χ) (allowed : List (Action S τ) → Action S τ → Prop)
    [∀ past a, Decidable (allowed past a)] :
    List (τ × χ) → History S ε σ τ → Option (History S ε σ τ)
  | [], x => some x
  | (t, c) :: rest, x =>
    match x.cfg.prog t with
    | .step o k =>
      (exec t c o x.cfg.shared).bind fun rs =>
        if allowed x.past ⟨t, o, rs.1⟩ then
          playAllowed exec allowed rest
            ⟨⟨t, o, rs.1⟩ :: x.past, ⟨rs.2, Function.update x.cfg.prog t (k rs.1)⟩⟩
        else none
    | _ => none

lemma leads_of_playAllowed [∀ past a, Decidable (allowed past a)] {order : List (τ × χ)}
    {x y : History S ε σ τ} (h : playAllowed exec allowed order x = some y) :
    Leads exec allowed x y := by
  induction order generalizing x with
  | nil =>
    obtain rfl := Option.some.inj h
    exact Leads.refl x
  | cons next rest ih =>
    rw [playAllowed] at h
    split at h
    · rename_i o k hprog
      obtain ⟨⟨r, s'⟩, hexec, hrest⟩ := Option.bind_eq_some_iff.mp h
      rw [Option.ite_none_right_eq_some] at hrest
      exact Leads.head (Step.mk hprog hexec hrest.1) (ih hrest.2)
    · cases h

/-! ## Monitors -/

/-- The execution gives the answers that the monitors of the threads expect, as long as the
actions are allowed. -/
def Reflects (exec : Exec S σ τ χ) (M : Monitor S μ)
    (allowed : List (Action S τ) → Action S τ → Prop)
    (R : List (Action S τ) → (τ → μ) → σ → Prop) : Prop :=
  ∀ past ms s t c o r s', R past ms s → M.legal (ms t) o → exec t c o s = some (r, s') →
    allowed past ⟨t, o, r⟩ → M.answer (ms t) o r ∧
      R (⟨t, o, r⟩ :: past) (Function.update ms t (M.next (ms t) o r)) s'

/-- The threads obey their monitors, which stand in the relation to the history. -/
def Monitored (M : Monitor S μ) (R : List (Action S τ) → (τ → μ) → σ → Prop)
    (x : History S ε σ τ) : Prop :=
  ∃ ms, R x.past ms x.cfg.shared ∧
    ∀ t, (x.cfg.prog t).Obeys M (fun _ _ => True) (fun _ _ => True) (ms t)

variable {M : Monitor S μ} {R : List (Action S τ) → (τ → μ) → σ → Prop} {x y : History S ε σ τ}

lemma Monitored.step (hR : Reflects exec M allowed R) (h : Monitored M R x)
    (hstep : Step exec allowed x y) : Monitored M R y := by
  obtain ⟨ms, hms, hprog⟩ := h
  obtain ⟨hp, hexec, hallowed⟩ := hstep
  rename_i t c o k r s'
  have ht := hprog t
  rw [hp] at ht
  obtain ⟨hanswer, hs'⟩ := hR x.past ms x.cfg.shared t c o r s' hms ht.1 hexec hallowed
  refine ⟨_, hs', fun u => ?_⟩
  by_cases hu : u = t
  · subst hu
    simpa using ht.2 r hanswer
  · simpa [Function.update_of_ne hu] using hprog u

/-- Threads that obey their monitors do so in every history that they lead to. -/
theorem Monitored.leads (hR : Reflects exec M allowed R) (h : Monitored M R x)
    (hleads : Leads exec allowed x y) : Monitored M R y :=
  hleads.invariant h (fun _ _ ha hstep => ha.step hR hstep)

/-- A second relation may rest on the first one. -/
lemma Reflects.and {R' : List (Action S τ) → (τ → μ) → σ → Prop} (hR : Reflects exec M allowed R)
    (hR' : ∀ past ms s t c o r s', R past ms s → R' past ms s → M.legal (ms t) o →
      exec t c o s = some (r, s') →
      R (⟨t, o, r⟩ :: past) (Function.update ms t (M.next (ms t) o r)) s' →
      R' (⟨t, o, r⟩ :: past) (Function.update ms t (M.next (ms t) o r)) s') :
    Reflects exec M allowed (fun past ms s => R past ms s ∧ R' past ms s) := by
  intro past ms s t c o r s' h hlegal hexec hallowed
  obtain ⟨hanswer, hnext⟩ := hR past ms s t c o r s' h.1 hlegal hexec hallowed
  exact ⟨hanswer, hnext, hR' past ms s t c o r s' h.1 h.2 hlegal hexec hnext⟩

omit [DecidableEq τ] in
/-- The next action of a thread is legal. -/
lemma Monitored.legal (h : Monitored M R x) {t : τ} {o : S.Op} {k : S.Res o → Program S ε Unit}
    (hprog : x.cfg.prog t = .step o k) : ∃ ms, R x.past ms x.cfg.shared ∧ M.legal (ms t) o := by
  obtain ⟨ms, hms, hobeys⟩ := h
  have ht := hobeys t
  rw [hprog] at ht
  exact ⟨ms, hms, ht.1⟩

end History

end Lib
