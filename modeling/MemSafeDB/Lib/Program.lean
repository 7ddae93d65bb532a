import Mathlib.Logic.Function.Basic
import Mathlib.Logic.Relation
import Mathlib.Tactic.Common

/-!
# Programs over atomic operations

A program is a tree of atomic operations that ends in a value or in an exception. It is
given a meaning by a function that executes one operation of one thread on a shared state:
`eval` runs one program alone, and `Step` interleaves the programs of many threads, one
operation at a time. An operation that is not enabled blocks.
-/

namespace Lib

/-- Atomic operations and the type of the answer each of them gives. -/
structure Signature where
  Op : Type
  Res : Op → Type

inductive Program (S : Signature) (ε α : Type) where
  | ret (a : α)
  | throw (e : ε)
  | step (o : S.Op) (k : S.Res o → Program S ε α)

namespace Program

variable {S S' : Signature} {ε ε' α β γ : Type}

def bind : Program S ε α → (α → Program S ε β) → Program S ε β
  | ret a, f => f a
  | throw e, _ => throw e
  | step o k, f => step o (fun r => bind (k r) f)

instance : Monad (Program S ε) where
  pure := ret
  bind := bind

/-- A single operation. -/
def op (o : S.Op) : Program S ε (S.Res o) := step o ret

/-- Runs `h` on the exception, if the program ends in one. -/
def tryCatch : Program S ε α → (ε → Program S ε' α) → Program S ε' α
  | ret a, _ => ret a
  | throw e, h => h e
  | step o k, h => step o (fun r => tryCatch (k r) h)

/-- Runs `cleanup` when the program ends in an exception and passes the exception on. -/
def onThrow (p : Program S ε α) (cleanup : Program S ε Unit) : Program S ε α :=
  tryCatch p (fun e => cleanup.bind (fun _ => throw e))

/-- Replaces every operation by a program over another signature. -/
def translate (f : (o : S.Op) → Program S' ε (S.Res o)) : Program S ε α → Program S' ε α
  | ret a => ret a
  | throw e => throw e
  | step o k => bind (f o) (fun r => translate f (k r))

/-- The value of a program whose operations all answer as `h` says. -/
def interp (h : (o : S.Op) → S.Res o) : Program S ε α → Except ε α
  | ret a => .ok a
  | throw e => .error e
  | step o k => interp h (k (h o))

@[simp] lemma pure_eq (a : α) : (pure a : Program S ε α) = ret a := rfl

@[simp] lemma bind_eq (p : Program S ε α) (f : α → Program S ε β) : p >>= f = bind p f := rfl

@[simp] lemma ret_bind (a : α) (f : α → Program S ε β) : bind (ret a) f = f a := rfl

@[simp] lemma throw_bind (e : ε) (f : α → Program S ε β) :
    bind (throw e : Program S ε α) f = throw e := rfl

@[simp] lemma step_bind (o : S.Op) (k : S.Res o → Program S ε α) (f : α → Program S ε β) :
    bind (step o k) f = step o (fun r => bind (k r) f) := rfl

@[simp] lemma op_bind (o : S.Op) (f : S.Res o → Program S ε β) : bind (op o) f = step o f := rfl

lemma bind_assoc (p : Program S ε α) (f : α → Program S ε β) (g : β → Program S ε γ) :
    bind (bind p f) g = bind p (fun a => bind (f a) g) := by
  induction p with
  | ret a => rfl
  | throw e => rfl
  | step o k ih => simp only [step_bind, ih]

@[simp] lemma interp_ret (h : (o : S.Op) → S.Res o) (a : α) :
    interp h (ret a : Program S ε α) = .ok a := rfl

@[simp] lemma interp_throw (h : (o : S.Op) → S.Res o) (e : ε) :
    interp h (throw e : Program S ε α) = .error e := rfl

@[simp] lemma interp_step (h : (o : S.Op) → S.Res o) (o : S.Op)
    (k : S.Res o → Program S ε α) : interp h (step o k) = interp h (k (h o)) := rfl

@[simp] lemma interp_bind (h : (o : S.Op) → S.Res o) (p : Program S ε α)
    (f : α → Program S ε β) :
    interp h (bind p f) = (interp h p).bind (fun a => interp h (f a)) := by
  induction p with
  | ret a => rfl
  | throw e => rfl
  | step o k ih => exact ih (h o)

/-- The operations a program performs under the answers `h` all satisfy `P`. -/
def Performs (h : (o : S.Op) → S.Res o) (P : S.Op → Prop) : Program S ε α → Prop
  | ret _ => True
  | throw _ => True
  | step o k => P o ∧ Performs h P (k (h o))

@[simp] lemma performs_ret (h : (o : S.Op) → S.Res o) (P : S.Op → Prop) (a : α) :
    Performs h P (ret a : Program S ε α) := trivial

@[simp] lemma performs_throw (h : (o : S.Op) → S.Res o) (P : S.Op → Prop) (e : ε) :
    Performs h P (throw e : Program S ε α) := trivial

@[simp] lemma performs_step (h : (o : S.Op) → S.Res o) (P : S.Op → Prop) (o : S.Op)
    (k : S.Res o → Program S ε α) :
    Performs h P (step o k) ↔ P o ∧ Performs h P (k (h o)) := Iff.rfl

lemma performs_bind (h : (o : S.Op) → S.Res o) (P : S.Op → Prop) (p : Program S ε α)
    (f : α → Program S ε β) :
    Performs h P (bind p f) ↔
      Performs h P p ∧ ∀ a, interp h p = .ok a → Performs h P (f a) := by
  induction p with
  | ret a => simp
  | throw e => simp
  | step o k ih => simp only [step_bind, performs_step, interp_step, ih (h o), and_assoc]

lemma interp_tryCatch {h : (o : S.Op) → S.Res o} {p : Program S ε α} {a : α}
    (ha : interp h p = .ok a) (k : ε → Program S ε' α) : interp h (tryCatch p k) = .ok a := by
  induction p with
  | ret b => rw [tryCatch, interp_ret, Except.ok.inj ha]
  | throw e => cases ha
  | step o f ih => exact ih (h o) ha

lemma performs_tryCatch (h : (o : S.Op) → S.Res o) (P : S.Op → Prop) (p : Program S ε α)
    (k : ε → Program S ε' α) :
    Performs h P (tryCatch p k) ↔
      Performs h P p ∧ ∀ e, interp h p = .error e → Performs h P (k e) := by
  induction p with
  | ret a => simp [tryCatch]
  | throw e => simp [tryCatch]
  | step o k ih => simp only [tryCatch, performs_step, interp_step, ih (h o), and_assoc]

lemma Performs.imp {h : (o : S.Op) → S.Res o} {P Q : S.Op → Prop} (hpq : ∀ o, P o → Q o)
    {p : Program S ε α} (hp : Performs h P p) : Performs h Q p := by
  induction p with
  | ret a => trivial
  | throw e => trivial
  | step o k ih => exact ⟨hpq o hp.1, ih (h o) hp.2⟩

end Program

/-! ## Execution -/

section Execution

variable {S : Signature} {ε α β σ τ χ : Type}

/-- How a program that runs alone ends: with a value, with an exception, or in front of an
operation that is not enabled. -/
inductive Outcome (ε α σ : Type) where
  | done (a : α) (s : σ)
  | thrown (e : ε) (s : σ)
  | blocked (s : σ)

/-- One operation of thread `t`. The choice resolves what the operation leaves open. -/
abbrev Exec (S : Signature) (σ τ χ : Type) : Type :=
  τ → χ → (o : S.Op) → σ → Option (S.Res o × σ)

def Program.eval (exec : Exec S σ τ χ) (t : τ) (c : χ) :
    Program S ε α → σ → Outcome ε α σ
  | .ret a, s => .done a s
  | .throw e, s => .thrown e s
  | .step o k, s =>
    match exec t c o s with
    | some (r, s') => (k r).eval exec t c s'
    | none => .blocked s

/-- Continues after a value, and passes an exception or a blocked state on. -/
def Outcome.andThen : Outcome ε α σ → (α → σ → Outcome ε β σ) → Outcome ε β σ
  | .done a s, f => f a s
  | .thrown e s, _ => .thrown e s
  | .blocked s, _ => .blocked s

namespace Program

variable (exec : Exec S σ τ χ) (t : τ) (c : χ)

@[simp] lemma eval_ret (a : α) (s : σ) :
    (ret a : Program S ε α).eval exec t c s = .done a s := rfl

@[simp] lemma eval_throw (e : ε) (s : σ) :
    (throw e : Program S ε α).eval exec t c s = .thrown e s := rfl

lemma eval_step {o : S.Op} {k : S.Res o → Program S ε α} {s s' : σ} {r : S.Res o}
    (h : exec t c o s = some (r, s')) :
    (step o k).eval exec t c s = (k r).eval exec t c s' := by
  simp only [eval, h]

lemma eval_blocked {o : S.Op} {k : S.Res o → Program S ε α} {s : σ}
    (h : exec t c o s = none) : (step o k).eval exec t c s = .blocked s := by
  simp only [eval, h]

lemma eval_bind (p : Program S ε α) (f : α → Program S ε β) (s : σ) :
    (bind p f).eval exec t c s =
      (p.eval exec t c s).andThen (fun a s' => (f a).eval exec t c s') := by
  induction p generalizing s with
  | ret a => rfl
  | throw e => rfl
  | step o k ih =>
    simp only [step_bind, eval]
    cases exec t c o s with
    | none => rfl
    | some rs => exact ih rs.1 rs.2

/-- Both parts of a sequence that ends with a value do so. -/
lemma eval_bind_done {p : Program S ε α} {f : α → Program S ε β} {s s' : σ} {b : β}
    (h : (bind p f).eval exec t c s = .done b s') :
    ∃ a s1, p.eval exec t c s = .done a s1 ∧ (f a).eval exec t c s1 = .done b s' := by
  rw [eval_bind] at h
  cases hp : p.eval exec t c s with
  | done a s1 =>
    rw [hp] at h
    exact ⟨a, s1, rfl, h⟩
  | thrown e s1 =>
    rw [hp] at h
    cases h
  | blocked s1 =>
    rw [hp] at h
    cases h

lemma eval_op_done {o : S.Op} {s s' : σ} {r : S.Res o}
    (h : (op o : Program S ε (S.Res o)).eval exec t c s = .done r s') :
    exec t c o s = some (r, s') := by
  cases hexec : exec t c o s with
  | none =>
    rw [op, eval_blocked exec t c hexec] at h
    cases h
  | some rs =>
    rw [op, eval_step exec t c hexec] at h
    cases h
    rfl

end Program

/-! ## Interleaving -/

/-- The shared state and what each thread has still to run. -/
structure Config (S : Signature) (ε σ τ : Type) where
  shared : σ
  prog : τ → Program S ε Unit

variable [DecidableEq τ]

/-- One thread performs one operation. -/
inductive Step (exec : Exec S σ τ χ) : Config S ε σ τ → Config S ε σ τ → Prop where
  | mk {cfg : Config S ε σ τ} {t : τ} {c : χ} {o : S.Op}
      {k : S.Res o → Program S ε Unit} {r : S.Res o} {s' : σ}
      (hprog : cfg.prog t = .step o k) (hexec : exec t c o cfg.shared = some (r, s')) :
      Step exec cfg ⟨s', Function.update cfg.prog t (k r)⟩

/-- The configurations that any number of steps of any threads lead to. -/
def Reach (exec : Exec S σ τ χ) : Config S ε σ τ → Config S ε σ τ → Prop :=
  Relation.ReflTransGen (Step exec)

lemma Reach.refl {exec : Exec S σ τ χ} (cfg : Config S ε σ τ) : Reach exec cfg cfg :=
  Relation.ReflTransGen.refl

lemma Reach.trans {exec : Exec S σ τ χ} {a b d : Config S ε σ τ} (h : Reach exec a b)
    (h' : Reach exec b d) : Reach exec a d :=
  Relation.ReflTransGen.trans h h'

lemma Reach.head {exec : Exec S σ τ χ} {a b d : Config S ε σ τ} (h : Step exec a b)
    (h' : Reach exec b d) : Reach exec a d :=
  Relation.ReflTransGen.head h h'

/-- What holds at the start and is preserved by every step holds in every configuration
that is reached. -/
lemma Reach.invariant {exec : Exec S σ τ χ} {a b : Config S ε σ τ} {P : Config S ε σ τ → Prop}
    (h : Reach exec a b) (ha : P a) (hstep : ∀ x y, P x → Step exec x y → P y) : P b := by
  induction h with
  | refl => exact ha
  | tail _ hs ih => exact hstep _ _ ih hs

end Execution

end Lib
