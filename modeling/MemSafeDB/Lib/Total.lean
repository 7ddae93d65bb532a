import MemSafeDB.Lib.Program

/-!
# Programs that run alone

`Total` is a precondition for a program that runs alone: as long as its operations meet an
assumption, each of them meets a guarantee and the program ends, with a value that satisfies
the postcondition or in front of an operation that is not enabled.
-/

namespace Lib

variable {S : Signature} {ε ε' α β σ τ χ : Type}

namespace Program

/-- All operations that the program performs when it runs alone satisfy `P`. -/
def AllSteps (exec : Exec S σ τ χ) (t : τ) (c : χ) (P : σ → S.Op → Prop) :
    Program S ε α → σ → Prop
  | ret _, _ => True
  | throw _, _ => True
  | step o k, s => P s o ∧
    match exec t c o s with
    | some (r, s') => AllSteps exec t c P (k r) s'
    | none => True

lemma allSteps_step (exec : Exec S σ τ χ) (t : τ) (c : χ) (P : σ → S.Op → Prop) (o : S.Op)
    (k : S.Res o → Program S ε α) (s : σ) :
    AllSteps exec t c P (step o k) s ↔
      P s o ∧ ∀ rs ∈ exec t c o s, AllSteps exec t c P (k rs.1) rs.2 := by
  rw [AllSteps]
  cases exec t c o s <;> simp

instance AllSteps.decidable (exec : Exec S σ τ χ) (t : τ) (c : χ) (P : σ → S.Op → Prop)
    [∀ s o, Decidable (P s o)] :
    (p : Program S ε α) → (s : σ) → Decidable (AllSteps exec t c P p s)
  | ret _, _ => .isTrue trivial
  | throw _, _ => .isTrue trivial
  | step o k, s =>
    have : ∀ rs : S.Res o × σ, Decidable (AllSteps exec t c P (k rs.1) rs.2) := fun rs =>
      AllSteps.decidable exec t c P (k rs.1) rs.2
    decidable_of_iff' _ (allSteps_step exec t c P o k s)

lemma AllSteps.of_forall {exec : Exec S σ τ χ} {t : τ} {c : χ} {P : σ → S.Op → Prop}
    (hP : ∀ s o, P s o) {p : Program S ε α} {s : σ} : AllSteps exec t c P p s := by
  induction p generalizing s with
  | ret a => trivial
  | throw e => trivial
  | step o k ih =>
    rw [allSteps_step]
    exact ⟨hP s o, fun rs _ => ih rs.1⟩

lemma AllSteps.mono {exec : Exec S σ τ χ} {t : τ} {c : χ} {P Q : σ → S.Op → Prop}
    (hPQ : ∀ s o, P s o → Q s o) {p : Program S ε α} {s : σ} (h : AllSteps exec t c P p s) :
    AllSteps exec t c Q p s := by
  induction p generalizing s with
  | ret a => trivial
  | throw e => trivial
  | step o k ih =>
    rw [allSteps_step] at h ⊢
    exact ⟨hPQ s o h.1, fun rs hrs => ih rs.1 (h.2 rs hrs)⟩

lemma AllSteps.and {exec : Exec S σ τ χ} {t : τ} {c : χ} {P Q : σ → S.Op → Prop}
    {p : Program S ε α} {s : σ} (hP : AllSteps exec t c P p s) (hQ : AllSteps exec t c Q p s) :
    AllSteps exec t c (fun s o => P s o ∧ Q s o) p s := by
  induction p generalizing s with
  | ret a => trivial
  | throw e => trivial
  | step o k ih =>
    rw [allSteps_step] at hP hQ ⊢
    exact ⟨⟨hP.1, hQ.1⟩, fun rs hrs => ih rs.1 (hP.2 rs hrs) (hQ.2 rs hrs)⟩

/-- As long as the operations satisfy `P`, they satisfy `G` and the program ends with `Q`, or
stops in a state that satisfies `B`. -/
def Total (exec : Exec S σ τ χ) (t : τ) (c : χ) (P G : σ → S.Op → Prop) (B : σ → Prop)
    (Q : α → σ → Prop) : Program S ε α → σ → Prop
  | ret a, s => Q a s
  | throw _, _ => False
  | step o k, s => P s o → G s o ∧
    match exec t c o s with
    | some (r, s') => Total exec t c P G B Q (k r) s'
    | none => B s

section Rules

variable {exec : Exec S σ τ χ} {t : τ} {c : χ} {P G : σ → S.Op → Prop} {B : σ → Prop}

lemma Total.step_some {o : S.Op} {k : S.Res o → Program S ε α} {s s' : σ} {r : S.Res o}
    {Q : α → σ → Prop} (hexec : exec t c o s = some (r, s')) (hg : P s o → G s o)
    (h : P s o → Total exec t c P G B Q (k r) s') :
    Total exec t c P G B Q (step o k) s := by
  intro hp
  refine ⟨hg hp, ?_⟩
  rw [hexec]
  exact h hp

lemma Total.step_none {o : S.Op} {k : S.Res o → Program S ε α} {s : σ} {Q : α → σ → Prop}
    (hexec : exec t c o s = none) (hg : P s o → G s o) (h : P s o → B s) :
    Total exec t c P G B Q (step o k) s := by
  intro hp
  refine ⟨hg hp, ?_⟩
  rw [hexec]
  exact h hp

lemma Total.mono {Q Q' : α → σ → Prop} (hQ : ∀ a s, Q a s → Q' a s) {p : Program S ε α} {s : σ}
    (h : Total exec t c P G B Q p s) : Total exec t c P G B Q' p s := by
  induction p generalizing s with
  | ret a => exact hQ a s h
  | throw e => exact h
  | step o k ih =>
    intro hp
    obtain ⟨hg, hrest⟩ := h hp
    refine ⟨hg, ?_⟩
    cases hexec : exec t c o s with
    | none =>
      rw [hexec] at hrest
      exact hrest
    | some rs =>
      rw [hexec] at hrest
      exact ih rs.1 hrest

lemma Total.bind {Q : β → σ → Prop} {p : Program S ε α} {f : α → Program S ε β} {s : σ}
    (h : Total exec t c P G B (fun a s' => Total exec t c P G B Q (f a) s') p s) :
    Total exec t c P G B Q (bind p f) s := by
  induction p generalizing s with
  | ret a => exact h
  | throw e => exact h.elim
  | step o k ih =>
    intro hp
    obtain ⟨hg, hrest⟩ := h hp
    refine ⟨hg, ?_⟩
    cases hexec : exec t c o s with
    | none =>
      rw [hexec] at hrest
      exact hrest
    | some rs =>
      rw [hexec] at hrest
      exact ih rs.1 hrest

/-- A program that does not throw does not run a handler. -/
lemma Total.tryCatch {Q : α → σ → Prop} {p : Program S ε α} {h : ε → Program S ε' α} {s : σ}
    (hp : Total exec t c P G B Q p s) : Total exec t c P G B Q (tryCatch p h) s := by
  induction p generalizing s with
  | ret a => exact hp
  | throw e => exact hp.elim
  | step o k ih =>
    intro hP
    obtain ⟨hg, hrest⟩ := hp hP
    refine ⟨hg, ?_⟩
    cases hexec : exec t c o s with
    | none =>
      rw [hexec] at hrest
      exact hrest
    | some rs =>
      rw [hexec] at hrest
      exact ih rs.1 hrest

lemma Total.onThrow {Q : α → σ → Prop} {p : Program S ε α} {cleanup : Program S ε Unit} {s : σ}
    (hp : Total exec t c P G B Q p s) : Total exec t c P G B Q (onThrow p cleanup) s :=
  hp.tryCatch

/-- What `Total` says about the run. -/
theorem Total.sound {Q : α → σ → Prop} {p : Program S ε α} {s : σ}
    (h : Total exec t c P G B Q p s) (hP : AllSteps exec t c P p s) :
    AllSteps exec t c G p s ∧
      ((∃ a s', p.eval exec t c s = .done a s' ∧ Q a s') ∨
        ∃ s', p.eval exec t c s = .blocked s' ∧ B s') := by
  induction p generalizing s with
  | ret a => exact ⟨trivial, Or.inl ⟨a, s, rfl, h⟩⟩
  | throw e => exact h.elim
  | step o k ih =>
    rw [AllSteps] at hP
    obtain ⟨hP1, hP2⟩ := hP
    obtain ⟨hg, hrest⟩ := h hP1
    rw [AllSteps]
    cases hexec : exec t c o s with
    | none =>
      rw [hexec] at hrest
      exact ⟨⟨hg, trivial⟩, Or.inr ⟨s, eval_blocked exec t c hexec, hrest⟩⟩
    | some rs =>
      rw [hexec] at hrest hP2
      obtain ⟨h1, h2⟩ := ih rs.1 hrest hP2
      rw [eval_step exec t c hexec]
      exact ⟨⟨hg, h1⟩, h2⟩

end Rules

end Program

end Lib
