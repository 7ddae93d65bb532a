import MemSafeDB.Lib.Program

/-!
# Programs under a monitor

A monitor keeps what a thread knows of its own past: it says which operations may come next,
which answers can come, and how an answer changes what is known. Whether a program obeys a
monitor depends on the program alone, not on how its operations are executed. When the execution
reflects the monitors of the threads, the states of a run correspond to states of the monitors.
-/

namespace Lib

structure Monitor (S : Signature) (μ : Type) where
  /-- the operation may come next -/
  legal : μ → S.Op → Prop
  /-- the answer can come -/
  answer : μ → (o : S.Op) → S.Res o → Prop
  next : μ → (o : S.Op) → S.Res o → μ

namespace Program

variable {S : Signature} {μ ε ε' α β : Type} {M : Monitor S μ}

/-- Whatever the answers are, the operations are legal, a value that the program ends with
satisfies `Q` and an exception `E`. -/
def Obeys (M : Monitor S μ) (Q : α → μ → Prop) (E : ε → μ → Prop) : Program S ε α → μ → Prop
  | ret a, m => Q a m
  | throw e, m => E e m
  | step o k, m => M.legal m o ∧ ∀ r, M.answer m o r → Obeys M Q E (k r) (M.next m o r)

namespace Obeys

variable {Q : α → μ → Prop} {E : ε → μ → Prop} {m : μ}

lemma op {o : S.Op} {Q : S.Res o → μ → Prop} (hlegal : M.legal m o)
    (h : ∀ r, M.answer m o r → Q r (M.next m o r)) :
    Obeys M Q E (Program.op o : Program S ε (S.Res o)) m :=
  ⟨hlegal, h⟩

lemma mono {Q' : α → μ → Prop} {E' : ε → μ → Prop} {p : Program S ε α} (h : Obeys M Q E p m)
    (hQ : ∀ a m', Q a m' → Q' a m') (hE : ∀ e m', E e m' → E' e m') : Obeys M Q' E' p m := by
  induction p generalizing m with
  | ret a => exact hQ a m h
  | throw e => exact hE e m h
  | step o k ih => exact ⟨h.1, fun r hr => ih r (h.2 r hr)⟩

lemma bind {Q' : β → μ → Prop} {p : Program S ε α} {f : α → Program S ε β}
    (h : Obeys M Q E p m) (hf : ∀ a m', Q a m' → Obeys M Q' E (f a) m') :
    Obeys M Q' E (Program.bind p f) m := by
  induction p generalizing m with
  | ret a => exact hf a m h
  | throw e => exact h
  | step o k ih => exact ⟨h.1, fun r hr => ih r (h.2 r hr)⟩

lemma tryCatch {E' : ε' → μ → Prop} {p : Program S ε α} {handler : ε → Program S ε' α}
    (h : Obeys M Q E p m) (hh : ∀ e m', E e m' → Obeys M Q E' (handler e) m') :
    Obeys M Q E' (Program.tryCatch p handler) m := by
  induction p generalizing m with
  | ret a => exact h
  | throw e => exact hh e m h
  | step o k ih => exact ⟨h.1, fun r hr => ih r (h.2 r hr)⟩

lemma onThrow {E' : ε → μ → Prop} {p : Program S ε α} {cleanup : Program S ε Unit}
    (h : Obeys M Q E p m) (hc : ∀ e m', E e m' → Obeys M (fun _ => E' e) E' cleanup m') :
    Obeys M Q E' (Program.onThrow p cleanup) m :=
  h.tryCatch (fun e m' he => (hc e m' he).bind (fun _ _ h => h))

end Obeys

end Program

section Runs

variable {S : Signature} {μ ε α σ τ χ : Type} {M : Monitor S μ} {exec : Exec S σ τ χ}

/-- The execution of one thread alone gives the answers that its monitor expects. -/
def ReflectsAlone (exec : Exec S σ τ χ) (t : τ) (c : χ) (M : Monitor S μ) (R : μ → σ → Prop) :
    Prop :=
  ∀ m s o r s', R m s → M.legal m o → exec t c o s = some (r, s') →
    M.answer m o r ∧ R (M.next m o r) s'

/-- How a program that obeys the monitor ends when it runs alone. -/
def Outcome.Meets (Q : α → σ → Prop) (E : ε → σ → Prop) : Outcome ε α σ → Prop
  | .done a s => Q a s
  | .thrown e s => E e s
  | .blocked _ => True

lemma Program.Obeys.eval {t : τ} {c : χ} {R : μ → σ → Prop}
    (hR : ReflectsAlone exec t c M R) {Q : α → μ → Prop} {E : ε → μ → Prop} {p : Program S ε α}
    {m : μ} {s : σ} (h : p.Obeys M Q E m) (hs : R m s) :
    (p.eval exec t c s).Meets (fun a s' => ∃ m', Q a m' ∧ R m' s')
      (fun e s' => ∃ m', E e m' ∧ R m' s') := by
  induction p generalizing m s with
  | ret a => exact ⟨m, h, hs⟩
  | throw e => exact ⟨m, h, hs⟩
  | step o k ih =>
    cases hexec : exec t c o s with
    | none =>
      rw [Program.eval_blocked exec t c hexec]
      trivial
    | some rs =>
      obtain ⟨r, s'⟩ := rs
      rw [Program.eval_step exec t c hexec]
      obtain ⟨hanswer, hs'⟩ := hR m s o r s' hs h.1 hexec
      exact ih r (h.2 r hanswer) hs'

variable [DecidableEq τ]

/-- The execution of all threads gives the answers that their monitors expect. -/
def Reflects (exec : Exec S σ τ χ) (M : Monitor S μ) (R : (τ → μ) → σ → Prop) : Prop :=
  ∀ ms s t c o r s', R ms s → M.legal (ms t) o → exec t c o s = some (r, s') →
    M.answer (ms t) o r ∧ R (Function.update ms t (M.next (ms t) o r)) s'

/-- The execution of one thread, when the states of the other monitors stay as they are. -/
lemma Reflects.alone {R : (τ → μ) → σ → Prop} (hR : Reflects exec M R) (ms : τ → μ) (t : τ)
    (c : χ) : ReflectsAlone exec t c M (fun m s => R (Function.update ms t m) s) := by
  intro m s o r s' hs hlegal hexec
  have h := hR (Function.update ms t m) s t c o r s' hs (by rwa [Function.update_self]) hexec
  rwa [Function.update_self, Function.update_idem] at h

/-- The threads obey their monitors, which stand in the relation to the shared state. -/
def Monitored (M : Monitor S μ) (R : (τ → μ) → σ → Prop) (cfg : Config S ε σ τ) : Prop :=
  ∃ ms, R ms cfg.shared ∧ ∀ t, (cfg.prog t).Obeys M (fun _ _ => True) (fun _ _ => True) (ms t)

lemma Monitored.step {R : (τ → μ) → σ → Prop} (hR : Reflects exec M R) {cfg cfg' : Config S ε σ τ}
    (h : Monitored M R cfg) (hstep : Step exec cfg cfg') : Monitored M R cfg' := by
  obtain ⟨ms, hms, hprog⟩ := h
  obtain ⟨hp, hexec⟩ := hstep
  rename_i t c o k r s'
  have ht := hprog t
  rw [hp] at ht
  obtain ⟨hanswer, hs'⟩ := hR ms cfg.shared t c o r s' hms ht.1 hexec
  refine ⟨_, hs', fun u => ?_⟩
  by_cases hu : u = t
  · subst hu
    simpa using ht.2 r hanswer
  · simpa [Function.update_of_ne hu] using hprog u

/-- Threads that obey their monitors do so in every configuration that they reach. -/
theorem Monitored.reach {R : (τ → μ) → σ → Prop} (hR : Reflects exec M R)
    {cfg cfg' : Config S ε σ τ} (h : Monitored M R cfg) (hreach : Reach exec cfg cfg') :
    Monitored M R cfg' :=
  hreach.invariant h (fun _ _ hx hstep => hx.step hR hstep)

end Runs

end Lib
