import MemSafeDB.Lib.Program

/-!
# Relying on the other threads

What one thread does is judged without the programs of the others: between two of its
operations they may change the state, but only as an interface says, and each operation of its
own must change the state as the interfaces of the others allow. Threads whose interfaces fit
together keep the invariant in every interleaving, and never come to an operation that is not
legal.
-/

namespace Lib

/-- What a thread can rely on and what it promises. -/
structure Interface (S : Signature) (σ : Type) where
  inv : σ → Prop
  /-- what the other threads may do between two operations -/
  rely : σ → σ → Prop
  /-- what an operation of the thread may do -/
  promise : σ → σ → Prop
  /-- the operations that may come next -/
  legal : σ → S.Op → Prop
  refl : ∀ s, rely s s
  trans : ∀ s s' s'', rely s s' → rely s' s'' → rely s s''

namespace Interface

variable {S : Signature} {σ : Type}

/-- The other threads do not invalidate the assertion. -/
def Stable (J : Interface S σ) (A : σ → Prop) : Prop :=
  ∀ s s', J.inv s' → J.rely s s' → A s → A s'

lemma Stable.and {J : Interface S σ} {A B : σ → Prop} (hA : J.Stable A) (hB : J.Stable B) :
    J.Stable (fun s => A s ∧ B s) := by
  intro s s' hi hr h
  exact ⟨hA s s' hi hr h.1, hB s s' hi hr h.2⟩

end Interface

namespace Program

variable {S : Signature} {ε α β σ τ χ : Type} {exec : Exec S σ τ χ} {t : τ}
  {J : Interface S σ}

/-- Thread `t` runs the program as its interface asks, whatever the other threads do between
its operations, and a value it ends with satisfies `Q`. It does not end in an exception. -/
def Keeps (exec : Exec S σ τ χ) (t : τ) (J : Interface S σ) (Q : α → σ → Prop) :
    Program S ε α → σ → Prop
  | ret a, s => ∀ s', J.inv s' → J.rely s s' → Q a s'
  | throw _, _ => False
  | step o k, s => ∀ s', J.inv s' → J.rely s s' → J.legal s' o ∧
      ∀ c r s'', exec t c o s' = some (r, s'') →
        J.inv s'' ∧ J.promise s' s'' ∧ Keeps exec t J Q (k r) s''

namespace Keeps

variable {Q : α → σ → Prop} {s : σ}

/-- The judgement itself is stable. -/
lemma rely {p : Program S ε α} {s' : σ} (h : Keeps exec t J Q p s) (hr : J.rely s s') :
    Keeps exec t J Q p s' := by
  cases p with
  | ret a => exact fun s'' hi' hr' => h s'' hi' (J.trans _ _ _ hr hr')
  | throw e => exact h
  | step o k => exact fun s'' hi' hr' => h s'' hi' (J.trans _ _ _ hr hr')

lemma ret {a : α} (hQ : J.Stable (Q a)) (h : Q a s) :
    Keeps exec t J Q (Program.ret a : Program S ε α) s :=
  fun s' hi hr => hQ s s' hi hr h

/-- One operation, taken in a state in which a stable assertion holds. -/
lemma step {A : σ → Prop} {o : S.Op} {k : S.Res o → Program S ε α} (hA : J.Stable A) (h : A s)
    (hop : ∀ s', J.inv s' → A s' → J.legal s' o ∧ ∀ c r s'', exec t c o s' = some (r, s'') →
      J.inv s'' ∧ J.promise s' s'' ∧ Keeps exec t J Q (k r) s'') :
    Keeps exec t J Q (Program.step o k) s :=
  fun s' hi hr => hop s' hi (hA s s' hi hr h)

lemma bind {p : Program S ε α} {f : α → Program S ε β} {Q' : β → σ → Prop} (hi : J.inv s)
    (hp : Keeps exec t J Q p s) (hf : ∀ a s', J.inv s' → Q a s' → Keeps exec t J Q' (f a) s') :
    Keeps exec t J Q' (Program.bind p f) s := by
  induction p generalizing s with
  | ret a => exact hf a s hi (hp s hi (J.refl s))
  | throw e => exact hp.elim
  | step o k ih =>
    intro s' hi' hr
    obtain ⟨hlegal, hexec⟩ := hp s' hi' hr
    refine ⟨hlegal, ?_⟩
    intro c r s'' hs
    obtain ⟨hinv, hpromise, hk⟩ := hexec c r s'' hs
    exact ⟨hinv, hpromise, ih r hinv hk⟩

lemma mono {p : Program S ε α} {Q' : α → σ → Prop} (hp : Keeps exec t J Q p s)
    (hQ : ∀ a s', J.inv s' → Q a s' → Q' a s') : Keeps exec t J Q' p s := by
  induction p generalizing s with
  | ret a => exact fun s' hi hr => hQ a s' hi (hp s' hi hr)
  | throw e => exact hp
  | step o k ih =>
    intro s' hi hr
    obtain ⟨hlegal, hexec⟩ := hp s' hi hr
    refine ⟨hlegal, ?_⟩
    intro c r s'' hs
    obtain ⟨hinv, hpromise, hk⟩ := hexec c r s'' hs
    exact ⟨hinv, hpromise, ih r hk⟩

end Keeps

end Program

section Threads

variable {S : Signature} {ε σ τ χ : Type} [DecidableEq τ] {exec : Exec S σ τ χ}
  {inv : σ → Prop} {J : τ → Interface S σ} {Q : τ → Unit → σ → Prop}

/-- Every thread keeps to its interface from here on. -/
structure Cooperate (exec : Exec S σ τ χ) (inv : σ → Prop) (J : τ → Interface S σ)
    (Q : τ → Unit → σ → Prop) (cfg : Config S ε σ τ) : Prop where
  inv : inv cfg.shared
  keeps : ∀ t, (cfg.prog t).Keeps exec t (J t) (Q t) cfg.shared

/-- What a thread promises, the others rely on. -/
structure Compatible (inv : σ → Prop) (J : τ → Interface S σ) : Prop where
  inv : ∀ t, (J t).inv = inv
  rely : ∀ t u s s', t ≠ u → (J t).promise s s' → (J u).rely s s'

lemma Cooperate.step (hJ : Compatible inv J) {cfg cfg' : Config S ε σ τ}
    (h : Cooperate exec inv J Q cfg) (hstep : Step exec cfg cfg') :
    Cooperate exec inv J Q cfg' := by
  obtain ⟨hprog, hexec⟩ := hstep
  rename_i t c o k r s'
  have hk := h.keeps t
  rw [hprog] at hk
  have hi : (J t).inv cfg.shared := by
    rw [hJ.inv t]
    exact h.inv
  obtain ⟨-, hnext⟩ := hk cfg.shared hi ((J t).refl _)
  obtain ⟨hi', hpromise, hkr⟩ := hnext c r s' hexec
  rw [hJ.inv t] at hi'
  refine ⟨hi', fun u => ?_⟩
  by_cases hu : u = t
  · subst hu
    simpa using hkr
  · have hold := (h.keeps u).rely (hJ.rely t u _ _ (Ne.symm hu) hpromise)
    simpa [Function.update_of_ne hu] using hold

/-- Compatible threads cooperate in every configuration that they reach. -/
theorem Cooperate.reach (hJ : Compatible inv J) {cfg cfg' : Config S ε σ τ}
    (h : Cooperate exec inv J Q cfg) (hreach : Reach exec cfg cfg') :
    Cooperate exec inv J Q cfg' :=
  hreach.invariant h (fun _ _ hx hstep => hx.step hJ hstep)

omit [DecidableEq τ] in
/-- The next operation of a thread is legal. -/
lemma Cooperate.legal (hJ : Compatible inv J) {cfg : Config S ε σ τ}
    (h : Cooperate exec inv J Q cfg) {t : τ} {o : S.Op} {k : S.Res o → Program S ε Unit}
    (hprog : cfg.prog t = .step o k) : (J t).legal cfg.shared o := by
  have hk := h.keeps t
  rw [hprog] at hk
  exact (hk cfg.shared (by rw [hJ.inv t]; exact h.inv) ((J t).refl _)).1

end Threads

end Lib
