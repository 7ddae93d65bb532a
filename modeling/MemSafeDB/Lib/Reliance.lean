import MemSafeDB.Lib.History

/-!
# Relying on threads that may restart

A thread is judged without the programs of the others. Every operation, of any thread, advances
the state, and spares what it leaves to the threads that do not perform it; between two of its own
operations a thread relies on both. It has to show that its operations are legal where they are
performed, and may end in an exception. What a legal operation does to the state is the matter of
a single proof, which all programs share.
-/

namespace Lib

/-- What threads rely on and what they have to show. -/
structure Alliance (S : Signature) (σ τ : Type) where
  inv : σ → Prop
  /-- what an operation of any thread does -/
  advance : σ → σ → Prop
  /-- what an operation of another thread leaves to a thread -/
  spare : τ → σ → σ → Prop
  /-- the operations that may come next -/
  legal : τ → σ → S.Op → Prop
  /-- what is assumed of the operations that are performed -/
  assumed : τ → σ → S.Op → Prop
  advance_refl : ∀ s, advance s s
  advance_trans : ∀ s s' s'', advance s s' → advance s' s'' → advance s s''
  spare_refl : ∀ t s, spare t s s
  spare_trans : ∀ t s s' s'', spare t s s' → spare t s' s'' → spare t s s''

namespace Alliance

variable {S : Signature} {σ τ : Type} {J : Alliance S σ τ} {t : τ}

/-- What the other threads may do between two operations of a thread. -/
structure Rely (J : Alliance S σ τ) (t : τ) (s s' : σ) : Prop where
  advance : J.advance s s'
  spare : J.spare t s s'

lemma Rely.refl (s : σ) : J.Rely t s s := ⟨J.advance_refl s, J.spare_refl t s⟩

lemma Rely.trans {s s' s'' : σ} (h : J.Rely t s s') (h' : J.Rely t s' s'') : J.Rely t s s'' :=
  ⟨J.advance_trans _ _ _ h.advance h'.advance, J.spare_trans _ _ _ _ h.spare h'.spare⟩

/-- The other threads do not invalidate the assertion. -/
def Stable (J : Alliance S σ τ) (t : τ) (A : σ → Prop) : Prop :=
  ∀ s s', J.inv s' → J.Rely t s s' → A s → A s'

lemma Stable.and {A B : σ → Prop} (hA : J.Stable t A) (hB : J.Stable t B) :
    J.Stable t (fun s => A s ∧ B s) := fun s s' hi hr h => ⟨hA s s' hi hr h.1, hB s s' hi hr h.2⟩

lemma Stable.or {A B : σ → Prop} (hA : J.Stable t A) (hB : J.Stable t B) :
    J.Stable t (fun s => A s ∨ B s) := fun s s' hi hr h => h.imp (hA s s' hi hr) (hB s s' hi hr)

lemma Stable.exists {ι : Type} {A : ι → σ → Prop} (hA : ∀ i, J.Stable t (A i)) :
    J.Stable t (fun s => ∃ i, A i s) := by
  rintro s s' hi hr ⟨i, h⟩
  exact ⟨i, hA i s s' hi hr h⟩

end Alliance

namespace Program

variable {S : Signature} {ε ε' α β σ τ χ : Type} {exec : Exec S σ τ χ} {t : τ}
  {J : Alliance S σ τ}

/-- Whatever the other threads do between the operations of thread `t`, these are legal, a value
that the program ends with satisfies `Q` and an exception `E`. -/
def Serves (exec : Exec S σ τ χ) (J : Alliance S σ τ) (t : τ) (Q : α → σ → Prop)
    (E : ε → σ → Prop) : Program S ε α → σ → Prop
  | ret a, s => ∀ s', J.inv s' → J.Rely t s s' → Q a s'
  | throw e, s => ∀ s', J.inv s' → J.Rely t s s' → E e s'
  | step o k, s => ∀ s', J.inv s' → J.Rely t s s' → J.assumed t s' o → J.legal t s' o ∧
      ∀ c r s'', exec t c o s' = some (r, s'') → J.inv s'' → J.advance s' s'' →
        Serves exec J t Q E (k r) s''

namespace Serves

variable {Q : α → σ → Prop} {E : ε → σ → Prop} {s : σ}

/-- The judgement itself is stable. -/
lemma rely {p : Program S ε α} {s' : σ} (h : Serves exec J t Q E p s) (hr : J.Rely t s s') :
    Serves exec J t Q E p s' := by
  cases p with
  | ret a => exact fun s'' hi' hr' => h s'' hi' (hr.trans hr')
  | throw e => exact fun s'' hi' hr' => h s'' hi' (hr.trans hr')
  | step o k => exact fun s'' hi' hr' => h s'' hi' (hr.trans hr')

lemma ret {a : α} (hQ : J.Stable t (Q a)) (h : Q a s) :
    Serves exec J t Q E (Program.ret a : Program S ε α) s := fun s' hi hr => hQ s s' hi hr h

lemma throw {e : ε} (hE : J.Stable t (E e)) (h : E e s) :
    Serves exec J t Q E (Program.throw e : Program S ε α) s := fun s' hi hr => hE s s' hi hr h

/-- One operation, performed in a state in which a stable assertion holds. -/
lemma step {A : σ → Prop} {o : S.Op} {k : S.Res o → Program S ε α} (hA : J.Stable t A) (h : A s)
    (hop : ∀ s', J.inv s' → A s' → J.assumed t s' o → J.legal t s' o ∧
      ∀ c r s'', exec t c o s' = some (r, s'') → J.inv s'' → J.advance s' s'' →
        Serves exec J t Q E (k r) s'') :
    Serves exec J t Q E (Program.step o k) s :=
  fun s' hi hr => hop s' hi (hA s s' hi hr h)

/-- An operation that answers with a stable postcondition. -/
lemma op {A : σ → Prop} {o : S.Op} {Q : S.Res o → σ → Prop} (hA : J.Stable t A) (h : A s)
    (hQ : ∀ r, J.Stable t (Q r))
    (hop : ∀ s', J.inv s' → A s' → J.assumed t s' o → J.legal t s' o ∧
      ∀ c r s'', exec t c o s' = some (r, s'') → J.inv s'' → J.advance s' s'' → Q r s'') :
    Serves exec J t Q E (Program.op o : Program S ε (S.Res o)) s := by
  refine step hA h (fun s' hi' hA' hassumed => ?_)
  obtain ⟨hlegal, hnext⟩ := hop s' hi' hA' hassumed
  exact ⟨hlegal, fun c r s'' hexec hi'' hadv => ret (hQ r) (hnext c r s'' hexec hi'' hadv)⟩

lemma mono {p : Program S ε α} {Q' : α → σ → Prop} {E' : ε → σ → Prop}
    (hp : Serves exec J t Q E p s) (hQ : ∀ a s', J.inv s' → Q a s' → Q' a s')
    (hE : ∀ e s', J.inv s' → E e s' → E' e s') : Serves exec J t Q' E' p s := by
  induction p generalizing s with
  | ret a => exact fun s' hi hr => hQ a s' hi (hp s' hi hr)
  | throw e => exact fun s' hi hr => hE e s' hi (hp s' hi hr)
  | step o k ih =>
    intro s' hi hr hassumed
    obtain ⟨hlegal, hnext⟩ := hp s' hi hr hassumed
    exact ⟨hlegal, fun c r s'' hexec hi' hadv => ih r (hnext c r s'' hexec hi' hadv)⟩

lemma bind {p : Program S ε α} {f : α → Program S ε β} {Q' : β → σ → Prop} (hi : J.inv s)
    (hp : Serves exec J t Q E p s)
    (hf : ∀ a s', J.inv s' → Q a s' → Serves exec J t Q' E (f a) s') :
    Serves exec J t Q' E (Program.bind p f) s := by
  induction p generalizing s with
  | ret a => exact hf a s hi (hp s hi (Alliance.Rely.refl s))
  | throw e => exact hp
  | step o k ih =>
    intro s' hi' hr hassumed
    obtain ⟨hlegal, hnext⟩ := hp s' hi' hr hassumed
    exact ⟨hlegal, fun c r s'' hexec hi'' hadv => ih r hi'' (hnext c r s'' hexec hi'' hadv)⟩

lemma tryCatch {p : Program S ε α} {handler : ε → Program S ε' α} {E' : ε' → σ → Prop}
    (hi : J.inv s) (hp : Serves exec J t Q E p s)
    (hh : ∀ e s', J.inv s' → E e s' → Serves exec J t Q E' (handler e) s') :
    Serves exec J t Q E' (Program.tryCatch p handler) s := by
  induction p generalizing s with
  | ret a => exact hp
  | throw e => exact hh e s hi (hp s hi (Alliance.Rely.refl s))
  | step o k ih =>
    intro s' hi' hr hassumed
    obtain ⟨hlegal, hnext⟩ := hp s' hi' hr hassumed
    exact ⟨hlegal, fun c r s'' hexec hi'' hadv => ih r hi'' (hnext c r s'' hexec hi'' hadv)⟩

lemma onThrow {p : Program S ε α} {cleanup : Program S ε Unit} {E' : ε → σ → Prop}
    (hi : J.inv s) (hp : Serves exec J t Q E p s)
    (hc : ∀ e s', J.inv s' → E e s' → Serves exec J t (fun _ => E' e) E' cleanup s')
    (hE : ∀ e, J.Stable t (E' e)) : Serves exec J t Q E' (Program.onThrow p cleanup) s := by
  refine hp.tryCatch hi (fun e s' hi' he => ?_)
  exact (hc e s' hi' he).bind hi' (fun _ s'' _ he' => throw (hE e) he')

end Serves

end Program

/-! ## Runs -/

section Runs

variable {S : Signature} {ε σ τ χ : Type} [DecidableEq τ]

/-- One thread performs one operation, of which a condition holds. -/
inductive StepWithin (exec : Exec S σ τ χ) (P : τ → σ → S.Op → Prop) :
    Config S ε σ τ → Config S ε σ τ → Prop where
  | mk {cfg : Config S ε σ τ} {t : τ} {c : χ} {o : S.Op} {k : S.Res o → Program S ε Unit}
      {r : S.Res o} {s' : σ} (hprog : cfg.prog t = .step o k) (hP : P t cfg.shared o)
      (hexec : exec t c o cfg.shared = some (r, s')) :
      StepWithin exec P cfg ⟨s', Function.update cfg.prog t (k r)⟩

/-- The configurations that any number of steps within the condition lead to. -/
def ReachWithin (exec : Exec S σ τ χ) (P : τ → σ → S.Op → Prop) :
    Config S ε σ τ → Config S ε σ τ → Prop :=
  Relation.ReflTransGen (StepWithin exec P)

lemma ReachWithin.reach {exec : Exec S σ τ χ} {P : τ → σ → S.Op → Prop} {cfg cfg' : Config S ε σ τ}
    (h : ReachWithin exec P cfg cfg') : Reach exec cfg cfg' := by
  refine Relation.ReflTransGen.mono ?_ _ _ h
  rintro _ _ ⟨hprog, -, hexec⟩
  exact Step.mk hprog hexec

variable {exec : Exec S σ τ χ} {P : τ → σ → S.Op → Prop} {J : Alliance S σ τ}
  {K : Config S ε σ τ → Prop} {Over : σ → Prop} {Q : τ → Unit → σ → Prop}

/-- Every thread does as its allies rely on. -/
structure Allied (exec : Exec S σ τ χ) (J : Alliance S σ τ) (K : Config S ε σ τ → Prop)
    (Q : τ → Unit → σ → Prop) (cfg : Config S ε σ τ) : Prop where
  inv : J.inv cfg.shared
  known : K cfg
  serves : ∀ t, (cfg.prog t).Serves exec J t (Q t) (fun _ _ => False) cfg.shared

/-- A legal operation advances the state and spares the other threads, or it ends the run. -/
def Alliance.Sound (exec : Exec S σ τ χ) (J : Alliance S σ τ) (K : Config S ε σ τ → Prop)
    (Over : σ → Prop) : Prop :=
  ∀ (cfg : Config S ε σ τ) (t : τ) (c : χ) (o : S.Op) (k : S.Res o → Program S ε Unit)
    (r : S.Res o) (s' : σ), K cfg → J.inv cfg.shared → cfg.prog t = .step o k →
    J.legal t cfg.shared o → J.assumed t cfg.shared o → exec t c o cfg.shared = some (r, s') →
    Over s' ∨ (J.inv s' ∧ J.advance cfg.shared s' ∧ (∀ u, u ≠ t → J.spare u cfg.shared s') ∧
      K ⟨s', Function.update cfg.prog t (k r)⟩)

omit [DecidableEq τ] in
/-- The next operation of a thread is legal. -/
lemma Allied.legal {cfg : Config S ε σ τ} (h : Allied exec J K Q cfg) {t : τ} {o : S.Op}
    {k : S.Res o → Program S ε Unit} (hprog : cfg.prog t = .step o k)
    (hassumed : J.assumed t cfg.shared o) : J.legal t cfg.shared o := by
  have hserves := h.serves t
  rw [hprog] at hserves
  exact (hserves cfg.shared h.inv (Alliance.Rely.refl _) hassumed).1

lemma Allied.step (hJ : J.Sound exec K Over) {cfg cfg' : Config S ε σ τ}
    (h : Allied exec J K Q cfg) (hstep : StepWithin exec J.assumed cfg cfg') :
    Over cfg'.shared ∨ Allied exec J K Q cfg' := by
  obtain ⟨hprog, hassumed, hexec⟩ := hstep
  rename_i t c o k r s'
  have hserves := h.serves t
  rw [hprog] at hserves
  obtain ⟨hlegal, hnext⟩ := hserves cfg.shared h.inv (Alliance.Rely.refl _) hassumed
  refine (hJ cfg t c o k r s' h.known h.inv hprog hlegal hassumed hexec).imp id ?_
  rintro ⟨hinv, hadvance, hspare, hknown⟩
  refine ⟨hinv, hknown, fun u => ?_⟩
  dsimp only
  by_cases hu : u = t
  · subst hu
    rw [Function.update_self]
    exact hnext c r s' hexec hinv hadvance
  · rw [Function.update_of_ne hu]
    exact (h.serves u).rely ⟨hadvance, hspare u hu⟩

/-- Allied threads stay so until the run is over. -/
theorem Allied.reach (hJ : J.Sound exec K Over)
    (hover : ∀ s t c o, Over s → exec t c o s = none) {cfg cfg' : Config S ε σ τ}
    (h : Allied exec J K Q cfg) (hreach : ReachWithin exec J.assumed cfg cfg') :
    Over cfg'.shared ∨ Allied exec J K Q cfg' := by
  induction hreach with
  | refl => exact Or.inr h
  | tail _ hstep ih =>
    rcases ih with hend | hallied
    · obtain ⟨-, -, hexec⟩ := hstep
      rw [hover _ _ _ _ hend] at hexec
      cases hexec
    · exact hallied.step hJ hstep

end Runs

/-! ## Schedules -/

section Schedules

variable {S : Signature} {ε α σ τ χ : Type}

/-- Performs so many operations of a program, as long as the condition holds. -/
def Program.advance (exec : Exec S σ τ χ) (P : τ → σ → S.Op → Prop)
    [∀ t s o, Decidable (P t s o)] (t : τ) (c : χ) :
    Nat → Program S ε α → σ → Option (Program S ε α × σ)
  | 0, p, s => some (p, s)
  | n + 1, .step o k, s =>
    if P t s o then (exec t c o s).bind fun rs => (k rs.1).advance exec P t c n rs.2 else none
  | _ + 1, _, _ => none

variable [DecidableEq τ]

/-- Lets threads perform so many operations each, one after the other. -/
def playWithin (exec : Exec S σ τ χ) (P : τ → σ → S.Op → Prop) [∀ t s o, Decidable (P t s o)] :
    List (τ × χ × Nat) → Config S ε σ τ → Option (Config S ε σ τ)
  | [], cfg => some cfg
  | (t, c, n) :: turns, cfg =>
    ((cfg.prog t).advance exec P t c n cfg.shared).bind fun ps =>
      playWithin exec P turns ⟨ps.2, Function.update cfg.prog t ps.1⟩

variable {exec : Exec S σ τ χ} {P : τ → σ → S.Op → Prop} [∀ t s o, Decidable (P t s o)]

lemma reach_of_advance {t : τ} {c : χ} {n : Nat} {p p' : Program S ε Unit} {s s' : σ}
    (h : p.advance exec P t c n s = some (p', s')) (prog : τ → Program S ε Unit)
    (hp : prog t = p) :
    ReachWithin exec P ⟨s, prog⟩ ⟨s', Function.update prog t p'⟩ := by
  induction n generalizing p s prog with
  | zero =>
    obtain ⟨rfl, rfl⟩ := Prod.mk.inj (Option.some.inj h)
    rw [← hp, Function.update_eq_self]
    exact Relation.ReflTransGen.refl
  | succ n ih =>
    cases p with
    | ret a => cases h
    | throw e => cases h
    | step o k =>
      rw [Program.advance] at h
      split at h
      · rename_i hP
        obtain ⟨⟨r, s₁⟩, hexec, h⟩ := Option.bind_eq_some_iff.mp h
        have hrest := ih h (Function.update prog t (k r)) (Function.update_self ..)
        rw [Function.update_idem] at hrest
        exact Relation.ReflTransGen.head (StepWithin.mk hp hP hexec) hrest
      · cases h

/-- What is played is a run. -/
lemma reach_of_playWithin {turns : List (τ × χ × Nat)} {cfg cfg' : Config S ε σ τ}
    (h : playWithin exec P turns cfg = some cfg') : ReachWithin exec P cfg cfg' := by
  induction turns generalizing cfg with
  | nil =>
    obtain rfl := Option.some.inj h
    exact Relation.ReflTransGen.refl
  | cons turn turns ih =>
    obtain ⟨t, c, n⟩ := turn
    obtain ⟨⟨p', s'⟩, hadvance, h⟩ := Option.bind_eq_some_iff.mp h
    exact Relation.ReflTransGen.trans (reach_of_advance hadvance cfg.prog rfl) (ih h)

end Schedules

/-! ## Recording what was done -/

section Recording

variable {S : Signature} {ε σ τ χ : Type}

/-- A state and the actions that led to it, the latest one first. -/
structure Moment (S : Signature) (σ τ : Type) where
  past : List (Action S τ)
  now : σ

/-- Executes an operation and keeps a record of it. -/
def recording (exec : Exec S σ τ χ) : Exec S (Moment S σ τ) τ χ := fun t c o m =>
  (exec t c o m.now).map (fun rs => (rs.1, ⟨⟨t, o, rs.1⟩ :: m.past, rs.2⟩))

lemma recording_eq_some {exec : Exec S σ τ χ} {t : τ} {c : χ} {o : S.Op} {m m' : Moment S σ τ}
    {r : S.Res o} : recording exec t c o m = some (r, m') ↔
      exec t c o m.now = some (r, m'.now) ∧ m'.past = ⟨t, o, r⟩ :: m.past := by
  rw [recording, Option.map_eq_some_iff]
  constructor
  · rintro ⟨⟨r', s'⟩, hexec, heq⟩
    cases heq
    exact ⟨hexec, rfl⟩
  · rintro ⟨hexec, hpast⟩
    obtain ⟨past', now'⟩ := m'
    cases hpast
    exact ⟨(r, now'), hexec, rfl⟩

variable [DecidableEq τ]

/-- Every run can be recorded. -/
theorem ReachWithin.record {exec : Exec S σ τ χ} {P : τ → σ → S.Op → Prop}
    {cfg cfg' : Config S ε σ τ} (h : ReachWithin exec P cfg cfg') (past : List (Action S τ)) :
    ∃ past', ReachWithin (recording exec) (fun t (m : Moment S σ τ) o => P t m.now o)
      ⟨⟨past, cfg.shared⟩, cfg.prog⟩ ⟨⟨past', cfg'.shared⟩, cfg'.prog⟩ := by
  induction h with
  | refl => exact ⟨past, Relation.ReflTransGen.refl⟩
  | tail _ hstep ih =>
    obtain ⟨past', hreach⟩ := ih
    obtain ⟨hprog, hP, hexec⟩ := hstep
    rename_i t c o k r s'
    refine ⟨⟨t, o, r⟩ :: past', hreach.tail ?_⟩
    exact StepWithin.mk hprog hP (recording_eq_some.mpr ⟨hexec, rfl⟩)

end Recording

end Lib
