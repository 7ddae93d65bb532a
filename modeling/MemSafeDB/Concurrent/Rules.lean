import MemSafeDB.Concurrent.Steps

/-!
# Programs among other threads

What a thread knows lasts while the others run, if it speaks of the pages that the thread holds, of
pages as long as a guard is fresh, or of what the thread has done itself. A program serves a thread
if its operations are legal and it ends with what is said of it, whatever the other threads do.
-/

namespace MemSafeDB
open Lib PageState

variable {τ : Type} [DecidableEq τ]

namespace Point

/-! ## Assertions that last -/

/-- The other threads do not invalidate the assertion. -/
class Lasts (t : τ) (A : Point τ → Prop) : Prop where
  lasts : ∀ m m', Inv m' → Advance m m' → Spare t m m' → A m → A m'

/-- Thread `t` holds the page, and `F` holds of it. -/
structure Knows (t : τ) (p : PID) (F : Sight → Prop) (m : Point τ) : Prop where
  holds : Holds t p m
  fact : F (m.now.sight p)

section Lasting

variable {t : τ} {A B : Point τ → Prop}

lemma Lasts.stable (h : Lasts t A) (steady : Prop) : (alliance steady).Stable t A :=
  fun m m' hi hr => h.lasts m m' hi hr.advance hr.spare

instance [hA : Lasts t A] [hB : Lasts t B] : Lasts t (fun m => A m ∧ B m) :=
  ⟨fun m m' hi ha hs h => ⟨hA.lasts m m' hi ha hs h.1, hB.lasts m m' hi ha hs h.2⟩⟩

instance {ι : Sort*} {A : ι → Point τ → Prop} [hA : ∀ i, Lasts t (A i)] :
    Lasts t (fun m => ∃ i, A i m) where
  lasts := by
    rintro m m' hi ha hs ⟨i, h⟩
    exact ⟨i, (hA i).lasts m m' hi ha hs h⟩

instance (P : Prop) : Lasts t (fun _ => P) := ⟨fun _ _ _ _ _ h => h⟩

instance {P : Prop} [hA : Lasts t A] : Lasts t (fun m => P → A m) :=
  ⟨fun m m' hi ha hs h hP => hA.lasts m m' hi ha hs (h hP)⟩

instance {P : Prop} [Decidable P] [hA : Lasts t A] [hB : Lasts t B] :
    Lasts t (fun m => if P then A m else B m) where
  lasts := by
    intro m m' hi ha hs h
    by_cases hP : P
    · rw [if_pos hP] at h ⊢
      exact hA.lasts m m' hi ha hs h
    · rw [if_neg hP] at h ⊢
      exact hB.lasts m m' hi ha hs h

instance (g : GuardO) [hA : Lasts t A] : Lasts t (While g A) :=
  ⟨fun m m' hi ha hs h => h.advance ha (fun _ => hA.lasts m m' hi ha hs)⟩

instance (g : GuardO) (F : Sight → Prop) : Lasts t (Sees g F) :=
  ⟨fun _ _ _ ha _ h => h.advance ha⟩

instance (X S : List PID) : Lasts t (Owns t X S) := ⟨fun _ _ _ _ hs h => h.spare hs⟩

instance (p : PID) : Lasts t (Given p) := ⟨fun _ _ _ ha _ h => ha.given p h⟩

instance (p : PID) (F : Sight → Prop) : Lasts t (Knows t p F) where
  lasts := by
    rintro m m' - - hs ⟨hp, hF⟩
    exact ⟨hs.holds.mpr hp, by rwa [hs.sight p hp]⟩

instance : Lasts t (fun m => Resting t m.now.trace) where
  lasts := by
    intro m m' _ _ hs h
    obtain ⟨es, hes, hsilent⟩ := hs.trace
    rw [hes]
    exact h.append hsilent

instance (c : Call) : Lasts t (fun m => Pending t c m.now.trace) where
  lasts := by
    intro m m' _ _ hs h
    obtain ⟨es, hes, hsilent⟩ := hs.trace
    rw [hes]
    exact h.append hsilent

instance (c : Call) (a : Answer) : Lasts t (fun m => Ready t c a m.now.trace) where
  lasts := by
    intro m m' _ _ hs h
    obtain ⟨es, hes, hsilent⟩ := hs.trace
    rw [hes]
    exact h.append hsilent

instance (c : Call) (a : Answer) : Lasts t (fun m => Returned t a c m.now.trace) where
  lasts := by
    intro m m' _ _ hs h
    obtain ⟨es, hes, hsilent⟩ := hs.trace
    rw [hes]
    exact h.append hsilent

end Lasting

/-! ## Programs -/

/-- The program of thread `t` is legal whatever the other threads do. -/
def Serves (steady : Prop) (t : τ) {α : Type} (p : Prog α) (m : Point τ) (Q : α → Point τ → Prop)
    (E : Point τ → Prop) : Prop :=
  Program.Serves (S := signature) (recording exec) (alliance steady) t Q (fun _ => E) p m

/-- The operation with this answer concerns neither the latches of the thread nor a page nor the
trace. -/
def Op.Quiet : (o : Op) → o.Res → Prop
  | .cas site _ _ _, ok => site = .unmark ∨ (ok : Bool) = false
  | .storeUnlocked _ _, _ | .construct _ _, _ | .setUpperInnerNode _ _, _ | .setRoot _, _
  | .insertInPage _ _ _, _ | .removeSlot _ _, _ | .updatePayload _ _ _, _
  | .mergeNodes _ _ _ _, _ | .splitNode _ _ _ _ _, _ | .call _, _ | .ret _, _ | .crash _, _ => False
  | _, _ => True

/-- A quiet operation spares the thread that performs it. -/
lemma spare_quiet {t : τ} {c : Choice} {o : Op} {r : o.Res} {m m' : Point τ} (ho : Op.Quiet o r)
    (h : Sys.perform t c o m.now = some (r, m'.now)) (hpast : m'.past = ⟨t, o, r⟩ :: m.past) :
    Spare t m m' := by
  have htouched : o.touched = [] := by cases o <;> first | rfl | exact ho.elim
  have hlatched : ∀ p, Latched m'.past t p → Latched m.past t p := by
    intro p hp
    rw [hpast, latched_cons] at hp
    · exact hp
    · rintro old new heq
      cases heq
      rcases ho with hsite | hok
      · cases hsite
      · cases hok
  have hparts : ∀ s : Sys τ, s = m'.now → s.xHolders = m.now.xHolders →
      s.sHolders = m.now.sHolders → s.trace = m.now.trace → Spare t m m' := by
    rintro s rfl hx hs ht
    exact ⟨fun p => by rw [hx], fun p => by rw [hs],
      fun p _ => sight_perform h (by simp [htouched]), hlatched,
      ⟨[], by rw [ht, List.append_nil], silent_nil t⟩⟩
  cases o with
  | cas site p old new =>
    simp only [Sys.perform] at h
    split at h
    · obtain ⟨hr, hnow⟩ := Prod.mk.inj (Option.some.inj h)
      rcases ho with rfl | hok
      · exact hparts _ hnow rfl rfl rfl
      · rw [← hr] at hok
        cases hok
    · obtain ⟨-, hnow⟩ := Prod.mk.inj (Option.some.inj h)
      exact hparts _ hnow rfl rfl rfl
  | residentInsert p =>
    obtain ⟨-, hnow⟩ := Prod.mk.inj (Option.some.inj h)
    unfold Sys.residentInsert at hnow
    split at hnow <;> exact hparts _ hnow rfl rfl rfl
  | halt => cases h
  | storeUnlocked p v => exact ho.elim
  | construct p b => exact ho.elim
  | setUpperInnerNode p q => exact ho.elim
  | setRoot p => exact ho.elim
  | insertInPage p k v => exact ho.elim
  | removeSlot p i => exact ho.elim
  | updatePayload p i fn => exact ho.elim
  | mergeNodes p i q z => exact ho.elim
  | splitNode p q z i k => exact ho.elim
  | call c => exact ho.elim
  | ret a => exact ho.elim
  | crash f => exact ho.elim
  | _ =>
    obtain ⟨-, hnow⟩ := Prod.mk.inj (Option.some.inj h)
    exact hparts _ hnow rfl rfl rfl

/-! ## Own operations -/

/-- What an operation that takes or returns no latch leaves to the thread that performs it. -/
structure Acted (o : Op) (m m' : Point τ) : Prop where
  advance : Advance m m'
  xHolders : m'.now.xHolders = m.now.xHolders
  sHolders : m'.now.sHolders = m.now.sHolders
  sight : ∀ p, p ∉ o.touched → m'.now.sight p = m.now.sight p

/-- What an operation that takes or returns a latch leaves to the thread that performs it. -/
structure Relatched (m m' : Point τ) : Prop where
  advance : Advance m m'
  sight : ∀ p, m'.now.sight p = m.now.sight p
  trace : m'.now.trace = m.now.trace

section Own

variable {t : τ} {c : Choice} {o : Op} {r : o.Res} {m m' : Point τ} {p : PID} {F : Sight → Prop}
  {X S : List PID}

lemma acted (ho : ¬o.Latching) (h : Sys.perform t c o m.now = some (r, m'.now))
    (ha : Advance m m') : Acted o m m' :=
  have hs := sameLatches_perform ho h
  ⟨ha, hs.xHolders, hs.sHolders, fun _ hp => sight_perform h hp⟩

lemma Owns.acted (ho : Owns t X S m) (h : Acted o m m') : Owns t X S m' :=
  ⟨fun p => by rw [h.xHolders, ho.exclusive], fun p => by rw [h.sHolders, ho.shared]⟩

lemma Owns.lockX (ho : Owns t X S m)
    (hx : m'.now.xHolders = Function.update m.now.xHolders p (t :: m.now.xHolders p))
    (hs : m'.now.sHolders = m.now.sHolders) : Owns t (p :: X) S m' := by
  refine ⟨fun q => ?_, fun q => by rw [hs, ho.shared]⟩
  rw [hx, List.count_cons, ← ho.exclusive q]
  by_cases hq : q = p
  · subst hq
    simp
  · rw [Function.update_of_ne hq, if_neg (by simpa using Ne.symm hq), Nat.add_zero]

lemma Owns.unlockX (ho : Owns t (p :: X) S m)
    (hx : m'.now.xHolders = Function.update m.now.xHolders p ((m.now.xHolders p).erase t))
    (hs : m'.now.sHolders = m.now.sHolders) : Owns t X S m' := by
  refine ⟨fun q => ?_, fun q => by rw [hs, ho.shared]⟩
  have hcount := ho.exclusive q
  rw [List.count_cons] at hcount
  rw [hx]
  by_cases hq : q = p
  · subst hq
    rw [Function.update_self, List.count_erase_self]
    simp only [beq_self_eq_true, ite_true] at hcount
    omega
  · rw [Function.update_of_ne hq, hcount, if_neg (by simpa using Ne.symm hq), Nat.add_zero]

lemma Owns.lockS (ho : Owns t X S m) (hx : m'.now.xHolders = m.now.xHolders)
    (hs : m'.now.sHolders = Function.update m.now.sHolders p (t :: m.now.sHolders p)) :
    Owns t X (p :: S) m' := by
  refine ⟨fun q => by rw [hx, ho.exclusive], fun q => ?_⟩
  rw [hs, List.count_cons, ← ho.shared q]
  by_cases hq : q = p
  · subst hq
    simp
  · rw [Function.update_of_ne hq, if_neg (by simpa using Ne.symm hq), Nat.add_zero]

lemma Owns.unlockS (ho : Owns t X (p :: S) m) (hx : m'.now.xHolders = m.now.xHolders)
    (hs : m'.now.sHolders = Function.update m.now.sHolders p ((m.now.sHolders p).erase t)) :
    Owns t X S m' := by
  refine ⟨fun q => by rw [hx, ho.exclusive], fun q => ?_⟩
  have hcount := ho.shared q
  rw [List.count_cons] at hcount
  rw [hs]
  by_cases hq : q = p
  · subst hq
    rw [Function.update_self, List.count_erase_self]
    simp only [beq_self_eq_true, ite_true] at hcount
    omega
  · rw [Function.update_of_ne hq, hcount, if_neg (by simpa using Ne.symm hq), Nat.add_zero]

/-- A page that has just been latched, or is held anyway. -/
lemma Knows.of_relatched (hm : Relatched m m') (ho : Owns t X S m') (hp : p ∈ X ∨ p ∈ S)
    (hF : F (m.now.sight p)) : Knows t p F m' :=
  ⟨ho.holds.mpr hp, by rwa [hm.sight p]⟩

end Own

/-! ## What own operations leave alone -/

/-- The assertion speaks of the trace and of the pages `X`, which thread `t` holds. -/
class About (t : τ) (X : List PID) (A : Point τ → Prop) : Prop where
  keep : ∀ m m', Advance m m' → (∀ p ∈ X, Holds t p m' ∧ m'.now.sight p = m.now.sight p) →
    m'.now.trace = m.now.trace → A m → A m'

section Keeping

variable {t : τ} {A B : Point τ → Prop} {X : List PID}

instance [hA : About t X A] [hB : About t X B] : About t X (fun m => A m ∧ B m) :=
  ⟨fun m m' ha hX ht h => ⟨hA.keep m m' ha hX ht h.1, hB.keep m m' ha hX ht h.2⟩⟩

instance {ι : Sort*} {A : ι → Point τ → Prop} [hA : ∀ i, About t X (A i)] :
    About t X (fun m => ∃ i, A i m) where
  keep := by
    rintro m m' ha hX ht ⟨i, h⟩
    exact ⟨i, (hA i).keep m m' ha hX ht h⟩

instance (P : Prop) : About t X (fun _ => P) := ⟨fun _ _ _ _ _ h => h⟩

instance (p : PID) (F : Sight → Prop) : About t (p :: X) (Knows t p F) where
  keep := by
    intro m m' _ hX _ h
    obtain ⟨hp, hsight⟩ := hX p List.mem_cons_self
    exact ⟨hp, by rw [hsight]; exact h.fact⟩

instance (p : PID) [hA : About t X A] : About t (p :: X) A :=
  ⟨fun m m' ha hX => hA.keep m m' ha (fun q hq => hX q (List.mem_cons_of_mem p hq))⟩

instance (g : GuardO) [hA : About t X A] : About t X (While g A) :=
  ⟨fun m m' ha hX ht h => h.advance ha (fun _ => hA.keep m m' ha hX ht)⟩

instance (g : GuardO) (F : Sight → Prop) : About t X (Sees g F) := ⟨fun _ _ ha _ _ h => h.advance ha⟩

instance (P : List (Event τ) → Prop) : About t X (fun m => P m.now.trace) :=
  ⟨fun _ _ _ _ ht h => by rwa [ht]⟩

end Keeping

section Rules

variable {steady : Prop} {t : τ} {α β : Type} {A B E : Point τ → Prop} {m : Point τ}

namespace Serves

lemma pure {a : α} {Q : α → Point τ → Prop} [hQ : Lasts t (Q a)] (h : Q a m) :
    Serves steady t (Pure.pure a) m Q E := Program.Serves.ret (hQ.stable steady) h

lemma restart {Q : α → Point τ → Prop} [hE : Lasts t E] (h : E m) :
    Serves steady t (MemSafeDB.restart : Prog α) m Q E := Program.Serves.throw (hE.stable steady) h

lemma mono {p : Prog α} {Q Q' : α → Point τ → Prop} {E' : Point τ → Prop}
    (h : Serves steady t p m Q E) (hQ : ∀ a m', Inv m' → Q a m' → Q' a m')
    (hE : ∀ m', Inv m' → E m' → E' m') : Serves steady t p m Q' E' :=
  Program.Serves.mono h hQ (fun _ => hE)

lemma bind {p : Prog α} {f : α → Prog β} {Q : α → Point τ → Prop} {R : β → Point τ → Prop}
    (hi : Inv m) (h : Serves steady t p m Q E)
    (hf : ∀ a m', Inv m' → Q a m' → Serves steady t (f a) m' R E) :
    Serves steady t (p >>= f) m R E := Program.Serves.bind hi h hf

lemma onThrow {p : Prog α} {cleanup : Prog Unit} {Q : α → Point τ → Prop} {E' : Point τ → Prop}
    [hE : Lasts t E'] (hi : Inv m) (h : Serves steady t p m Q E)
    (hc : ∀ m', Inv m' → E m' → Serves steady t cleanup m' (fun _ => E') E') :
    Serves steady t (p.onThrow cleanup) m Q E' :=
  Program.Serves.onThrow hi h (fun _ => hc) (fun _ => hE.stable steady)

/-- One operation. -/
lemma op {o : Op} {Q : o.Res → Point τ → Prop} [hA : Lasts t A] [hQ : ∀ r, Lasts t (Q r)] (h : A m)
    (hop : ∀ m, Inv m → A m → m.now.Assumed steady t o → Legal steady t m o ∧ ∀ c r m',
      Sys.perform t c o m.now = some (r, m'.now) → m'.past = ⟨t, o, r⟩ :: m.past → Inv m' →
      Advance m m' → Q r m') :
    Serves steady t (Program.op (S := signature) o) m Q E := by
  refine Program.Serves.op (hA.stable steady) h (fun r => (hQ r).stable steady)
    (fun m hi hA' hassumed => ?_)
  obtain ⟨hlegal, hnext⟩ := hop m hi hA' hassumed
  refine ⟨hlegal, fun c r m' hexec hi' hadvance => ?_⟩
  obtain ⟨hexec, hpast⟩ := recording_eq_some.mp hexec
  exact hnext c r m' (perform_of_exec hexec).2 hpast hi' hadvance

/-- An operation that is quiet, whatever it answers. What it tells is told of the state before. -/
lemma quiet {o : Op} {Q : o.Res → Point τ → Prop} [hA : Lasts t A] [hQ : ∀ r, Lasts t (Q r)]
    (ho : ∀ r, Op.Quiet o r) (h : A m) (hop : ∀ m, Inv m → A m → m.now.Assumed steady t o →
      Legal steady t m o ∧ ∀ c r s', Sys.perform t c o m.now = some (r, s') → Q r m) :
    Serves steady t (Program.op (S := signature) o) m Q E := by
  refine op h (fun m hi hA' hassumed => ?_)
  obtain ⟨hlegal, hnext⟩ := hop m hi hA' hassumed
  refine ⟨hlegal, fun c r m' hperform hpast hi' hadvance => ?_⟩
  exact (hQ r).lasts m m' hi' hadvance (spare_quiet (ho r) hperform hpast) (hnext c r _ hperform)

/-- An operation that takes or returns no latch. -/
lemma act {o : Op} {Q : o.Res → Point τ → Prop} [hA : Lasts t A] [hQ : ∀ r, Lasts t (Q r)]
    (ho : ¬o.Latching) (h : A m) (hop : ∀ m, Inv m → A m → m.now.Assumed steady t o →
      Legal steady t m o ∧ ∀ c r m', Sys.perform t c o m.now = some (r, m'.now) → Inv m' →
        Acted o m m' → Q r m') :
    Serves steady t (Program.op (S := signature) o) m Q E := by
  refine op h (fun m hi hA' hassumed => ?_)
  obtain ⟨hlegal, hnext⟩ := hop m hi hA' hassumed
  refine ⟨hlegal, fun c r m' hperform _ hi' hadvance => ?_⟩
  exact hnext c r m' hperform hi' (acted ho hperform hadvance)

lemma halt {Q : α → Point τ → Prop} : Serves steady t (MemSafeDB.halt : Prog α) m Q E :=
  fun m _ _ _ => ⟨trivial, fun c r m' hexec => by
    obtain ⟨hexec, -⟩ := recording_eq_some.mp hexec
    cases (perform_of_exec hexec).2⟩

/-- After a crash nothing comes. -/
lemma crash {f : Fault} (hf : Expected f) {Q : α → Point τ → Prop} :
    Serves steady t (MemSafeDB.crash f : Prog α) m Q E := by
  refine fun m _ _ _ => ⟨hf, fun c r m' hexec hi' _ => ?_⟩
  obtain ⟨hexec, -⟩ := recording_eq_some.mp hexec
  obtain ⟨-, hnow⟩ := Prod.mk.inj (Option.some.inj (perform_of_exec hexec).2)
  have hcrashed := hi'.crashed
  rw [← hnow] at hcrashed
  cases hcrashed

lemma assert (a : Assertion) (P : Prop) [Decidable P] [Lasts t A] (h : A m) :
    Serves steady t (MemSafeDB.assert a P) m (fun _ m => A m ∧ P) E := by
  unfold MemSafeDB.assert
  split
  · rename_i hP
    exact pure ⟨h, hP⟩
  · exact crash (Or.inr ⟨a, rfl⟩)

lemma ite {P : Prop} [Decidable P] {p q : Prog α} {Q : α → Point τ → Prop}
    (hp : P → Serves steady t p m Q E) (hq : ¬P → Serves steady t q m Q E) :
    Serves steady t (if P then p else q) m Q E := by
  split
  · exact hp ‹_›
  · exact hq ‹_›

/-! ### Single operations -/

lemma load {site : LoadSite} {p : PID} {Q : Word → Point τ → Prop} [Lasts t A]
    [hQ : ∀ v, Lasts t (Q v)] (h : A m)
    (hv : ∀ m, Inv m → A m → m.now.Assumed steady t (.load site p) → Q (m.now.word p) m) :
    Serves steady t (MemSafeDB.load site p) m Q E := by
  have : ∀ r : (Op.load site p).Res, Lasts t (Q r) := hQ
  refine quiet (fun _ => trivial) h (fun m hi hA' hassumed => ⟨trivial, ?_⟩)
  intro c r s' hperform
  obtain ⟨rfl, -⟩ := Prod.mk.inj (Option.some.inj hperform)
  exact hv m hi hA' hassumed

lemma yield {p : PID} {mode : LatchMode} [Lasts t A] (h : A m)
    (hwait : ∀ m, Inv m → A m → steady → MayWait t m p) :
    Serves steady t (MemSafeDB.yield (some (p, mode))) m (fun _ => A) E :=
  quiet (fun _ => trivial) h (fun m hi hA' _ => ⟨hwait m hi hA', fun _ _ _ _ => hA'⟩)

/-- An operation that is quiet and always legal, and tells nothing. -/
lemma skip {o : Op} [Lasts t A] (ho : ∀ r, Op.Quiet o r) (hlegal : ∀ m, Legal steady t m o)
    (h : A m) : Serves steady t (Program.op (S := signature) o) m (fun _ => A) E :=
  quiet ho h (fun m _ hA' _ => ⟨hlegal m, fun _ _ _ _ => hA'⟩)

lemma view {p : PID} {Q : BTreeNode → Point τ → Prop} [Lasts t A]
    [hQ : ∀ n, Lasts t (Q n)] (h : A m) (hn : ∀ m, Inv m → A m → Q (m.now.page p) m) :
    Serves steady t (MemSafeDB.view p) m Q E := by
  have : ∀ r : (Op.view p).Res, Lasts t (Q r) := hQ
  refine quiet (fun _ => trivial) h (fun m hi hA' _ => ⟨trivial, ?_⟩)
  intro c r s' hperform
  obtain ⟨rfl, -⟩ := Prod.mk.inj (Option.some.inj hperform)
  exact hn m hi hA'

/-- A marked page is unmarked, or its word has changed. -/
lemma unmark {p : PID} {old new : Word} [Lasts t A] [Lasts t B] (h : A m)
    (hv : ∀ m, Inv m → A m → m.now.word p = old → B m) :
    Serves steady t (cas .unmark p old new) m (fun ok m => A m ∧ (ok = true → B m)) E := by
  refine quiet (fun _ => Or.inl rfl) h (fun m hi hA' _ => ⟨trivial, ?_⟩)
  intro c r s' hperform
  refine ⟨hA', fun hr => ?_⟩
  simp only [Sys.perform] at hperform
  split at hperform
  · rename_i hold
    exact hv m hi hA' hold.1
  · obtain ⟨hfalse, -⟩ := Prod.mk.inj (Option.some.inj hperform)
    rw [hr] at hfalse
    cases hfalse

/-- A compare-exchange that takes or returns a latch, or fails. -/
lemma cas {site : CasSite} {p : PID} {old new : Word} [hA : Lasts t A] [hB : Lasts t B] (h : A m)
    (hlegal : ∀ m, Inv m → A m → Legal steady t m (.cas site p old new))
    (hok : ∀ m m', Inv m → A m → m.now.word p = old → m.now.cas t site p new = m'.now → Inv m' →
      Relatched m m' → B m') :
    Serves steady t (MemSafeDB.cas site p old new) m (fun ok m => if ok then B m else A m) E := by
  have hlasts : ∀ ok : Bool, Lasts t (fun m => if ok then B m else A m) := fun _ => inferInstance
  have : ∀ r : (Op.cas site p old new).Res,
      Lasts t ((fun (ok : Bool) m => if ok then B m else A m) r) := hlasts
  refine op h (fun m hi hA' hassumed => ⟨hlegal m hi hA', ?_⟩)
  intro c ok m' hperform hpast hi' hadvance
  simp only [Sys.perform] at hperform
  split at hperform
  · rename_i heq
    obtain ⟨rfl, hnow⟩ := Prod.mk.inj (Option.some.inj hperform)
    exact hok m m' hi hA' heq.1 hnow hi'
      ⟨hadvance, fun q => by rw [← hnow]; rfl, by rw [← hnow]; rfl⟩
  · rename_i hne
    obtain ⟨rfl, hnow⟩ := Prod.mk.inj (Option.some.inj hperform)
    have hquiet : Op.Quiet (.cas site p old new) false := Or.inr rfl
    refine hA.lasts m m' hi' hadvance (spare_quiet (c := c) hquiet ?_ hpast) hA'
    rw [Sys.perform, if_neg hne, hnow]

/-- A latch is taken, or its word has changed. -/
lemma tryLockX {p : PID} {old : Word} {X S : List PID} [Lasts t A] [Lasts t B] (h : A m)
    (hown : ∀ m, A m → Owns t X S m)
    (hold : ∀ m, A m → getState old = Evicted → Drew m.past t p)
    (hB : ∀ m m', Inv m → A m → m.now.word p = old → Inv m' → Relatched m m' →
      Owns t (p :: X) S m' → B m') :
    Serves steady t (PageState.tryLockX p old) m (fun ok m => if ok then B m else A m) E := by
  refine cas h (fun m _ hA hev _ => hold m hA hev) ?_
  intro m m' hi hA heq hnow hi' hm
  exact hB m m' hi hA heq hi' hm
    ((hown m hA).lockX (by rw [← hnow]; rfl) (by rw [← hnow]; rfl))

lemma tryLockS {p : PID} {old : Word} {X S : List PID} [Lasts t A] [Lasts t B] (h : A m)
    (hown : ∀ m, A m → Owns t X S m)
    (hB : ∀ m m', Inv m → A m → m.now.word p = old →
      getState old < MaxShared ∨ getState old = Marked → Inv m' → Relatched m m' →
      Owns t X (p :: S) m' → B m') :
    Serves steady t (PageState.tryLockS p old) m (fun ok m => if ok then B m else A m) E := by
  have hlock : ∀ new, getState old < MaxShared ∨ getState old = Marked →
      Serves steady t (MemSafeDB.cas .lockS p old new) m
        (fun ok m => if ok then B m else A m) E := by
    intro new hstate
    refine cas h (fun _ _ _ => trivial) ?_
    intro m m' hi hA heq hnow hi' hm
    exact hB m m' hi hA heq hstate hi' hm
      ((hown m hA).lockS (by rw [← hnow]; rfl) (by rw [← hnow]; rfl))
  unfold PageState.tryLockS
  split
  · exact hlock _ (Or.inl ‹_›)
  · split
    · exact hlock _ (Or.inr ‹_›)
    · exact pure (Q := fun (ok : Bool) m => if ok then B m else A m) h

end Serves

end Rules

end Point

end MemSafeDB
