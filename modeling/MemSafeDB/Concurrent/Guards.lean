import MemSafeDB.Concurrent.Rules

/-!
# Guards and latches among other threads

What the functions of the guards and of the buffer manager do for a thread, whatever the others do.
A check that succeeds tells that the page is as it was when its version was recorded; so does an
upgrade, which then keeps the page as it is.
-/

namespace MemSafeDB
open Lib PageState

variable {τ : Type} [DecidableEq τ]

namespace Point

variable {m : Point τ} {p : PID} {g : GuardO}

lemma Inv.fresh (hi : Inv m) (hversion : PageState.version (m.now.word g.pid) = PageState.version g.version)
    (hfree : getState (m.now.word g.pid) ≠ Locked) : Fresh g m :=
  ⟨(hi.version g.pid).symm.trans hversion, (hi.held g.pid).free hfree⟩

/-- A version that has just been recorded. -/
lemma Inv.fresh_word (hi : Inv m) (hle : getState (m.now.word p) ≤ MaxShared) :
    Fresh ⟨p, m.now.word p⟩ m :=
  hi.fresh rfl (Nat.lt_succ_of_le hle).ne

omit [DecidableEq τ] in
/-- What holds of the page when its version is recorded. -/
lemma Fresh.sees {F : Sight → Prop} (hf : Fresh g m) (hg : getState g.version ≤ MaxShared)
    (hF : F (m.now.sight g.pid)) : Sees g F m := ⟨hg, hf.unlocks.ge, fun _ => hF⟩

/-- The states of a page that has been given out. -/
lemma Inv.state (hi : Inv m) (hp : Given p m) : getState (m.now.word p) = Marked ∨
    getState (m.now.word p) = Locked ∨ getState (m.now.word p) ≤ MaxShared := by
  cases hi.held p with
  | locked _ hstate _ _ => exact Or.inr (Or.inl hstate)
  | shared hstate hle _ => exact Or.inr (Or.inr (hstate ▸ hle))
  | marked hstate _ _ => exact Or.inl hstate
  | evicted hstate _ _ => exact absurd hstate hp

/-- Only pages that have been given out are latched. -/
lemma Inv.lt_allocCount {t : τ} (hi : Inv m) (h : t ∈ m.now.sHolders p) : p < m.now.allocCount := by
  obtain ⟨ms, hprotocol⟩ := hi.protocol
  by_cases hp : p = metadataPageId
  · rw [hp]
    exact hprotocol.alloc
  have hgiven : GivenOut m.past p := by
    by_contra hnot
    have hevicted := (hprotocol.page p).untouched hp hnot
    have hheld := (hprotocol.page p).held (hi.unlocks p)
    rw [(hheld.of_lockable (Or.inr (Or.inr hevicted))).2] at h
    cases h
  obtain ⟨u, hdrew, -⟩ := hgiven
  exact (hprotocol.drew u p hdrew).2.1

/-- A thread that holds nothing may wait for any page. -/
lemma Owns.mayWait {t : τ} (h : Owns t [] [] m) : MayWait t m p := by
  intro q hq
  rw [h.holds] at hq
  rcases hq with hq | hq <;> cases hq

section Rules

variable {steady : Prop} {t : τ} {A B E : Point τ → Prop} {X S : List PID} [Lasts t A]

namespace Serves

/-! ## Optimistic guards -/

/-- A check that returns tells that the guard is fresh. -/
lemma check [Lasts t B] [Lasts t E] (hi : Inv m) (hg : getState g.version ≤ MaxShared) (h : A m)
    (hE : ∀ m, A m → E m) (hB : ∀ m, Inv m → A m → Fresh g m → B m) :
    Serves steady t (g.checkVersionAndRestart false) m (fun _ m => A m ∧ B m) E := by
  refine bind (Q := fun v m => A m ∧ ((g.version = v ∨ (versionEq v g.version = true ∧
    getState v ≤ MaxShared)) → B m)) hi (load h (fun m hi hA _ => ⟨hA, ?_⟩)) ?_
  · rintro (heq | ⟨hversion, hle⟩)
    · exact hB m hi hA (hi.fresh (by rw [heq]) (by rw [← heq]; exact (Nat.lt_succ_of_le hg).ne))
    · exact hB m hi hA (hi.fresh (versionEq_iff.mp hversion) (Nat.lt_succ_of_le hle).ne)
  rintro v m hi ⟨hA, hv⟩
  refine ite (fun heq => pure ⟨hA, hv (Or.inl heq)⟩) (fun _ => ?_)
  refine ite (fun hversion => ?_) (fun _ => restart (hE m hA))
  refine ite (fun hle => pure ⟨hA, hv (Or.inr ⟨hversion, hle⟩)⟩) (fun _ => ?_)
  refine ite (fun hmarked => ?_) (fun _ => restart (hE m hA))
  refine bind (Q := fun ok m => A m ∧ (ok = true → B m)) hi (unmark hA (fun m hi hA heq => ?_)) ?_
  · refine hB m hi hA (hi.fresh ?_ ?_)
    · rw [heq]
      exact versionEq_iff.mp hversion
    · rw [heq, hmarked]
      decide
  · rintro ok m hi ⟨hA, hok⟩
    exact ite (fun htrue => pure ⟨hA, hok htrue⟩) (fun _ => restart (hE m hA))

/-- A check during unwinding returns. -/
lemma unwind (hi : Inv m) (h : A m) : Serves steady t g.unwind m (fun _ => A) E := by
  refine bind (Q := fun _ => A) hi (load h (fun m _ hA _ => hA)) ?_
  intro v m hi hA
  refine ite (fun _ => pure hA) (fun _ => ite (fun _ => ?_) (fun _ => pure hA))
  refine ite (fun _ => pure hA) (fun _ => ite (fun _ => ?_) (fun _ => pure hA))
  refine bind (Q := fun _ => A) hi ((unmark (B := fun _ => True) hA (fun _ _ _ _ => trivial)).mono
    (fun _ _ _ h => h.1) (fun _ _ h => h)) ?_
  intro ok m _ hA
  exact ite (fun _ => pure hA) (fun _ => pure hA)

/-- The recorded version is that of the page at this moment. -/
lemma init {B : Word → Point τ → Prop} [∀ v, Lasts t (B v)] (hi : Inv m) (h : A m)
    (hown : ∀ m, A m → Owns t [] S m) (hgiven : ∀ m, Inv m → A m → Given p m)
    (hB : ∀ v m, Inv m → A m → Fresh ⟨p, v⟩ m → getState v ≤ MaxShared → B v m) (fuel : Nat) :
    Serves steady t (GuardO.init p fuel) m (fun v m => A m ∧ B v m) E := by
  induction fuel generalizing m with
  | zero => exact halt
  | succ fuel ih =>
    have hagain : (steady → S = []) → ∀ m, Inv m → A m → Serves steady t (do
        MemSafeDB.yield (some (p, .optimistic))
        GuardO.init p fuel) m (fun v m => A m ∧ B v m) E := by
      intro hS m hi hA
      refine bind hi (yield hA (fun m _ hA hsteady => ?_)) (fun _ m hi hA => ih hi hA)
      exact (hS hsteady ▸ hown m hA).mayWait
    refine bind (Q := fun v m => A m ∧ (getState v = Marked ∨ getState v = Locked ∨
      getState v ≤ MaxShared) ∧ (steady → S = []) ∧ (getState v ≤ MaxShared → B v m)) hi
      (load h (fun m hi hA hassumed => ?_)) ?_
    · refine ⟨hA, hi.state (hgiven m hi hA), fun hsteady => ?_, fun hle => ?_⟩
      · -- without a shared latch, as assumed of steady runs
        refine List.eq_nil_iff_forall_not_mem.mpr (fun q hq => ?_)
        have hholder := (hown m hA).mem_sHolders.mpr hq
        exact hassumed hsteady q (hi.lt_allocCount hholder) hholder
      · exact hB _ m hi hA (hi.fresh_word hle) hle
    rintro v m hi ⟨hA, hstate, hS, hv⟩
    refine ite (fun hmarked => ?_) (fun hmarked => ?_)
    · refine bind (Q := fun ok m => A m ∧ (ok = true → B (sameVersion v Unlocked) m)) hi
        (unmark hA (fun m hi hA heq => ?_)) ?_
      · have hunlocked : getState (sameVersion v Unlocked) = Unlocked :=
          getState_sameVersion _ (by decide)
        refine hB _ m hi hA (hi.fresh ?_ ?_) (by rw [hunlocked]; decide)
        · rw [heq, version_sameVersion _ (by decide)]
        · rw [heq, hmarked]
          decide
      · rintro ok m hi ⟨hA, hok⟩
        exact ite (fun htrue => pure ⟨hA, hok htrue⟩) (fun _ => hagain hS m hi hA)
    · refine ite (fun _ => hagain hS m hi hA) (fun hlocked => ?_)
      have hle := (hstate.resolve_left hmarked).resolve_left hlocked
      rw [if_neg (Nat.lt_of_le_of_lt hle (by decide)).ne]
      exact pure ⟨hA, hv hle⟩

lemma ofPid {env : Env} {B : GuardO → Point τ → Prop} [∀ g, Lasts t (B g)] (hi : Inv m) (h : A m)
    (hown : ∀ m, A m → Owns t [] S m) (hgiven : ∀ m, Inv m → A m → Given p m)
    (hB : ∀ g m, Inv m → A m → g.pid = p → Fresh g m → getState g.version ≤ MaxShared → B g m) :
    Serves steady t (GuardO.ofPid env p) m (fun g m => g.pid = p ∧ A m ∧ B g m) E := by
  refine bind hi (init (B := fun v m => B ⟨p, v⟩ m) hi h hown hgiven
    (fun v m hi hA hf hle => hB ⟨p, v⟩ m hi hA rfl hf hle) env.fuel) ?_
  rintro v m hi ⟨hA, hB⟩
  exact pure ⟨rfl, hA, hB⟩

/-- A guard that is opened through its parent: what the parent tells of the page holds while both
are fresh. -/
lemma ofParent {env : Env} {parent : GuardO} {F : Sight → Prop} [Lasts t E] (hi : Inv m) (h : A m)
    (hE : ∀ m, A m → E m) (hown : ∀ m, A m → Owns t [] S m)
    (hparent : ∀ m, A m → Sees parent (fun _ => True) m)
    (hF : ∀ m, Inv m → A m → Fresh parent m → F (m.now.sight p))
    (hlevel : ∀ s, F s → ∃ l, s.level = some l) :
    Serves steady t (GuardO.ofParent env p parent) m (fun g m => g.pid = p ∧ A m ∧
      While parent (Sees g F) m ∧ Sees g (fun _ => True) m) E := by
  refine ite (fun _ => restart (hE m h)) (fun _ => ?_)
  refine bind hi (check (B := Given p) hi (hparent m h).state h hE (fun m hi hA hf => ?_)) ?_
  · obtain ⟨l, hl⟩ := hlevel _ (hF m hi hA hf)
    exact hi.given p l hl
  rintro _ m hi hA
  refine (ofPid (A := fun m => A m ∧ Given p m)
    (B := fun g m => While parent (Sees g F) m ∧ Sees g (fun _ => True) m) hi hA
    (fun m hA => hown m hA.1) (fun m _ hA => hA.2) ?_).mono ?_ (fun _ _ h => h)
  · rintro g m hi ⟨hA, -⟩ hp hf hle
    refine ⟨⟨(hparent m hA).state, (hparent m hA).unlocks, fun hpar => ?_⟩, hf.sees hle trivial⟩
    exact hf.sees hle (hp ▸ hF m hi hA hpar)
  · rintro g m - ⟨hp, ⟨hA, -⟩, hB⟩
    exact ⟨hp, hA, hB⟩

lemma readPage_also {β : Type} {r : PageRead β} {F : Sight → Prop} [hE : Lasts t E] (hi : Inv m)
    (h : A m) (hg : Sees g F m) (hAE : ∀ m, A m → E m) :
    Serves steady t (MemSafeDB.readPage g.pid r) m (fun b m => A m ∧
      Sees g (fun s => F s ∧ (s.page.ReadsInPage r → s.page.read r = .ok b)) m) E := by
  induction r generalizing m F with
  | ret a => exact pure ⟨h, hg.mono (fun _ hF => ⟨hF, fun _ => rfl⟩)⟩
  | throw e =>
    cases e
    exact restart (hAE m h)
  | step l k ih =>
    refine bind (Q := fun v m => A m ∧ Sees g (fun s => F s ∧ (l.InPage → v = s.page.fetch l)) m) hi
      ?_ ?_
    · have hlasts : ∀ v : Nat, Lasts t (fun m => A m ∧
          Sees g (fun s => F s ∧ (l.InPage → v = s.page.fetch l)) m) := fun _ => inferInstance
      have : ∀ v : (Op.peek g.pid l).Res, Lasts t ((fun (v : Nat) m => A m ∧
          Sees g (fun s => F s ∧ (l.InPage → v = s.page.fetch l)) m) v) := hlasts
      refine quiet (A := fun m => A m ∧ Sees g F m) (fun _ => trivial) ⟨h, hg⟩
        (fun m hi hA _ => ⟨trivial, fun c v s' hperform => ⟨hA.1, hA.2.state, hA.2.unlocks, ?_⟩⟩)
      obtain ⟨rfl, -⟩ := Prod.mk.inj (Option.some.inj hperform)
      intro hf
      refine ⟨hA.2.fresh hf, fun hl => ?_⟩
      have hreadable : m.now.Readable t g.pid := by
        intro u hu
        rw [hf.free] at hu
        cases hu
      exact if_pos ⟨hl, hreadable⟩
    · rintro v m hi ⟨hA, hv⟩
      refine (ih v hi hA hv).mono ?_ (fun _ _ h => h)
      rintro b m - ⟨hA, hb⟩
      refine ⟨hA, hb.mono (fun s hs => ⟨hs.1.1, fun hin => ?_⟩)⟩
      obtain ⟨⟨-, hv⟩, hread⟩ := hs
      obtain rfl := hv hin.1
      exact hread hin.2

/-- What is read while the guard is fresh is what is on the page. -/
lemma readPage {β : Type} {r : PageRead β} [Lasts t E] (hi : Inv m) (h : A m)
    (hg : Sees g (fun _ => True) m) (hAE : ∀ m, A m → E m) :
    Serves steady t (MemSafeDB.readPage g.pid r) m (fun b m => A m ∧
      Sees g (fun s => s.page.ReadsInPage r → s.page.read r = .ok b) m) E := by
  refine (readPage_also hi h hg hAE).mono ?_ (fun _ _ h => h)
  rintro b m - ⟨hA, hb⟩
  exact ⟨hA, hb.mono (fun _ hs => hs.2)⟩

/-- What is read from the metadata page. -/
lemma peekRoot (h : A m) (hg : Sees g (fun _ => True) m) (hp : g.pid = metadataPageId) :
    Serves steady t MemSafeDB.peekRoot m (fun r m => A m ∧ Sees g (fun s => s.root = r) m) E := by
  have hlasts : ∀ r : PID, Lasts t (fun m => A m ∧ Sees g (fun s => s.root = r) m) :=
    fun _ => inferInstance
  have : ∀ r : Op.peekRoot.Res, Lasts t ((fun (r : PID) m => A m ∧
    Sees g (fun s => s.root = r) m) r) := hlasts
  refine quiet (A := fun m => A m ∧ Sees g (fun _ => True) m) (fun _ => trivial) ⟨h, hg⟩
    (fun m hi hA _ => ⟨trivial, fun c r s' hperform => ⟨hA.1, hA.2.state, hA.2.unlocks, ?_⟩⟩)
  obtain ⟨rfl, -⟩ := Prod.mk.inj (Option.some.inj hperform)
  intro hf
  have hreadable : m.now.Readable t metadataPageId := by
    intro u hu
    rw [← hp, hf.free] at hu
    cases hu
  exact (if_pos hp).trans (if_pos hreadable).symm

end Serves

end Rules

/-! ## Latches -/

/-- A latch is taken or returned, and the pages that the thread holds anyway stay as they are. -/
lemma About.relatched {t : τ} {A : Point τ → Prop} {X Y S : List PID} {m m' : Point τ}
    (hA : About t X A) (hm : Relatched m m') (ho : Owns t Y S m') (hX : ∀ p ∈ X, p ∈ Y ∨ p ∈ S)
    (h : A m) : A m' :=
  hA.keep m m' hm.advance (fun p hp => ⟨ho.holds.mpr (hX p hp), hm.sight p⟩) hm.trace h

/-- A change of other pages that the trace does not tell. -/
lemma About.acted {t : τ} {A : Point τ → Prop} {X Y S : List PID} {o : Op} {m m' : Point τ}
    (hA : About t X A) (hm : Acted o m m') (ho : Owns t Y S m)
    (hX : ∀ p ∈ X, (p ∈ Y ∨ p ∈ S) ∧ p ∉ o.touched) (ht : m'.now.trace = m.now.trace) (h : A m) :
    A m' :=
  hA.keep m m' hm.advance
    (fun p hp => ⟨(ho.acted hm).holds.mpr (hX p hp).1, hm.sight p (hX p hp).2⟩) ht h

section Latches

variable {steady : Prop} {t : τ} {K L E : Point τ → Prop} {X S : List PID} {env : Env}
  [hlasts : Lasts t K]

namespace Serves

/-! ### Exclusive latches -/

/-- An upgrade that returns has found the page as the guard has seen it. -/
lemma upgrade [hkeep : About t X K] [Lasts t L] [Lasts t E] (hi : Inv m) (ho : Owns t X S m)
    (hK : K m) (hE : ∀ m, Owns t X S m → K m → E m)
    (hwait : ∀ m, Inv m → Owns t X S m → K m → steady → MayWait t m g.pid)
    (hL : ∀ m m', Inv m → K m → Fresh g m → Inv m' → Relatched m m' →
      Owns t (g.pid :: X) S m' → L m') (fuel : Nat) :
    Serves steady t (GuardX.upgrade g fuel) m
      (fun p m => p = g.pid ∧ Owns t (g.pid :: X) S m ∧ K m ∧ L m) E := by
  induction fuel generalizing m with
  | zero => exact halt
  | succ fuel ih =>
    have hagain : ∀ m, Inv m → Owns t X S m ∧ K m → Serves steady t (do
        MemSafeDB.yield (some (g.pid, .exclusive))
        GuardX.upgrade g fuel) m
        (fun p m => p = g.pid ∧ Owns t (g.pid :: X) S m ∧ K m ∧ L m) E :=
      fun m hi hA => bind hi (yield (A := fun m => Owns t X S m ∧ K m) hA
        (fun m hi hA => hwait m hi hA.1 hA.2)) (fun _ m hi hA => ih hi hA.1 hA.2)
    refine bind (Q := fun _ m => Owns t X S m ∧ K m) hi
      (load (A := fun m => Owns t X S m ∧ K m) ⟨ho, hK⟩ (fun m _ hA _ => hA)) ?_
    intro v m hi hA
    refine ite (fun hversion => ?_) (fun _ => restart (hE m hA.1 hA.2))
    refine ite (fun hstate => ?_) (fun _ => hagain m hi hA)
    have hfree : getState v ≠ Locked ∧ getState v ≠ Evicted := by
      rcases hstate with hstate | hstate <;> rw [hstate] <;> decide
    refine bind (Q := fun ok m => if ok then Owns t (g.pid :: X) S m ∧ K m ∧ L m else
      Owns t X S m ∧ K m) hi (tryLockX hA (fun m hA => hA.1)
      (fun m _ hev => absurd hev hfree.2) (fun m m' hi hA heq hi' hm ho' => ?_)) ?_
    · refine ⟨ho', ?_, hL m m' hi hA.2 (hi.fresh ?_ ?_) hi' hm ho'⟩
      · exact hkeep.relatched hm ho' (fun p hp => Or.inl (List.mem_cons_of_mem _ hp)) hA.2
      · rw [heq]
        exact versionEq_iff.mp hversion
      · rw [heq]
        exact hfree.1
    · intro ok m hi hok
      cases ok with
      | true => exact pure ⟨rfl, hok⟩
      | false => exact hagain m hi hok

lemma fixX {p : PID} [hkeep : About t X K] (hi : Inv m) (ho : Owns t X S m) (hK : K m)
    (hgiven : ∀ m, Inv m → K m → Given p m)
    (hwait : ∀ m, Inv m → Owns t X S m → K m → steady → MayWait t m p) :
    Serves steady t (BufferManager.fixX env p) m
      (fun q m => q = p ∧ Owns t (p :: X) S m ∧ K m) E := by
  unfold BufferManager.fixX
  induction env.fuel generalizing m with
  | zero => exact halt
  | succ fuel ih =>
    have hagain : ∀ m, Inv m → Owns t X S m ∧ K m → Serves steady t (do
        MemSafeDB.yield (some (p, .exclusive))
        BufferManager.fixXLoop p fuel) m (fun q m => q = p ∧ Owns t (p :: X) S m ∧ K m) E :=
      fun m hi hA => bind hi (yield (A := fun m => Owns t X S m ∧ K m) hA
        (fun m hi hA => hwait m hi hA.1 hA.2)) (fun _ m hi hA => ih hi hA.1 hA.2)
    refine bind (Q := fun v m => (Owns t X S m ∧ K m) ∧ getState v ≠ Evicted) hi
      (load (A := fun m => Owns t X S m ∧ K m) ⟨ho, hK⟩
        (fun m hi hA _ => ⟨hA, hgiven m hi hA.2⟩)) ?_
    rintro v m hi ⟨hA, hev⟩
    rw [if_neg hev]
    refine ite (fun _ => ?_) (fun _ => hagain m hi hA)
    refine bind (Q := fun ok m => if ok then Owns t (p :: X) S m ∧ K m else
      Owns t X S m ∧ K m) hi (tryLockX hA (fun m hA => hA.1) (fun m _ h => absurd h hev)
      (fun m m' hi hA _ hi' hm ho' => ?_)) ?_
    · exact ⟨ho', hkeep.relatched hm ho' (fun p hp => Or.inl (List.mem_cons_of_mem _ hp)) hA.2⟩
    · intro ok m hi hok
      cases ok with
      | true => exact pure ⟨rfl, hok⟩
      | false => exact hagain m hi hok

lemma unfixX {p : PID} [hkeep : About t X K] (hi : Inv m) (ho : Owns t (p :: X) S m) (hK : K m) :
    Serves steady t (BufferManager.unfixX p) m (fun _ m => Owns t X S m ∧ K m) E := by
  refine bind (Q := fun _ m => Owns t (p :: X) S m ∧ K m) hi
    (load (A := fun m => Owns t (p :: X) S m ∧ K m) ⟨ho, hK⟩ (fun m _ hA _ => hA))
    (fun v m hi hA => ?_)
  refine bind hi (assert (A := fun m => Owns t (p :: X) S m ∧ K m) .locked _ hA) (fun _ m hi hA => ?_)
  refine bind (Q := fun _ m => Owns t (p :: X) S m ∧ K m) hi
    (load hA.1 (fun m _ hA _ => hA)) (fun w m hi hA => ?_)
  refine op (A := fun m => Owns t (p :: X) S m ∧ K m) hA
    (fun m hi hA _ => ⟨trivial, fun c r m' hperform _ hi' hadvance => ?_⟩)
  obtain ⟨-, hnow⟩ := Prod.mk.inj (Option.some.inj hperform)
  have hm : Relatched m m' := ⟨hadvance, fun q => by rw [← hnow]; rfl, by rw [← hnow]; rfl⟩
  have ho' := hA.1.unlockX (by rw [← hnow]; rfl) (by rw [← hnow]; rfl)
  exact ⟨ho', hkeep.relatched hm ho' (fun p hp => Or.inl hp) hA.2⟩

/-! ### Shared latches -/

/-- A shared latch that replaces a guard finds the page as the guard has seen it. -/
lemma ofGuardO [hkeep : About t S K] [Lasts t L] [Lasts t E] (hi : Inv m) (ho : Owns t X S m)
    (hK : K m) (hE : ∀ m, Owns t X S m → K m → E m)
    (hL : ∀ m m', Inv m → K m → Fresh g m → Inv m' → Relatched m m' →
      Owns t X (g.pid :: S) m' → L m') :
    Serves steady t (GuardS.ofGuardO g) m
      (fun p m => p = g.pid ∧ Owns t X (g.pid :: S) m ∧ K m ∧ L m) E := by
  refine bind (Q := fun ok m => if ok then Owns t X (g.pid :: S) m ∧ K m ∧ L m else
    Owns t X S m ∧ K m) hi (tryLockS (A := fun m => Owns t X S m ∧ K m) ⟨ho, hK⟩
    (fun m hA => hA.1) (fun m m' hi hA heq hstate hi' hm ho' => ?_)) ?_
  · refine ⟨ho', ?_, hL m m' hi hA.2 (hi.fresh (by rw [heq]) ?_) hi' hm ho'⟩
    · exact hkeep.relatched hm ho' (fun p hp => Or.inr (List.mem_cons_of_mem _ hp)) hA.2
    · rw [heq]
      rcases hstate with hstate | hstate
      · exact (hstate.trans (by decide)).ne
      · rw [hstate]
        decide
  · intro ok m hi hok
    cases ok with
    | true => exact pure ⟨rfl, hok⟩
    | false => exact restart (hE m hok.1 hok.2)

lemma fixS {p : PID} [hkeep : About t S K] (hi : Inv m) (ho : Owns t X S m) (hK : K m)
    (hgiven : ∀ m, Inv m → K m → Given p m)
    (hwait : ∀ m, Inv m → Owns t X S m → K m → steady → MayWait t m p) :
    Serves steady t (BufferManager.fixS env p) m
      (fun q m => q = p ∧ Owns t X (p :: S) m ∧ K m) E := by
  unfold BufferManager.fixS
  induction env.fuel generalizing m with
  | zero => exact halt
  | succ fuel ih =>
    have hagain : ∀ m, Inv m → Owns t X S m ∧ K m → Serves steady t (do
        MemSafeDB.yield (some (p, .shared))
        BufferManager.fixSLoop p fuel) m (fun q m => q = p ∧ Owns t X (p :: S) m ∧ K m) E :=
      fun m hi hA => bind hi (yield (A := fun m => Owns t X S m ∧ K m) hA
        (fun m hi hA => hwait m hi hA.1 hA.2)) (fun _ m hi hA => ih hi hA.1 hA.2)
    refine bind (Q := fun v m => (Owns t X S m ∧ K m) ∧ getState v ≠ Evicted) hi
      (load (A := fun m => Owns t X S m ∧ K m) ⟨ho, hK⟩
        (fun m hi hA _ => ⟨hA, hgiven m hi hA.2⟩)) ?_
    rintro v m hi ⟨hA, hev⟩
    refine ite (fun _ => hagain m hi hA) (fun _ => ?_)
    rw [if_neg hev]
    refine bind (Q := fun ok m => if ok then Owns t X (p :: S) m ∧ K m else
      Owns t X S m ∧ K m) hi (tryLockS hA (fun m hA => hA.1)
      (fun m m' hi hA _ _ hi' hm ho' => ?_)) ?_
    · exact ⟨ho', hkeep.relatched hm ho' (fun p hp => Or.inr (List.mem_cons_of_mem _ hp)) hA.2⟩
    · intro ok m hi hok
      cases ok with
      | true => exact pure ⟨rfl, hok⟩
      | false => exact hagain m hi hok

lemma unfixS {p : PID} [hkeep : About t S K] (hi : Inv m) (ho : Owns t X (p :: S) m) (hK : K m) :
    Serves steady t (BufferManager.unfixS env p) m (fun _ m => Owns t X S m ∧ K m) E := by
  unfold BufferManager.unfixS
  induction env.fuel generalizing m with
  | zero => exact halt
  | succ fuel ih =>
    refine bind (Q := fun _ m => Owns t X (p :: S) m ∧ K m) hi
      (load (A := fun m => Owns t X (p :: S) m ∧ K m) ⟨ho, hK⟩ (fun m _ hA _ => hA))
      (fun v m hi hA => ?_)
    refine bind hi (assert (A := fun m => Owns t X (p :: S) m ∧ K m) .sharedState _ hA) (fun _ m hi hA => ?_)
    have hunlock : Serves steady t (MemSafeDB.cas .unlockS p v (sameVersion v (getState v - 1))) m
        (fun ok m => if ok then Owns t X S m ∧ K m else Owns t X (p :: S) m ∧ K m) E := by
      refine cas hA.1 (fun _ _ _ => trivial) (fun m m' hi hA _ hnow hi' hm => ?_)
      have ho' := hA.1.unlockS (by rw [← hnow]; rfl) (by rw [← hnow]; rfl)
      exact ⟨ho', hkeep.relatched hm ho' (fun p hp => Or.inr hp) hA.2⟩
    refine bind hi hunlock (fun ok m hi hok => ?_)
    cases ok with
    | true => exact pure hok
    | false => exact ih hi hok.1 hok.2

end Serves

end Latches

/-! ## New pages -/

/-- Thread `t` has drawn the page id and not latched the page. -/
structure Drawn (t : τ) (p : PID) (m : Point τ) : Prop where
  drew : Drew m.past t p
  latched : ¬Latched m.past t p

instance (t : τ) (p : PID) : Lasts t (Drawn t p) :=
  ⟨fun _ _ _ ha hs h => ⟨ha.past _ h.drew, fun hl => h.latched (hs.latched p hl)⟩⟩

/-- A page id that is drawn is new. -/
lemma Inv.drawn_nextPid {t : τ} {c : Choice} {m' : Point τ} (hi : Inv m)
    (hperform : Sys.perform t c .nextPid m.now = some (p, m'.now))
    (hpast : m'.past = ⟨t, .nextPid, p⟩ :: m.past) : Drawn t p m' := by
  obtain ⟨ms, hms⟩ := hi.protocol
  obtain ⟨rfl, -⟩ := Prod.mk.inj (Option.some.inj hperform)
  refine ⟨hpast ▸ List.mem_cons_self, fun hlatched => ?_⟩
  rw [hpast, latched_cons (fun _ _ heq => by cases heq)] at hlatched
  rcases hms.latched t _ hlatched with heq | ⟨u, hu⟩
  · exact absurd heq hms.alloc.ne'
  · exact absurd (hms.drew u _ hu).2.1 (lt_irrefl _)

/-- A page that has been drawn and not been latched has not been given out. -/
lemma Drawn.outside {t : τ} (h : Drawn t p m) (hi : Inv m) : 0 < p ∧ ¬Given p m := by
  obtain ⟨ms, hms⟩ := hi.protocol
  obtain ⟨hne, -, hunique⟩ := hms.drew t p h.drew
  refine ⟨Nat.pos_of_ne_zero hne, fun hgiven => hgiven ((hms.page p).untouched hne ?_)⟩
  rintro ⟨u, hu, hlatched⟩
  obtain rfl := hunique u hu
  exact h.latched hlatched

lemma Drawn.level {t : τ} (h : Drawn t p m) (hi : Inv m) : m.now.level p = none := by
  cases hl : m.now.level p with
  | none => rfl
  | some l => exact absurd (hi.given p l hl) (h.outside hi).2

section Allocation

variable {steady : Prop} {t : τ} {K E : Point τ → Prop} {X S : List PID} {env : Env}
  [hlasts : Lasts t K] [hkeep : About t X K]

/-- A page that belongs to a new guard. -/
structure IsNew (p : PID) (X : List PID) : Prop where
  pos : 0 < p
  lt : p < noNeighbour
  notMem : p ∉ X

namespace Serves

lemma allocPage (hi : Inv m) (ho : Owns t X S m) (hK : K m) :
    Serves steady t (BufferManager.allocPage env) m (fun p m => IsNew p X ∧ Owns t (p :: X) S m ∧
      Knows t p (fun s => s.level = none) m ∧ K m) E := by
  have hlasts' : ∀ p : PID, Lasts t (fun m => (Owns t X S m ∧ K m) ∧ Drawn t p m) :=
    fun _ => inferInstance
  have : ∀ p : Op.nextPid.Res,
      Lasts t ((fun (p : PID) m => (Owns t X S m ∧ K m) ∧ Drawn t p m) p) := hlasts'
  refine bind (Q := fun p m => (Owns t X S m ∧ K m) ∧ Drawn t p m) hi
    (op (A := fun m => Owns t X S m ∧ K m) ⟨ho, hK⟩
      (fun m hi hA _ => ⟨trivial, fun c p m' hperform hpast hi' hadvance => ?_⟩)) ?_
  · have hspare : Spare t m m' := spare_quiet (o := .nextPid) trivial hperform hpast
    refine ⟨?_, hi.drawn_nextPid hperform hpast⟩
    exact (inferInstance : Lasts t (fun m => Owns t X S m ∧ K m)).lasts m m' hi' hadvance hspare hA
  intro (p : PID) m hi hA
  refine ite (fun _ => crash (Or.inl rfl)) (fun hlt => ?_)
  have hbound : p < noNeighbour := by
    have hsize := env.memsize_lt
    have hvirt : env.virtCount ≤ env.memsize := Nat.div_le_self _ _
    exact (not_le.mp hlt).trans_le (hvirt.trans (Nat.le_pred_of_lt hsize))
  refine bind (Q := fun _ m => (Owns t X S m ∧ K m) ∧ Drawn t p m) hi
    (load (A := fun m => (Owns t X S m ∧ K m) ∧ Drawn t p m) hA (fun m _ hA _ => hA)) ?_
  intro v m hi hA
  refine bind (Q := fun ok m => if ok then IsNew p X ∧ Owns t (p :: X) S m ∧
    Knows t p (fun s => s.level = none) m ∧ K m else True) hi ((tryLockX
      (A := fun m => (Owns t X S m ∧ K m) ∧ Drawn t p m)
      (B := fun m => IsNew p X ∧ Owns t (p :: X) S m ∧ Knows t p (fun s => s.level = none) m ∧ K m)
      hA (fun m hA => hA.1.1) (fun m hA _ => hA.2.drew) ?_).mono ?_ (fun _ _ h => h)) ?_
  · intro m m' hi hA _ hi' hm ho'
    obtain ⟨hpos, hfresh⟩ := hA.2.outside hi
    have hnew : p ∉ X := fun hp => hfresh (hi.given_of_mem (hA.1.1.mem_xHolders.mpr hp))
    refine ⟨⟨hpos, hbound, hnew⟩, ho', ⟨ho'.holds.mpr (Or.inl List.mem_cons_self), ?_⟩, ?_⟩
    · rw [hm.sight p]
      exact hA.2.level hi
    · exact hkeep.relatched hm ho' (fun q hq => Or.inl (List.mem_cons_of_mem _ hq)) hA.1.2
  · intro ok m _ hok
    cases ok with
    | true => exact hok
    | false => trivial
  intro ok m hi hok
  refine bind hi (assert (A := fun m => if ok then IsNew p X ∧ Owns t (p :: X) S m ∧
    Knows t p (fun s => s.level = none) m ∧ K m else True) .lockFresh _ hok) ?_
  rintro _ m hi ⟨hA, rfl⟩
  refine bind hi (skip (o := .residentInsert p) (A := fun m => IsNew p X ∧ Owns t (p :: X) S m ∧
    Knows t p (fun s => s.level = none) m ∧ K m) (fun _ => trivial) (fun _ => trivial) hA) ?_
  intro _ m hi hA
  exact pure hA

lemma allocGuard (hi : Inv m) (ho : Owns t X S m) (hK : K m) (isLeaf : Bool) :
    Serves steady t (MemSafeDB.allocGuard env isLeaf) m (fun p m => IsNew p X ∧
      Owns t (p :: X) S m ∧
      Knows t p (fun s => s.level = none ∧ s.page = BTreeNode.new isLeaf) m ∧ K m) E := by
  refine bind hi (allocPage hi ho hK) ?_
  rintro p m hi ⟨hnew, hA⟩
  refine bind (Q := fun _ m => Owns t (p :: X) S m ∧
    Knows t p (fun s => s.level = none ∧ s.page = BTreeNode.new isLeaf) m ∧ K m) hi
    (act (o := .construct p isLeaf) (A := fun m => Owns t (p :: X) S m ∧
      Knows t p (fun s => s.level = none) m ∧ K m) id hA (fun m hi hA _ => ⟨hA.2.1.fact, ?_⟩)) ?_
  · intro c r m' hperform hi' hm
    obtain ⟨-, hnow⟩ := Prod.mk.inj (Option.some.inj hperform)
    have ho' := hA.1.acted hm
    refine ⟨ho', ⟨ho'.holds.mpr (Or.inl List.mem_cons_self), ?_, ?_⟩, ?_⟩
    · rw [← hnow]
      exact hA.2.1.fact
    · rw [← hnow]
      exact Function.update_self _ _ _
    · refine hkeep.acted hm hA.1 (fun q hq => ⟨Or.inl (List.mem_cons_of_mem _ hq), ?_⟩)
        (by rw [← hnow]; rfl) hA.2.2
      rintro hmem
      exact hnew.notMem (List.mem_singleton.mp hmem ▸ hq)
  · intro _ m _ hA
    exact pure ⟨hnew, hA⟩

end Serves

end Allocation

/-! ## Retry loops -/

/-- What an attempt ends with. -/
def Attempted {α : Type} (A : Point τ → Prop) (Q : α → Point τ → Prop) :
    Option α → Point τ → Prop
  | none => A
  | some a => Q a

instance {α : Type} {t : τ} {A : Point τ → Prop} {Q : α → Point τ → Prop} [hA : Lasts t A]
    [hQ : ∀ a, Lasts t (Q a)] (r : Option α) : Lasts t (Attempted A Q r) := by
  cases r with
  | none => exact hA
  | some a => exact hQ a

namespace Serves

/-- A retry loop whose attempts end with the answer, or as they began. -/
lemma retry {steady : Prop} {t : τ} {α : Type} {A E : Point τ → Prop} {Q : α → Point τ → Prop}
    [Lasts t A] [∀ a, Lasts t (Q a)] {attempt : Prog (Option α)} (hi : Inv m) (h : A m)
    (hattempt : ∀ m, Inv m → A m → Serves steady t attempt m (Attempted A Q) A) (fuel : Nat) :
    Serves steady t (MemSafeDB.retry attempt fuel) m Q E := by
  induction fuel generalizing m with
  | zero => exact halt
  | succ fuel ih =>
    refine bind (Q := fun outcome => Attempted A (Attempted A Q) outcome) hi ?_ ?_
    · refine Program.Serves.tryCatch (E := fun _ => A) hi ?_ ?_
      · refine bind (Q := fun _ => A) hi (skip (fun _ => trivial) (fun _ => trivial) h) ?_
        intro _ m hi hA
        refine bind hi (hattempt m hi hA) (fun r m hi hr => ?_)
        refine bind (Q := fun _ => Attempted A Q r) hi
          (skip (fun _ => trivial) (fun _ => trivial) hr) (fun _ m _ hr => ?_)
        exact pure (Q := fun outcome => Attempted A (Attempted A Q) outcome) hr
      · intro _ m hi hA
        refine bind (Q := fun _ => A) hi (skip (fun _ => trivial) (fun _ => trivial) hA) ?_
        intro _ m _ hA
        exact pure (Q := fun outcome => Attempted A (Attempted A Q) outcome) hA
    · intro outcome m hi hr
      cases outcome with
      | none =>
        refine bind (Q := fun _ => A) hi (skip (fun _ => trivial) (fun _ => trivial) hr) ?_
        exact fun _ m hi hA => ih hi hA
      | some r =>
        cases r with
        | none => exact ih hi hr
        | some a => exact pure hr

/-- A retry loop whose attempts end with the answer, if they return. -/
lemma retry_once {steady : Prop} {t : τ} {α : Type} {A E : Point τ → Prop}
    {Q : α → Point τ → Prop} [Lasts t A] [∀ a, Lasts t (Q a)] {p : Prog α} (hi : Inv m) (h : A m)
    (hp : ∀ m, Inv m → A m → Serves steady t p m Q A) (fuel : Nat) :
    Serves steady t (MemSafeDB.retry (once p) fuel) m Q E := by
  refine retry hi h (fun m hi hA => ?_) fuel
  refine bind hi (hp m hi hA) (fun a m _ ha => ?_)
  exact pure (Q := Attempted A Q) ha

end Serves

end Point

end MemSafeDB
