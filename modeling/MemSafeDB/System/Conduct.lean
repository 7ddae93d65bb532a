import MemSafeDB.System.Discipline

/-!
# The functions of the tree keep the discipline

One lemma for each function of the buffer manager, of the guards and of `BTree`: the latches that
it has taken and given back when it returns, and when it throws.
-/

namespace MemSafeDB
open Lib PageState BufferManager

variable {α : Type} {c : Core} {E : Core → Prop} {p : PID}

namespace Core

/-- The thread has changed pages, and holds what it held before. -/
def Grows (c c' : Core) : Prop := ∃ n, c' = c.withChanges n

lemma Grows.refl (c : Core) : c.Grows c := ⟨c.changes, rfl⟩

lemma Grows.trans {c c' c'' : Core} (h : c.Grows c') (h' : c'.Grows c'') : c.Grows c'' := by
  obtain ⟨n, rfl⟩ := h
  obtain ⟨m, rfl⟩ := h'
  exact ⟨m, rfl⟩

lemma grows_change (c : Core) : c.Grows c.change := ⟨_, rfl⟩

lemma Grows.lockX {c c' : Core} (h : c.Grows c') (p : PID) : (c.lockX p).Grows (c'.lockX p) := by
  obtain ⟨n, rfl⟩ := h
  exact ⟨n, rfl⟩

lemma Grows.unlockX {c c' : Core} (h : c.Grows c') (p : PID) :
    (c.unlockX p).Grows (c'.unlockX p) := by
  obtain ⟨n, rfl⟩ := h
  exact ⟨n, rfl⟩

lemma Grows.x_eq {c c' : Core} (h : c.Grows c') : c'.x = c.x := by
  obtain ⟨n, rfl⟩ := h
  rfl

lemma Grows.free {c c' : Core} (h : c.Grows c') (hc : c.Free) : c'.Free := by
  obtain ⟨n, rfl⟩ := h
  exact hc

lemma lockX_comm (c : Core) (p q : PID) : (c.lockX p).lockX q = (c.lockX q).lockX p := by
  simp only [lockX, Multiset.cons_swap]

/-- A latch that was taken in between is given back first. -/
@[simp] lemma unlockX_lockX_lockX (c : Core) (p q : PID) :
    ((c.lockX p).lockX q).unlockX p = c.lockX q := by
  rw [lockX_comm, unlockX_lockX]

/-- Going on to the next page under shared latches. -/
@[simp] lemma unlockS_lockS_lockS (c : Core) (p q : PID) :
    ((c.lockS p).lockS q).unlockS p = c.lockS q := by
  simp only [lockS, unlockS, Multiset.cons_swap, Multiset.erase_cons_head]

end Core

/-! ## The buffer manager -/

section Manager

variable (env : Env)

lemma does_allocPage :
    Does (allocPage env) c (fun q c' => q ≠ metadataPageId ∧ c' = c.lockX q) E := by
  rintro m rfl
  refine Program.Obeys.bind (Q := fun q m' => q ≠ metadataPageId ∧ m'.core = m.core ∧
    m'.drawn = some q) ⟨trivial, fun q hq => ⟨hq, rfl, rfl⟩⟩ ?_
  rintro q m₁ ⟨hq, hcore, hdrawn⟩
  split
  · exact ⟨trivial, fun _ _ => ⟨trivial, fun r => r.elim⟩⟩
  refine Program.Obeys.bind (Q := fun _ m' => m'.core = m.core ∧ m'.drawn = some q)
    ⟨trivial, fun _ _ => ⟨hcore, hdrawn⟩⟩ ?_
  rintro v m₂ ⟨hcore₂, hdrawn₂⟩
  -- the state of the page is not looked at: nobody else knows its id
  refine ⟨⟨rfl, Or.inr hdrawn₂⟩, fun ok _ => ?_⟩
  cases ok with
  | false => exact ⟨trivial, fun _ _ => ⟨trivial, fun r => r.elim⟩⟩
  | true =>
    refine ⟨⟨Core.mem_lockX m₂.core q, if_pos (Or.inr hdrawn₂)⟩, fun _ _ => ⟨hq, ?_⟩⟩
    rw [← hcore₂]
    rfl

lemma does_fixXLoop (p : PID) (fuel : Nat) :
    Does (fixXLoop p fuel) c (fun q c' => q = p ∧ c' = c.lockX p) E := by
  induction fuel with
  | zero => exact Does.halt
  | succ fuel ih =>
    have hagain : Does (do yield (some (p, .exclusive)); fixXLoop p fuel) c
        (fun q c' => q = p ∧ c' = c.lockX p) E := Does.quiet_bind (quiet_yield _) (fun _ => ih)
    refine Does.quiet_bind (quiet_load _ _) (fun v => ?_)
    refine Does.ite (fun hevicted => ?_) (fun _ => Does.ite (fun hfree => ?_) (fun _ => hagain))
    · exact does_enter hevicted (Does.pure ⟨rfl, rfl⟩) hagain
    · refine (does_tryLockX (hfree.elim (Or.inr ∘ Or.inl) Or.inl)).bind ?_
      rintro ok _ rfl
      cases ok with
      | false => exact hagain
      | true => exact Does.pure ⟨rfl, rfl⟩

lemma does_fixX (p : PID) : Does (fixX env p) c (fun q c' => q = p ∧ c' = c.lockX p) E :=
  does_fixXLoop p env.fuel

lemma quiet_faultIn {v : Word} (hv : getState v = Evicted) : Quiet (faultIn p v) := by
  intro c E
  refine does_enter hv ?_ (Does.pure rfl)
  refine (does_unfixX (Core.mem_lockX c p)).mono ?_ (fun _ h => h)
  rintro _ _ rfl
  exact Core.unlockX_lockX c p

lemma does_fixSLoop (p : PID) (fuel : Nat) :
    Does (fixSLoop p fuel) c (fun q c' => q = p ∧ c' = c.lockS p) E := by
  induction fuel with
  | zero => exact Does.halt
  | succ fuel ih =>
    have hagain : Does (do yield (some (p, .shared)); fixSLoop p fuel) c
        (fun q c' => q = p ∧ c' = c.lockS p) E := Does.quiet_bind (quiet_yield _) (fun _ => ih)
    refine Does.quiet_bind (quiet_load _ _) (fun v => ?_)
    refine Does.ite (fun _ => hagain) (fun _ => Does.ite (fun hevicted => ?_) (fun _ => ?_))
    · exact Does.quiet_bind (quiet_faultIn hevicted) (fun _ => hagain)
    · refine (does_tryLockS p v).bind ?_
      rintro ok _ rfl
      cases ok with
      | false => exact hagain
      | true => exact Does.pure ⟨rfl, rfl⟩

lemma does_fixS (p : PID) : Does (fixS env p) c (fun q c' => q = p ∧ c' = c.lockS p) E :=
  does_fixSLoop p env.fuel

end Manager

/-! ## Guards -/

section Guards

variable (env : Env)

lemma quiet_unmark (p : PID) {v : Word} (hv : getState v = Marked) :
    Quiet (cas .unmark p v (sameVersion v Unlocked)) :=
  Quiet.op (fun _ => ⟨hv, rfl⟩) (fun _ ok => by cases ok <;> rfl)

lemma quiet_init (p : PID) (fuel : Nat) : Quiet (GuardO.init p fuel) := by
  induction fuel with
  | zero => exact fun _ _ => Does.halt
  | succ fuel ih =>
    have hagain : Quiet (do yield (some (p, .optimistic)); GuardO.init p fuel) :=
      Quiet.bind (quiet_yield _) (fun _ => ih)
    refine Quiet.bind (quiet_load _ _) (fun v => ?_)
    refine Quiet.ite (fun hmarked => ?_) (fun _ => Quiet.ite (fun _ => hagain)
      (fun _ => Quiet.ite (fun hevicted => ?_) (fun _ => Quiet.pure v)))
    · refine Quiet.bind (quiet_unmark p hmarked) (fun ok => ?_)
      cases ok with
      | false => exact hagain
      | true => exact Quiet.pure _
    · exact Quiet.bind (quiet_faultIn hevicted) (fun _ => hagain)

lemma neutral_restartUnless (u : Bool) : Neutral (GuardO.restartUnless u) :=
  Neutral.ite (fun _ => Neutral.pure ()) (fun _ => neutral_restart)

lemma neutral_check (g : GuardO) (u : Bool) : Neutral (g.checkVersionAndRestart u) := by
  refine Neutral.bind (quiet_load _ _).neutral (fun v => ?_)
  refine Neutral.ite (fun _ => Neutral.pure ()) (fun _ => Neutral.ite (fun _ => ?_)
    (fun _ => neutral_restartUnless u))
  refine Neutral.ite (fun _ => Neutral.pure ()) (fun _ => Neutral.ite (fun hmarked => ?_)
    (fun _ => neutral_restartUnless u))
  refine Neutral.bind (quiet_unmark g.pid hmarked).neutral (fun ok => ?_)
  cases ok with
  | false => exact neutral_restartUnless u
  | true => exact Neutral.pure ()

lemma neutral_leave (g : GuardO) : Neutral g.leave := neutral_check g false

lemma neutral_unwind (g : GuardO) : Neutral g.unwind := neutral_check g true

lemma neutral_unwindBoth (g h : GuardO) : Neutral (do g.unwind; h.unwind) :=
  Neutral.bind (neutral_unwind g) (fun _ => neutral_unwind h)

lemma quiet_ofPid (p : PID) : Quiet (GuardO.ofPid env p) :=
  Quiet.bind (quiet_init p env.fuel) (fun _ => Quiet.pure _)

lemma neutral_ofParent (p : PID) (parent : GuardO) : Neutral (GuardO.ofParent env p parent) :=
  Neutral.ite (fun _ => neutral_restart)
    (fun _ => Neutral.bind (neutral_check parent false) (fun _ => (quiet_ofPid env p).neutral))

lemma does_upgrade (other : GuardO) (fuel : Nat) :
    Does (GuardX.upgrade other fuel) c (fun q c' => q = other.pid ∧ c' = c.lockX other.pid)
      (fun c' => c' = c) := by
  induction fuel with
  | zero => exact Does.halt
  | succ fuel ih =>
    have hagain : Does (do yield (some (other.pid, .exclusive)); GuardX.upgrade other fuel) c
        (fun q c' => q = other.pid ∧ c' = c.lockX other.pid) (fun c' => c' = c) :=
      Does.quiet_bind (quiet_yield _) (fun _ => ih)
    refine Does.quiet_bind (quiet_load _ _) (fun v => ?_)
    refine Does.ite (fun _ => Does.ite (fun hfree => ?_) (fun _ => hagain))
      (fun _ => Does.restart rfl)
    refine (does_tryLockX (hfree.imp_right Or.inl)).bind ?_
    rintro ok _ rfl
    cases ok with
    | false => exact hagain
    | true => exact Does.pure ⟨rfl, rfl⟩

/-- The upgrade of a guard; an exception leaves the latches as they were. -/
lemma does_ofGuardO (other : GuardO) :
    Does (GuardX.ofGuardO env other) c (fun q c' => q = other.pid ∧ c' = c.lockX other.pid)
      (fun c' => c' = c) := does_upgrade other env.fuel

lemma does_ofGuardO_shared (other : GuardO) :
    Does (GuardS.ofGuardO other) c (fun q c' => q = other.pid ∧ c' = c.lockS other.pid)
      (fun c' => c' = c) := by
  refine (does_tryLockS other.pid other.version).bind ?_
  rintro ok _ rfl
  cases ok with
  | false => exact Does.restart rfl
  | true => exact Does.pure ⟨rfl, rfl⟩

lemma does_allocGuard (isLeaf : Bool) :
    Does (allocGuard env isLeaf) c
      (fun q c' => q ≠ metadataPageId ∧ c' = (c.lockX q).change) E := by
  refine (does_allocPage env).bind ?_
  rintro q _ ⟨hq, rfl⟩
  refine Does.bind (Q := fun _ c' => c' = (c.lockX q).change) (Does.op ?_ ?_) ?_
  · intro m hm
    change q ∈ m.core.x
    rw [hm]
    exact Core.mem_lockX c q
  · intro m hm _ _
    change m.core.change = _
    rw [hm]
  · rintro _ _ rfl
    exact Does.pure ⟨hq, rfl⟩

/-- A cleanup that gives a latch back after an exception. -/
lemma does_unfixX_unwind (p : PID) (g : GuardO) :
    Does (do unfixX p; g.unwind) (c.lockX p) (fun _ c' => c' = c) (fun c' => c' = c) := by
  refine (does_unfixX (Core.mem_lockX c p)).bind ?_
  rintro _ _ rfl
  rw [Core.unlockX_lockX]
  exact neutral_unwind g c

end Guards

/-! ## Retry loops -/

/-- A retry loop, when each attempt leaves the thread as it was if it throws. -/
lemma does_retry {attempt : Prog (Option α)} {I : Core → Prop} {Q : α → Core → Prop}
    (h : ∀ c, I c → Does attempt c.begin
      (fun r c' => match r with
        | some a => Q a c'.finish
        | none => I c'.finish)
      (fun c' => c' = c.begin))
    (hfree : ∀ c, I c → c.Free) (fuel : Nat) (hI : I c) : Does (retry attempt fuel) c Q E := by
  induction fuel generalizing c with
  | zero => exact Does.halt
  | succ fuel ih =>
    refine Does.bind (Q := fun (outcome : Option (Option α)) c' =>
      outcome.elim (c' = c) (fun r => r.elim (I c') (fun a => Q a c'))) ?_ ?_
    · rintro m rfl
      refine Program.Obeys.tryCatch (E := fun _ m' => m'.core = m.core.begin) ?_ ?_
      · refine Program.Obeys.bind (Q := fun (_ : Unit) (m' : Local) => m'.core = m.core.begin)
          ⟨trivial, fun _ _ => rfl⟩ ?_
        intro _ m₁ hm₁
        refine (h m.core hI m₁ hm₁).bind ?_
        intro r m₂ hm₂
        refine ⟨trivial, fun _ _ => ?_⟩
        cases r <;> exact hm₂
      · intro _ m₁ hm₁
        refine ⟨?_, fun _ _ => ?_⟩
        · change m₁.core.attempts.head? = some ⟨m₁.core.changes, m₁.core.x, m₁.core.s⟩ ∧
            m₁.core.Free
          rw [hm₁]
          exact ⟨rfl, hfree m.core hI⟩
        · change m₁.core.finish = m.core
          rw [hm₁, Core.finish_begin]
    · rintro (_ | _ | a) c' hc'
      · subst hc'
        exact Does.quiet_bind (quiet_yield _) (fun _ => ih hI)
      · exact ih hc'
      · exact Does.pure hc'

/-- A retry loop whose attempts end in a value or throw. -/
lemma does_retry_once {attempt : Prog α} {Q : α → Core → Prop} (fuel : Nat) (hc : c.Free)
    (h : Does attempt c.begin (fun a c' => Q a c'.finish) (fun c' => c' = c.begin)) :
    Does (retry (once attempt) fuel) c Q E := by
  refine does_retry (I := fun c' => c' = c) ?_ (by rintro _ rfl; exact hc) fuel rfl
  rintro _ rfl
  exact h.bind (fun a _ ha => Does.pure ha)

namespace BTree

variable (env : Env)

/-! ## Searching -/

lemma neutral_descend (key : Key) (node : GuardO) (fuel : Nat) :
    Neutral (descend env key node fuel) := by
  induction fuel generalizing node with
  | zero => exact fun _ => Does.halt
  | succ fuel ih =>
    refine Neutral.bind (neutral_readPage _ _) (fun inner => ?_)
    refine Neutral.ite (fun _ => ?_) (fun _ => Neutral.pure _)
    have hchild : Neutral (do
        let pid ← readPage node.pid (PageRead.lookupInner key)
        GuardO.ofParent env pid node) :=
      Neutral.bind (neutral_readPage _ _) (fun _ => neutral_ofParent env _ _)
    refine Neutral.bind (hchild.onThrow (neutral_unwind node)) (fun child => ?_)
    exact Neutral.bind ((neutral_leave node).onThrow (neutral_unwindBoth child node))
      (fun _ => ih child)

lemma neutral_rootBelow (metaData : GuardO) :
    Neutral (Program.onThrow (do
        let root ← peekRoot
        GuardO.ofParent env root metaData) metaData.unwind) :=
  (Neutral.bind quiet_peekRoot.neutral (fun _ => neutral_ofParent env _ _)).onThrow
    (neutral_unwind metaData)

lemma neutral_findLeafO (key : Key) : Neutral (findLeafO env key) := by
  refine Neutral.bind (quiet_ofPid env _).neutral (fun metaData => ?_)
  refine Neutral.bind (neutral_rootBelow env metaData) (fun node => ?_)
  exact Neutral.bind ((neutral_leave metaData).onThrow (neutral_unwindBoth node metaData))
    (fun _ => neutral_descend env key node env.fuel)

lemma neutral_openRoot : Neutral (openRoot env) :=
  Neutral.bind (quiet_ofPid env _).neutral (fun parent =>
    Neutral.bind (neutral_rootBelow env parent) (fun _ => Neutral.pure _))

lemma neutral_leaveBoth (parent node : GuardO) : Neutral (leaveBoth parent node) :=
  Neutral.bind ((neutral_leave node).onThrow (neutral_unwind parent)) (fun _ => neutral_leave parent)

lemma neutral_descendWithParent (key : Key) (toSplit : Option PID) (parent node : GuardO)
    (fuel : Nat) : Neutral (descendWithParent env key toSplit parent node fuel) := by
  induction fuel generalizing parent node with
  | zero => exact fun _ => Does.halt
  | succ fuel ih =>
    refine Neutral.bind (neutral_readPage _ _) (fun inner => ?_)
    refine Neutral.ite (fun _ => ?_) (fun _ => Neutral.pure _)
    have hchild : Neutral (do
        let pid ← readPage node.pid (PageRead.lookupInner key)
        GuardO.ofParent env pid node) :=
      Neutral.bind (neutral_readPage _ _) (fun _ => neutral_ofParent env _ _)
    refine Neutral.bind ((neutral_leave parent).onThrow (neutral_unwindBoth node parent))
      (fun _ => ?_)
    exact Neutral.bind (hchild.onThrow (neutral_unwind node)) (fun child => ih node child)

lemma neutral_descendWithSlot (key : Key) (parent node : GuardO) (pos fuel : Nat) :
    Neutral (descendWithSlot env key parent node pos fuel) := by
  induction fuel generalizing parent node pos with
  | zero => exact fun _ => Does.halt
  | succ fuel ih =>
    refine Neutral.bind (neutral_readPage _ _) (fun inner => ?_)
    refine Neutral.ite (fun _ => ?_) (fun _ => Neutral.pure _)
    refine Neutral.bind ((neutral_readPage _ _).onThrow (neutral_unwindBoth node parent)) ?_
    rintro ⟨pos', nextPage⟩
    refine Neutral.bind ((neutral_leave parent).onThrow (neutral_unwindBoth node parent))
      (fun _ => ?_)
    exact Neutral.bind ((neutral_ofParent env nextPage node).onThrow (neutral_unwind node))
      (fun child => ih node child pos')

lemma neutral_underfull (parent node : GuardO) (pos slotId : Nat) :
    Neutral (underfull parent node pos slotId) := by
  refine Neutral.bind (neutral_readPage _ _) (fun sizeEntry => ?_)
  refine Neutral.bind (neutral_readPage _ _) (fun free => ?_)
  exact Neutral.ite (fun _ => neutral_readPage _ _) (fun _ => Neutral.pure _)

lemma neutral_lookupAttempt (key : Key) (size : Nat) : Neutral (lookupAttempt env key size) := by
  refine Neutral.bind (neutral_findLeafO env key) (fun node => ?_)
  refine Neutral.bind (Neutral.onThrow ?_ (neutral_unwind node)) (fun result => ?_)
  · refine Neutral.bind (neutral_readPage _ _) ?_
    rintro ⟨pos, found⟩
    exact Neutral.ite
      (fun _ => Neutral.bind (neutral_readPage _ _) (fun _ => Neutral.pure _))
      (fun _ => Neutral.pure _)
  · exact Neutral.bind (neutral_leave node) (fun _ => Neutral.pure result)

/-- `findLeafS` adds one shared latch to those of the thread. -/
lemma does_findLeafS (key : Key) (hc : c.Free) :
    Does (findLeafS env key) c (fun p c' => c' = c.lockS p) E := by
  refine does_retry_once env.fuel hc ?_
  refine Does.neutral_bind (neutral_findLeafO env key) rfl (fun node => ?_)
  refine Does.onThrow ((does_ofGuardO_shared node).mono ?_ (fun _ h => h)) ?_
  · rintro _ _ ⟨rfl, rfl⟩
    rfl
  · rintro _ rfl
    exact neutral_unwind node _

end BTree

end MemSafeDB
