import MemSafeDB.System.Conduct

/-!
# Changes of the tree under the discipline

Splits, insertions, removals and whole calls. A call that returns has made exactly the change of
an entry that belongs to its answer, however often it was restarted, and holds no latch.
-/

namespace MemSafeDB
open Lib PageState BufferManager

namespace BTree

variable {env : Env} {c : Core} {E : Core → Prop} {node parent : PID}

/-! ## Single changes -/

/-- An operation that changes pages without changing an entry. -/
lemma does_change {o : Op} (hlegal : ∀ m : Local, m.core = c → m.Legal o)
    (hnext : ∀ (m : Local) r, (m.next o r).core = m.core.change) :
    Does (Program.op (S := signature) o) c (fun _ c' => c' = c.change) E := by
  refine Does.op hlegal ?_
  rintro m rfl r -
  exact hnext m r

/-- An operation that changes an entry. -/
lemma does_effect {o : Op} (hlegal : ∀ m : Local, m.core = c → m.Legal o)
    (hnext : ∀ (m : Local) r, (m.next o r).core = m.core.effect o) :
    Does (Program.op (S := signature) o) c (fun _ c' => c' = c.effect o) E := by
  refine Does.op hlegal ?_
  rintro m rfl r -
  exact hnext m r

lemma does_setUpperInnerNode {q : PID} (hp : node ∈ c.x) :
    Does (Program.op (S := signature) (.setUpperInnerNode node q)) c
      (fun _ c' => c' = c.change) E :=
  does_change (fun m hm => by subst hm; exact hp) (fun _ _ => rfl)

lemma does_setRoot {q : PID} (hq : q ≠ metadataPageId) (hmeta : metadataPageId ∈ c.x) :
    Does (Program.op (S := signature) (.setRoot q)) c (fun _ c' => c' = c.change) E :=
  does_change (fun m hm => by subst hm; exact ⟨hq, hmeta⟩) (fun _ _ => rfl)

lemma does_mergeNodes {slotId : Nat} {right : PID} (hp : node ∈ c.x) (hparent : parent ∈ c.x)
    (hright : right ∈ c.x) :
    Does (Program.op (S := signature) (.mergeNodes node slotId parent right)) c
      (fun _ c' => c.Grows c') E := by
  refine Does.op (fun m hm => by subst hm; exact ⟨hp, hparent, hright⟩) ?_
  rintro m rfl r -
  cases r with
  | false => exact Core.Grows.refl _
  | true => exact Core.grows_change _

/-- Gives a latch back after some changes. -/
lemma does_unfixX_grows {c' : Core} {p : PID} (h : (c.lockX p).Grows c') :
    Does (unfixX p) c' (fun _ c'' => c.Grows c'') E := by
  refine (does_unfixX (h.x_eq ▸ Core.mem_lockX c p)).mono ?_ (fun _ h => h)
  rintro _ _ rfl
  simpa using h.unlockX p

/-- `init` gives back what it takes. -/
lemma does_init : Does (init env) c (fun _ c' => c.Grows c') E := by
  refine (does_fixX env metadataPageId).bind ?_
  rintro page _ ⟨rfl, rfl⟩
  refine (does_allocGuard env true).bind ?_
  rintro root _ ⟨hroot, rfl⟩
  have hmeta : metadataPageId ∈ ((c.lockX metadataPageId).lockX root).change.x :=
    Multiset.mem_cons_of_mem (Core.mem_lockX c _)
  refine (does_setRoot hroot hmeta).bind ?_
  rintro _ _ rfl
  have hgrows : ((c.lockX metadataPageId).lockX root).Grows
      ((c.lockX metadataPageId).lockX root).change.change := ⟨_, rfl⟩
  exact (does_unfixX_grows hgrows).bind (fun _ _ h => does_unfixX_grows h)

/-! ## Splitting -/

/-- The latches of a thread that is about to split the node below the parent. -/
abbrev splitting (c : Core) (node parent : PID) : Core := (c.lockX parent).lockX node

lemma mem_splitting (c : Core) (node parent : PID) :
    node ∈ (splitting c node parent).x ∧ parent ∈ (splitting c node parent).x :=
  ⟨Core.mem_lockX _ _, Multiset.mem_cons_of_mem (Core.mem_lockX c _)⟩

/-- The new root takes the place of the metadata page among the latches. -/
lemma does_growRoot : Does (growRoot env node) (splitting c node metadataPageId)
    (fun p c' => (splitting c node p).Grows c') E := by
  refine (does_allocGuard env false).bind ?_
  rintro newRoot _ ⟨hroot, rfl⟩
  have hheld : newRoot ∈ ((splitting c node metadataPageId).lockX newRoot).change.x :=
    Core.mem_lockX _ newRoot
  refine (does_setUpperInnerNode hheld).bind ?_
  rintro _ _ rfl
  have hmeta : metadataPageId ∈ ((splitting c node metadataPageId).lockX newRoot).change.change.x :=
    Multiset.mem_cons_of_mem (mem_splitting c node metadataPageId).2
  refine (does_setRoot hroot hmeta).bind ?_
  rintro _ _ rfl
  refine (does_unfixX (c := (Core.lockX _ newRoot).change.change.change) hmeta).bind ?_
  rintro _ _ rfl
  have hgrows : ((splitting c node metadataPageId).lockX newRoot).Grows
      ((splitting c node metadataPageId).lockX newRoot).change.change.change := ⟨_, rfl⟩
  have hswap : ((splitting c node metadataPageId).lockX newRoot).unlockX metadataPageId =
      splitting c node newRoot := by
    rw [splitting, splitting, Core.lockX_comm _ node newRoot,
      Core.lockX_comm c metadataPageId newRoot, Core.lockX_comm _ metadataPageId node,
      Core.unlockX_lockX]
  exact Does.pure (hswap ▸ hgrows.unlockX metadataPageId)

lemma does_parentOrNewRoot : Does (parentOrNewRoot env node parent) (splitting c node parent)
    (fun p c' => (splitting c node p).Grows c') E := by
  refine Does.ite (fun hparent => ?_) (fun _ => Does.pure (Core.Grows.refl _))
  rw [hparent]
  exact does_growRoot

lemma does_splitNode {sepSlot : Nat} {sep : Key} (hnode : node ∈ c.x) (hparent : parent ∈ c.x) :
    Does (splitNode env node parent sepSlot sep) c (fun _ c' => c.Grows c') E := by
  refine Does.quiet_bind (quiet_assert _ _) (fun _ => Does.quiet_bind (quiet_assert _ _)
    (fun _ => ?_))
  refine (does_view (Or.inl hnode)).bind ?_
  rintro n _ rfl
  refine (does_allocGuard env n.isLeaf).bind ?_
  rintro newNode c₁ ⟨-, rfl⟩
  refine Does.bind (Q := fun _ c' => c' = (Core.lockX _ newNode).change.change)
    (does_change (fun m hm => ?_) (fun _ _ => rfl)) ?_
  · change node ∈ m.core.x ∧ newNode ∈ m.core.x ∧ parent ∈ m.core.x
    rw [hm]
    exact ⟨Multiset.mem_cons_of_mem hnode, Core.mem_lockX _ newNode,
      Multiset.mem_cons_of_mem hparent⟩
  rintro _ _ rfl
  exact does_unfixX_grows ⟨_, rfl⟩

/-- What the guards of the node and of the parent hold after a split. -/
def Held (c : Core) : Option PID × Option PID → Core → Prop
  | (some node, some parent), c' => (splitting c node parent).Grows c'
  | (none, none), c' => c.Grows c'
  | _, _ => False

/-- The nested call of `ensureSpace` gives back what it takes. -/
def EnsuresSpace (ensureSpace : PID → Key → Nat → Prog Unit) : Prop :=
  ∀ p key payloadLen (c : Core) (E : Core → Prop), c.Free →
    Does (ensureSpace p key payloadLen) c (fun _ c' => c.Grows c') E

lemma does_splitBelow {ensureSpace : PID → Key → Nat → Prog Unit} (he : EnsuresSpace ensureSpace)
    (hfree : c.Free) {c' : Core} (hc : (splitting c node parent).Grows c') :
    Does (splitBelow env ensureSpace node parent) c' (Held c) E := by
  have hnode : node ∈ c'.x := hc.x_eq ▸ (mem_splitting c node parent).1
  have hparent : parent ∈ c'.x := hc.x_eq ▸ (mem_splitting c node parent).2
  refine (does_view (Or.inl hnode)).bind ?_
  rintro n c' rfl
  refine Does.bind (Q := fun _ c'' => c'' = c') (Does.op (fun m hm => ?_) (fun m hm _ _ => hm)) ?_
  · subst hm
    exact hnode
  rintro ordered c' rfl
  refine Does.quiet_bind (quiet_liftFault _) (fun sepInfo => ?_)
  refine (does_view (Or.inl hparent)).bind ?_
  rintro q c' rfl
  refine Does.ite (fun _ => ?_) (fun _ => ?_)
  · refine (does_splitNode hnode hparent).bind (fun _ c'' h => Does.pure ?_)
    exact hc.trans h
  · refine (does_unfixX_grows hc).bind (fun _ c₁ h₁ => ?_)
    refine (does_unfixX_grows h₁).bind (fun _ c₂ h₂ => ?_)
    exact (he parent _ 8 c₂ E (h₂.free hfree)).bind (fun _ _ h => Does.pure (h₂.trans h))

lemma does_trySplit {ensureSpace : PID → Key → Nat → Prog Unit} (he : EnsuresSpace ensureSpace)
    (hfree : c.Free) :
    Does (trySplit env ensureSpace node parent) (splitting c node parent) (Held c) E :=
  does_parentOrNewRoot.bind (fun _ _ h => does_splitBelow he hfree h)

/-- Taking both latches may throw; after that nothing does. -/
lemma does_lockBoth {α : Type} {f : PID → PID → Prog α} {Q : α → Core → Prop}
    (g h : GuardO) (hf : Does (f h.pid g.pid) (splitting c h.pid g.pid) Q (fun c' => c' = c)) :
    Does (do
      let parentLocked ← Program.onThrow (GuardX.ofGuardO env g) (do h.unwind; g.unwind)
      let nodeLocked ← Program.onThrow (GuardX.ofGuardO env h) (do unfixX parentLocked; h.unwind)
      f nodeLocked parentLocked) c Q (fun c' => c' = c) := by
  refine Does.bind (Q := fun p c' => p = g.pid ∧ c' = c.lockX g.pid) ?_ ?_
  · refine (does_ofGuardO env g).onThrow ?_
    rintro _ rfl
    exact neutral_unwindBoth h g _
  rintro _ _ ⟨rfl, rfl⟩
  refine Does.bind (Q := fun p c' => p = h.pid ∧ c' = splitting c h.pid g.pid) ?_ ?_
  · refine (does_ofGuardO env h).onThrow ?_
    rintro _ rfl
    exact does_unfixX_unwind g.pid h
  rintro _ _ ⟨rfl, rfl⟩
  exact hf

lemma does_lockAndSplit {ensureSpace : PID → Key → Nat → Prog Unit}
    (he : EnsuresSpace ensureSpace) (hfree : c.Free) (g h : GuardO) :
    Does (lockAndSplit env ensureSpace g h) c (fun _ c' => c.Grows c') (fun c' => c' = c) := by
  refine does_lockBoth g h ((does_trySplit he hfree).bind ?_)
  rintro ⟨nodeLocked | nodeLocked, parentLocked | parentLocked⟩ c' hheld
  · exact Does.pure hheld
  · exact hheld.elim
  · exact hheld.elim
  · exact (does_unfixX_grows hheld).bind (fun _ _ h => does_unfixX_grows h)

lemma does_ensureSpaceAttempt {ensureSpace : PID → Key → Nat → Prog Unit}
    (he : EnsuresSpace ensureSpace) (hfree : c.Free) (toSplit : PID) (key : Key)
    (payloadLen : Nat) :
    Does (ensureSpaceAttempt env ensureSpace toSplit key payloadLen) c (fun _ c' => c.Grows c')
      (fun c' => c' = c) := by
  have hleave : ∀ g h : GuardO, Does (leaveBoth g h) c (fun _ c' => c.Grows c')
      (fun c' => c' = c) := by
    refine fun g h => (neutral_leaveBoth g h c).mono ?_ (fun _ h => h)
    rintro _ _ rfl
    exact Core.Grows.refl _
  refine Does.neutral_bind (neutral_openRoot env) rfl ?_
  rintro ⟨parent, node⟩
  refine Does.neutral_bind (neutral_descendWithParent env key _ parent node _) rfl ?_
  rintro ⟨parent, node⟩
  refine Does.ite (fun _ => ?_) (fun _ => hleave parent node)
  refine Does.neutral_bind (neutral_readPage _ _) rfl (fun enough => ?_)
  exact Does.ite (fun _ => hleave parent node) (fun _ => does_lockAndSplit he hfree parent node)

lemma grows_finish {c c' : Core} (h : c.begin.Grows c') : c.Grows c'.finish := by
  obtain ⟨n, rfl⟩ := h
  exact ⟨n, rfl⟩

lemma ensuresSpace_ensureSpace (env : Env) (fuel : Nat) : EnsuresSpace (ensureSpace env fuel) := by
  induction fuel with
  | zero => exact fun _ _ _ _ _ _ => Does.halt
  | succ fuel ih =>
    intro p key payloadLen c E hfree
    refine does_retry_once env.fuel hfree ?_
    exact (does_ensureSpaceAttempt ih hfree.begin p key payloadLen).mono (fun _ _ h => grows_finish h)
      (fun _ h => h)

/-! ## Changing the contents -/

/-- The thread has changed one entry, and holds what it held before. -/
def Effected (c : Core) (o : Op) (c' : Core) : Prop := (c.effect o).Grows c'

/-- The leaf is latched and the parent checked; both may throw. -/
lemma does_lockLeaf {α : Type} {f : PID → Prog α} {Q : α → Core → Prop} (parent node : GuardO)
    (hf : Does (f node.pid) (c.lockX node.pid) Q (fun c' => c' = c)) :
    Does (do
      let nodeLocked ← Program.onThrow (GuardX.ofGuardO env node) (do node.unwind; parent.unwind)
      Program.onThrow parent.leave (do unfixX nodeLocked; parent.unwind)
      f nodeLocked) c Q (fun c' => c' = c) := by
  refine Does.bind (Q := fun p c' => p = node.pid ∧ c' = c.lockX node.pid) ?_ ?_
  · refine (does_ofGuardO env node).onThrow ?_
    rintro _ rfl
    exact neutral_unwindBoth node parent _
  rintro _ _ ⟨rfl, rfl⟩
  refine Does.bind (Q := fun _ c' => c' = c.lockX node.pid) ?_ ?_
  · refine (neutral_leave parent _).onThrow ?_
    rintro _ rfl
    exact does_unfixX_unwind node.pid parent
  rintro _ _ rfl
  exact hf

/-- The latch of the leaf is given back after the change. -/
lemma does_unfixX_effect {o : Op} {p : PID} :
    Does (unfixX p) ((c.lockX p).effect o) (fun _ c' => c' = c.effect o) E := by
  have hheld : p ∈ ((c.effect o).lockX p).x := Core.mem_lockX _ p
  refine (does_unfixX hheld).mono ?_ (fun _ h => h)
  rintro _ _ rfl
  exact Core.unlockX_lockX (c.effect o) p

lemma does_insertInPage {p : PID} (key payload : Key) (hp : p ∈ c.x) :
    Does (Program.op (S := signature) (.insertInPage p key payload)) c
      (fun _ c' => c' = c.effect (.insertInPage p key payload)) E :=
  does_effect (fun m hm => by subst hm; exact hp) (fun _ _ => rfl)

lemma does_removeSlot {p : PID} (slotId : Nat) (hp : p ∈ c.x) :
    Does (Program.op (S := signature) (.removeSlot p slotId)) c
      (fun _ c' => c' = c.effect (.removeSlot p slotId)) E :=
  does_effect (fun m hm => by subst hm; exact hp) (fun _ _ => rfl)

lemma does_updatePayload {p : PID} (slotId : Nat) (fn : PayloadUpdate) (hp : p ∈ c.x) :
    Does (Program.op (S := signature) (.updatePayload p slotId fn)) c
      (fun _ c' => c' = c.effect (.updatePayload p slotId fn)) E :=
  does_effect (fun m hm => by subst hm; exact hp) (fun _ _ => rfl)

lemma does_insertAttempt (key payload : Key) (hfree : c.Free) :
    Does (insertAttempt env key payload) c
      (fun r c' => match r with
        | some _ => ∃ p, Effected c (.insertInPage p key payload) c'
        | none => c.Grows c')
      (fun c' => c' = c) := by
  refine Does.neutral_bind (neutral_openRoot env) rfl ?_
  rintro ⟨parent, node⟩
  refine Does.neutral_bind (neutral_descendWithParent env key _ parent node _) rfl ?_
  rintro ⟨parent, node⟩
  refine Does.neutral_bind (neutral_readPage _ _) rfl (fun enough => ?_)
  refine Does.ite (fun _ => does_lockLeaf parent node ?_) (fun _ => ?_)
  · refine (does_insertInPage key payload (Core.mem_lockX c _)).bind ?_
    rintro _ _ rfl
    refine does_unfixX_effect.bind ?_
    rintro _ _ rfl
    exact Does.pure ⟨node.pid, Core.Grows.refl _⟩
  · refine (does_lockAndSplit (ensuresSpace_ensureSpace env env.fuel) hfree parent node).bind ?_
    exact fun _ _ h => Does.pure h

/-- However often it starts anew, `insert` adds one entry. -/
lemma does_insert (key payload : Key) (hfree : c.Free) :
    Does (insert env key payload) c
      (fun _ c' => ∃ p, Effected c (.insertInPage p key payload) c') E := by
  refine Does.quiet_bind (quiet_assert _ _) (fun _ => ?_)
  refine does_retry (I := c.Grows) ?_ (fun _ h => h.free hfree) env.fuel (Core.Grows.refl c)
  intro c₁ hc₁
  refine (does_insertAttempt key payload (hc₁.free hfree).begin).mono ?_ (fun _ h => h)
  rintro (_ | _) c' hc'
  · exact hc₁.trans (grows_finish hc')
  · obtain ⟨p, n, rfl⟩ := hc'
    obtain ⟨m, rfl⟩ := hc₁
    exact ⟨p, n, rfl⟩

/-- The merge, or its absence, and the latches given back. -/
lemma does_mergeRight (c : Core) (node parent right : PID) (pos : Nat) :
    Does (do
      let n ← view right
      if pageSize - underFullSize ≤ n.freeSpaceAfterCompaction then
        let _ ← Program.op (S := signature) (.mergeNodes node pos parent right)
      else
        pure ()
      unfixX right
      unfixX node
      unfixX parent) ((splitting c node parent).lockX right) (fun _ c' => c.Grows c') E := by
  obtain ⟨hnode, hparent⟩ := mem_splitting c node parent
  have hright := Core.mem_lockX (splitting c node parent) right
  have hunlock : ∀ c', ((splitting c node parent).lockX right).Grows c' →
      Does (do unfixX right; unfixX node; unfixX parent) c' (fun _ c' => c.Grows c') E :=
    fun c₁ h₁ => (does_unfixX_grows h₁).bind (fun _ c₂ h₂ =>
      (does_unfixX_grows h₂).bind (fun _ _ h => does_unfixX_grows h))
  refine (does_view (Or.inl hright)).bind ?_
  rintro n _ rfl
  refine Does.ite (fun _ => ?_) (fun _ => hunlock _ (Core.Grows.refl _))
  exact (does_mergeNodes (Multiset.mem_cons_of_mem hnode) (Multiset.mem_cons_of_mem hparent)
    hright).bind (fun _ c₁ h₁ => hunlock c₁ h₁)

lemma does_removeAndMerge (parent node : GuardO) (pos slotId : Nat) :
    Does (removeAndMerge env parent node pos slotId) c
      (fun _ c' => Effected c (.removeSlot node.pid slotId) c') (fun c' => c' = c) := by
  refine does_lockBoth parent node ?_
  obtain ⟨hnode, hparent⟩ := mem_splitting c node.pid parent.pid
  refine (does_view (Or.inl hparent)).bind ?_
  rintro q _ rfl
  refine (does_fixX env _).bind ?_
  rintro right c' ⟨hright, hc'⟩
  rw [← hright] at hc'
  subst hc'
  have hheld : node.pid ∈ ((splitting c node.pid parent.pid).lockX right).x :=
    Multiset.mem_cons_of_mem hnode
  refine (does_removeSlot slotId hheld).bind ?_
  rintro _ _ rfl
  exact does_mergeRight (c.effect (.removeSlot node.pid slotId)) node.pid parent.pid _ pos

lemma does_removeOnly (parent node : GuardO) (slotId : Nat) :
    Does (removeOnly env parent node slotId) c
      (fun _ c' => Effected c (.removeSlot node.pid slotId) c') (fun c' => c' = c) := by
  refine does_lockLeaf parent node ((does_removeSlot slotId (Core.mem_lockX c _)).bind ?_)
  rintro _ _ rfl
  refine does_unfixX_effect.mono ?_ (fun _ h => h)
  rintro _ _ rfl
  exact Core.Grows.refl _

/-- The entries that `remove` has changed when it returns. -/
def Removed (c : Core) (found : Bool) (c' : Core) : Prop :=
  if found then ∃ p slotId, Effected c (.removeSlot p slotId) c' else c' = c

lemma does_removeAttempt (key : Key) :
    Does (removeAttempt env key) c (Removed c) (fun c' => c' = c) := by
  refine Does.neutral_bind (neutral_openRoot env) rfl ?_
  rintro ⟨parent, node⟩
  refine Does.neutral_bind (neutral_descendWithSlot env key parent node 0 _) rfl ?_
  rintro ⟨parent, node, pos⟩
  refine Does.neutral_bind ((neutral_readPage _ _).onThrow (neutral_unwindBoth node parent)) rfl ?_
  rintro ⟨slotId, found⟩
  refine Does.ite (fun _ => ?_) (fun _ => ?_)
  · refine Does.neutral_bind (neutral_underfull parent node pos slotId) rfl (fun merge => ?_)
    have hthen : Does (if merge then removeAndMerge env parent node pos slotId
        else removeOnly env parent node slotId) c
        (fun _ c' => Effected c (.removeSlot node.pid slotId) c') (fun c' => c' = c) :=
      Does.ite (fun _ => does_removeAndMerge parent node pos slotId)
        (fun _ => does_removeOnly parent node slotId)
    cases merge with
    | true => exact hthen.bind (fun _ _ h => Does.pure ⟨node.pid, slotId, h⟩)
    | false => exact hthen.bind (fun _ _ h => Does.pure ⟨node.pid, slotId, h⟩)
  · refine Does.neutral_bind (neutral_leaveBoth parent node) rfl (fun _ => ?_)
    exact Does.pure rfl

lemma does_remove (key : Key) (hfree : c.Free) : Does (remove env key) c (Removed c) E := by
  refine does_retry_once env.fuel hfree ((does_removeAttempt key).mono ?_ (fun _ h => h))
  rintro (_ | _) c' hc'
  · obtain rfl : c' = c.begin := hc'
    rfl
  · obtain ⟨p, slotId, n, rfl⟩ := hc'
    exact ⟨p, slotId, n, rfl⟩

/-- The entries that `updateInPlace` has changed when it returns. -/
def Updated (c : Core) (fn : PayloadUpdate) (found : Bool) (c' : Core) : Prop :=
  if found then ∃ p slotId, c' = c.effect (.updatePayload p slotId fn) else c' = c

lemma does_updateAttempt (key : Key) (fn : PayloadUpdate) :
    Does (updateAttempt env key fn) c (Updated c fn) (fun c' => c' = c) := by
  refine Does.neutral_bind (neutral_findLeafO env key) rfl (fun node => ?_)
  refine Does.neutral_bind ((neutral_readPage _ _).onThrow (neutral_unwind node)) rfl ?_
  rintro ⟨pos, found⟩
  refine Does.ite (fun _ => ?_) (fun _ => ?_)
  · refine Does.bind (Q := fun p c' => p = node.pid ∧ c' = c.lockX node.pid) ?_ ?_
    · refine (does_ofGuardO env node).onThrow ?_
      rintro _ rfl
      exact neutral_unwind node _
    rintro _ _ ⟨rfl, rfl⟩
    refine (does_updatePayload pos fn (Core.mem_lockX c _)).bind ?_
    rintro _ _ rfl
    refine does_unfixX_effect.bind ?_
    rintro _ _ rfl
    exact Does.pure ⟨node.pid, pos, rfl⟩
  · refine Does.neutral_bind (neutral_leave node) rfl (fun _ => ?_)
    exact Does.pure rfl

lemma does_updateInPlace (key : Key) (fn : PayloadUpdate) (hfree : c.Free) :
    Does (updateInPlace env key fn) c (Updated c fn) E := by
  refine does_retry_once env.fuel hfree ((does_updateAttempt key fn).mono ?_ (fun _ h => h))
  rintro (_ | _) c' hc'
  · obtain rfl : c' = c.begin := hc'
    rfl
  · obtain ⟨p, slotId, rfl⟩ := hc'
    exact ⟨p, slotId, rfl⟩

/-! ## Scans -/

/-- The end of a scan. -/
lemma does_unfixS_pure {α : Type} (p : PID) (a : α) :
    Does (do unfixS env p; pure a) (c.lockS p) (fun _ c' => c' = c) E := by
  refine (does_unfixS env (Core.mem_lockS c p)).bind ?_
  rintro _ _ rfl
  exact Does.pure (Core.unlockS_lockS c p)

lemma does_scanAscLoop (fn : List (Key × Key) → Bool) (node : PID) (pos : Nat)
    (acc : List (Key × Key)) (fuel : Nat) :
    Does (scanAscLoop env fn node pos acc fuel) (c.lockS node) (fun _ c' => c' = c) E := by
  induction fuel generalizing node pos acc with
  | zero => exact Does.halt
  | succ fuel ih =>
    refine (does_view (Or.inr (Core.mem_lockS c node))).bind ?_
    rintro n _ rfl
    refine Does.ite (fun _ => Does.ite (fun _ => ih _ _ _) (fun _ => does_unfixS_pure node _))
      (fun _ => Does.ite (fun _ => does_unfixS_pure node _) (fun _ => ?_))
    refine (does_fixS env n.link).bind ?_
    rintro next _ ⟨rfl, rfl⟩
    have hheld : node ∈ ((c.lockS node).lockS n.link).s :=
      Multiset.mem_cons_of_mem (Core.mem_lockS c node)
    refine (does_unfixS env hheld).bind ?_
    rintro _ _ rfl
    rw [Core.unlockS_lockS_lockS]
    exact ih _ _ _

lemma does_scanAsc (key : Key) (fn : List (Key × Key) → Bool) (hfree : c.Free) :
    Does (scanAsc env key fn) c (fun _ c' => c' = c) E := by
  refine (does_findLeafS env key hfree).bind ?_
  rintro node _ rfl
  refine (does_view (Or.inr (Core.mem_lockS c node))).bind ?_
  rintro n _ rfl
  refine Does.quiet_bind (quiet_liftFault _) ?_
  rintro ⟨pos, exactMatch⟩
  exact does_scanAscLoop fn node pos [] env.fuel

lemma does_scanDescLoop (fn : Bool → List (Key × Key) → Bool) (exactMatch : Bool) (node : PID)
    (left : Nat) (acc : List (Key × Key)) (fuel : Nat) (hx : c.x = 0)
    (hcurrent : ∃ key fn, c.current = some (.scanDesc key fn)) :
    Does (scanDescLoop env fn exactMatch node left acc fuel) (c.lockS node)
      (fun _ c' => c' = c) E := by
  induction fuel generalizing node left acc with
  | zero => exact Does.halt
  | succ fuel ih =>
    refine (does_view (Or.inr (Core.mem_lockS c node))).bind ?_
    rintro n _ rfl
    cases left with
    | succ pos => exact Does.ite (fun _ => ih _ _ _) (fun _ => does_unfixS_pure node _)
    | zero =>
      refine Does.ite (fun _ => does_unfixS_pure node _) (fun _ => ?_)
      have hfree : (c.lockS node).Free := ⟨hx, Or.inr hcurrent⟩
      refine (does_findLeafS env n.getLowerFence hfree).bind ?_
      rintro next _ rfl
      have hheld : node ∈ ((c.lockS node).lockS next).s :=
        Multiset.mem_cons_of_mem (Core.mem_lockS c node)
      refine (does_unfixS env hheld).bind ?_
      rintro _ _ rfl
      rw [Core.unlockS_lockS_lockS]
      refine (does_view (Or.inr (Core.mem_lockS c next))).bind ?_
      rintro m _ rfl
      exact ih _ _ _

lemma does_scanDesc (key : Key) (fn : Bool → List (Key × Key) → Bool) (hx : c.x = 0)
    (hcurrent : ∃ key fn, c.current = some (.scanDesc key fn)) :
    Does (scanDesc env key fn) c (fun _ c' => c' = c) E := by
  refine (does_findLeafS env key ⟨hx, Or.inr hcurrent⟩).bind ?_
  rintro node _ rfl
  refine (does_view (Or.inr (Core.mem_lockS c node))).bind ?_
  rintro n _ rfl
  refine Does.quiet_bind (quiet_liftFault _) ?_
  rintro ⟨pos, exactMatch⟩
  exact Does.ite (fun _ => does_scanDescLoop fn true node pos [] env.fuel hx hcurrent)
    (fun _ => does_scanDescLoop fn exactMatch node (pos + 1) [] env.fuel hx hcurrent)

end BTree

/-! ## Calls -/

section Calls

variable {env : Env} {c : Core} {E : Core → Prop}

/-- The call has made the changes that belong to its answer, and holds what the thread held. -/
def Ran (c : Core) (call : Call) (a : Answer) (c' : Core) : Prop :=
  ∃ es n, c' = { c with changes := n, effects := c.effects ++ es } ∧ call.Effects a es

lemma Ran.none {call : Call} {a : Answer} (h : call.Effects a []) : Ran c call a c :=
  ⟨[], c.changes, by rw [List.append_nil], h⟩

lemma Ran.one {call : Call} {a : Answer} {o : Op} {c' : Core} (hc : (c.effect o).Grows c')
    (h : call.Effects a [o]) : Ran c call a c' := by
  obtain ⟨n, rfl⟩ := hc
  exact ⟨[o], n, rfl, h⟩

lemma Core.Idle.free (h : c.Idle) : c.Free := ⟨h.1, Or.inl h.2⟩

lemma does_run (call : Call) (hc : c.Idle) (hcurrent : c.current = some call) :
    Does (call.run env) c (Ran c call) E := by
  cases call with
  | lookup key size =>
    refine Does.bind (Q := fun _ c' => c' = c) (does_retry_once env.fuel hc.free ?_) ?_
    · refine (BTree.neutral_lookupAttempt env key size _).mono ?_ (fun _ h => h)
      rintro _ _ rfl
      rfl
    · rintro r _ rfl
      exact Does.pure (Ran.none rfl)
  | insert key payload =>
    refine (BTree.does_insert key payload hc.free).bind ?_
    rintro _ c' ⟨p, hp⟩
    exact Does.pure (Ran.one hp ⟨p, rfl⟩)
  | remove key =>
    refine (BTree.does_remove key hc.free).bind ?_
    rintro (_ | _) c' hc'
    · obtain rfl : c' = c := hc'
      exact Does.pure (Ran.none rfl)
    · obtain ⟨p, slotId, hp⟩ := hc'
      exact Does.pure (Ran.one hp ⟨p, slotId, rfl⟩)
  | updateInPlace key fn =>
    refine (BTree.does_updateInPlace key fn hc.free).bind ?_
    rintro (_ | _) c' hc'
    · obtain rfl : c' = c := hc'
      exact Does.pure (Ran.none rfl)
    · obtain ⟨p, slotId, rfl⟩ := hc'
      exact Does.pure (Ran.one (Core.Grows.refl _) ⟨p, slotId, rfl⟩)
  | scanAsc key fn =>
    refine (BTree.does_scanAsc key fn hc.free).bind ?_
    rintro l _ rfl
    exact Does.pure (Ran.none rfl)
  | scanDesc key fn =>
    refine (BTree.does_scanDesc key fn hc.1 ⟨key, fn, hcurrent⟩).bind ?_
    rintro l _ rfl
    exact Does.pure (Ran.none rfl)
  | setSplitOrdered b =>
    refine Does.bind (Q := fun _ c' => c' = c) (Does.op (fun _ _ => trivial)
      (fun m hm _ _ => hm)) ?_
    rintro _ _ rfl
    exact Does.pure (Ran.none rfl)

lemma does_perform (call : Call) (hc : c.Idle) :
    Does (call.perform env) c (fun _ => Core.Idle) E := by
  have hcall : Does (Program.op (S := signature) (.call call)) c
      (fun _ c' => c' = { c with current := some call, effects := [] }) E := by
    refine Does.op ?_ ?_
    · rintro m rfl
      exact hc
    · rintro m rfl _ -
      rfl
  refine hcall.bind ?_
  rintro _ c₁ hc₁
  have hidle : c₁.Idle := by
    rw [hc₁]
    exact hc
  refine (does_run call hidle (by rw [hc₁])).bind ?_
  subst hc₁
  rintro a _ ⟨es, n, rfl, hes⟩
  refine Does.bind (Q := fun _ => Core.Idle) (Does.op ?_ ?_) (fun _ _ h => Does.pure h)
  · intro m hm
    change m.core.x = 0 ∧ m.core.s = 0 ∧ ∃ c, m.core.current = some c ∧ c.Effects a m.core.effects
    rw [hm]
    exact ⟨hc.1, hc.2, call, rfl, hes⟩
  · intro m hm _ _
    change m.core.Idle
    rw [hm]
    exact hc

lemma does_session (calls : List Call) (hc : c.Idle) :
    Does (session env calls) c (fun _ => Core.Idle) E := by
  induction calls generalizing c with
  | nil => exact Does.pure hc
  | cons call calls ih =>
    refine (does_perform call hc).bind (fun a c₁ h₁ => ?_)
    exact (ih h₁).bind (fun as _ h => Does.pure h)

/-- A thread of the tree keeps the discipline. -/
lemma does_thread (calls : List Call) (hc : c.Idle) :
    Does (thread env calls) c (fun _ => Core.Idle) E :=
  (does_session calls hc).bind (fun _ _ h => Does.pure h)

end Calls

end MemSafeDB
