import MemSafeDB.Concurrent.Removing

/-!
# Splits among other threads

A split holds the node and its parent, so that what the guards have seen of the parent tells the
interval of the node. Below the metadata page a new root comes first.
-/

namespace MemSafeDB
open Lib PageState

variable {τ : Type} [DecidableEq τ]

namespace Point

variable {m m' : Point τ} {key sep : Key} {p q c z : PID} {parent node : GuardO} {t : τ}
  {X S : List PID} {cl : Call}

/-- The page is its parent's child on the path of the key. -/
lemma Inv.childOn (hi : Inv m) (h : Below key c (m.now.sight p)) :
    ∃ j, m.now.tree.ChildOn key c p j := by
  obtain ⟨l, hl, hk, hchild⟩ := h
  obtain ⟨hlevel, hcovers⟩ := hi.tree.childFor hl hk
  rw [show (m.now.tree.view p).childFor key = c from hchild] at hlevel hcovers
  exact ⟨l, hlevel, hl, hcovers, hchild, hk⟩

/-- The new root leads every descent to the old one. -/
lemma Inv.below_setRoot (hi : Inv m) (hp : m.now.level p = none)
    (hpage : m.now.page p = { BTreeNode.new false with link := m.now.root }) (t : τ) (key : Key) :
    Below key m.now.root ((m.now.setRoot t p).sight p) := by
  obtain ⟨l, hl, -⟩ := hi.tree.root
  have htree := Sys.tree_setRoot hl hpage t
  have hne : m.now.tree.root ≠ p := by
    rintro rfl
    rw [show m.now.level m.now.tree.root = some l from hl] at hp
    cases hp
  have hchild := hi.tree.childOn_growRoot hl hne key
  rw [← htree] at hchild
  exact ⟨l, hchild.parent, hchild.covered, hchild.childFor⟩

lemma Sys.trace_splitNode (s : Sys τ) (t : τ) (p newPID parent : PID) (sepSlot : Nat) (sep : Key) :
    (s.splitNode t p newPID parent sepSlot sep).trace = s.trace := by
  unfold Sys.splitNode
  split <;> rfl

/-! ## What a split needs -/

/-- What is known of the separator when the node is split. -/
structure Separating (n : BTreeNode) (sepSlot : Nat) (sep : Key) : Prop where
  separator : ∃ info es e fs, Separator n.view info sep es e fs ∧ info.slot = sepSlot

omit [DecidableEq τ] in
/-- What is found of the separator of a full page. -/
lemma separating {n : BTreeNode} (hn : n.Valid) (b : Bool) :
    (∃ f, n.findSeparator b = .error f ∧ Expected f) ∨ ∃ info, n.findSeparator b = .ok info ∧
      info.len = (n.getSep info).length ∧ Separating n info.slot (n.getSep info) := by
  by_cases hcount : 1 < n.count
  · obtain ⟨info, es, e, fs, hfind, hsep, -⟩ := hn.findSeparator_eq hcount b
    exact Or.inr ⟨info, hfind, hsep.len, info, es, e, fs, hsep, rfl⟩
  · refine Or.inl ⟨.assertion .separatorCount, ?_, Or.inr ⟨_, rfl⟩⟩
    simp only [BTreeNode.findSeparator, check, hcount, ite_false, Bind.bind, Except.bind]

/-- The pages of a split: the parent leads to the node. -/
structure Latched (t : τ) (cl : Call) (key : Key) (node parent : PID) (m : Point τ) : Prop where
  owns : Owns t [node, parent] [] m
  pending : Pending t cl m.now.trace
  leads : Knows t parent (Below key node) m

/-- The parent of the node has space for the separator. -/
structure Primed (t : τ) (cl : Call) (key sep : Key) (n : BTreeNode) (node parent : PID)
    (m : Point τ) : Prop where
  pending : Pending t cl m.now.trace
  page : Knows t node (fun s => s.page = n) m
  space : Knows t parent (fun s => Below key node s ∧ s.page.hasSpaceFor sep.length 8 = true) m

/-- What the guards of the caller hold after `trySplit`. -/
def AfterSplit (t : τ) (cl : Call) : Option PID × Option PID → Point τ → Prop
  | (some node, some parent), m => Owns t [node, parent] [] m ∧ Pending t cl m.now.trace
  | (none, none), m => Begun t cl m
  | _, _ => False

/-- `ensureSpace` leaves everything to the thread as it was. -/
def MakesSpace (steady : Prop) (t : τ) (cl : Call) (ens : PID → Key → Nat → Prog Unit) : Prop :=
  ∀ (E : Point τ → Prop) (m : Point τ) (p : PID) (sep : Key) (n : Nat), Inv m → Begun t cl m →
    Serves steady t (ens p sep n) m (fun _ => Begun t cl) E

section Instances

variable {n : BTreeNode} {node parent : PID}

instance : Lasts t (Latched t cl key node parent) :=
  ⟨fun m m' hi ha hs h => ⟨Lasts.lasts m m' hi ha hs h.owns,
    Lasts.lasts (A := fun m => Pending t cl m.now.trace) m m' hi ha hs h.pending,
    Lasts.lasts m m' hi ha hs h.leads⟩⟩

instance : Lasts t (Primed t cl key sep n node parent) :=
  ⟨fun m m' hi ha hs h =>
    ⟨Lasts.lasts (A := fun m => Pending t cl m.now.trace) m m' hi ha hs h.pending,
      Lasts.lasts m m' hi ha hs h.page, Lasts.lasts m m' hi ha hs h.space⟩⟩

instance : About t [node, parent] (Primed t cl key sep n node parent) :=
  ⟨fun m m' ha hX ht h =>
    ⟨ht ▸ h.pending, About.keep m m' ha hX ht h.page, About.keep m m' ha hX ht h.space⟩⟩

instance (r : Option PID × Option PID) : Lasts t (AfterSplit t cl r) := by
  obtain ⟨_ | node, _ | parent⟩ := r
  · exact inferInstanceAs (Lasts t (Begun t cl))
  · exact inferInstanceAs (Lasts t (fun _ => False))
  · exact inferInstanceAs (Lasts t (fun _ => False))
  · exact inferInstanceAs (Lasts t (fun m => Owns t [node, parent] [] m ∧
      Pending t cl m.now.trace))

end Instances

section Rules

variable {steady : Prop} {env : Env} {E K : Point τ → Prop} [Lasts t K]

namespace Serves

/-- The new root above the old one. -/
lemma growRoot {node : PID} (hi : Inv m) (ho : Owns t [node, metadataPageId] [] m)
    (hc : Pending t cl m.now.trace) (hroot : Knows t metadataPageId (fun s => s.root = node) m) :
    Serves steady t (BTree.growRoot env node) m (fun p => Latched t cl key node p) E := by
  refine bind hi (allocGuard (K := fun m => Pending t cl m.now.trace ∧
    Knows t metadataPageId (fun s => s.root = node) m) (X := [node, metadataPageId]) hi ho
    ⟨hc, hroot⟩ false) ?_
  rintro p m hi ⟨hnew, ho, hp, hc, hroot⟩
  refine bind (Q := fun _ m => Owns t [p, node, metadataPageId] [] m ∧
    Knows t p (fun s => s.level = none ∧ s.page = { BTreeNode.new false with link := node }) m ∧
    Pending t cl m.now.trace ∧ Knows t metadataPageId (fun s => s.root = node) m) hi
    (act (o := .setUpperInnerNode p node) (A := fun m => Owns t [p, node, metadataPageId] [] m ∧
      Knows t p (fun s => s.level = none ∧ s.page = BTreeNode.new false) m ∧
      Pending t cl m.now.trace ∧ Knows t metadataPageId (fun s => s.root = node) m) id
      ⟨ho, hp, hc, hroot⟩ ?_) ?_
  · rintro m hi ⟨ho, hp, hc, hroot⟩ -
    refine ⟨hp.fact.1, fun c r m' hperform hi' hm => ?_⟩
    obtain ⟨-, hnow⟩ := Prod.mk.inj (Option.some.inj hperform)
    have hne : metadataPageId ≠ p := hnew.pos.ne
    have ho' := ho.acted hm
    refine ⟨ho', ⟨ho'.holds.mpr (Or.inl List.mem_cons_self), ?_⟩, by rw [← hnow]; exact hc,
      hroot.acted (by simpa [Op.touched] using hne) hm⟩
    rw [← hnow]
    refine ⟨hp.fact.1, (Function.update_self _ _ _).trans ?_⟩
    rw [show m.now.page p = BTreeNode.new false from hp.fact.2]
  rintro _ m hi hA
  refine bind (Q := fun _ m => Owns t [metadataPageId, node, p] [] m ∧
    Pending t cl m.now.trace ∧ Knows t p (Below key node) m) hi
    (act (o := .setRoot p) (A := fun m => Owns t [p, node, metadataPageId] [] m ∧
      Knows t p (fun s => s.level = none ∧ s.page = { BTreeNode.new false with link := node }) m ∧
      Pending t cl m.now.trace ∧ Knows t metadataPageId (fun s => s.root = node) m) id hA ?_) ?_
  · rintro m hi ⟨ho, hp, hc, hroot⟩ -
    have hnode : m.now.root = node := m.now.root_sight.symm.trans hroot.fact
    have hpage : m.now.page p = { BTreeNode.new false with link := m.now.root } :=
      hnode ▸ hp.fact.2
    refine ⟨⟨ho.mem_xHolders.mpr List.mem_cons_self, hp.fact.1, ⟨hnew.pos, hnew.lt⟩, hpage⟩, ?_⟩
    intro c r m' hperform hi' hm
    obtain ⟨-, hnow⟩ := Prod.mk.inj (Option.some.inj hperform)
    have ho' := ho.acted hm
    refine ⟨ho'.perm (List.reverse_perm [metadataPageId, node, p]), by rw [← hnow]; exact hc,
      ⟨ho'.holds.mpr (Or.inl List.mem_cons_self), ?_⟩⟩
    rw [← hnow, ← hnode]
    exact hi.below_setRoot hp.fact.1 hpage t key
  rintro _ m hi ⟨ho, hc, hp⟩
  refine bind hi (unfixX (X := [node, p]) (K := fun m => Pending t cl m.now.trace ∧
    Knows t p (Below key node) m) hi ho ⟨hc, hp⟩) ?_
  rintro _ m - ⟨ho, hc, hp⟩
  exact pure ⟨ho, hc, hp⟩

/-- The parent of the split. -/
lemma parentOrNewRoot {node parent : PID} (hi : Inv m) (ho : Owns t [node, parent] [] m)
    (hc : Pending t cl m.now.trace) (hleads : Knows t parent (Leads key parent node) m) :
    Serves steady t (BTree.parentOrNewRoot env node parent) m
      (fun p => Latched t cl key node p) E := by
  refine ite (fun hmeta => ?_) (fun hmeta => ?_)
  · subst hmeta
    refine growRoot hi ho hc ⟨hleads.holds, ?_⟩
    rcases hleads.fact with ⟨-, hroot⟩ | ⟨l, hl, -⟩
    · exact hroot
    · exact absurd rfl (hi.tree.bound _ _ hl).1.ne
  · exact pure ⟨ho, hc, hleads.holds, hleads.fact.resolve_left (fun h => hmeta h.1)⟩

/-- The splitting of a node, with an assertion for each slot that cannot be split at. -/
lemma splitNode {node parent : PID} {n : BTreeNode} {sepSlot : Nat} (hi : Inv m)
    (ho : Owns t [node, parent] [] m) (h : Primed t cl key sep n node parent m)
    (hsep : Separating n sepSlot sep) :
    Serves steady t (BTree.splitNode env node parent sepSlot sep) m
      (fun _ m => Owns t [node, parent] [] m ∧ Pending t cl m.now.trace) E := by
  refine bind hi (assert (A := fun m => Owns t [node, parent] [] m ∧
    Primed t cl key sep n node parent m) .sepSlotPositive _ ⟨ho, h⟩) ?_
  rintro _ m hi ⟨hA, hpos⟩
  refine bind hi (assert (A := fun m => Owns t [node, parent] [] m ∧
    Primed t cl key sep n node parent m) .sepSlotBound _ hA) ?_
  rintro _ m hi ⟨hA, -⟩
  refine bind (Q := fun _ m => Owns t [node, parent] [] m ∧ Primed t cl key sep n node parent m) hi
    (view hA fun _ _ h => h) ?_
  rintro n' m hi ⟨ho, h⟩
  refine bind hi (allocGuard (K := Primed t cl key sep n node parent) (X := [node, parent]) hi ho h
    n'.isLeaf) ?_
  rintro newNode m hi ⟨hnew, ho, hp, h⟩
  refine bind (Q := fun _ m => Owns t [newNode, node, parent] [] m ∧ Pending t cl m.now.trace) hi
    (act (o := .splitNode node newNode parent sepSlot sep)
      (A := fun m => Owns t [newNode, node, parent] [] m ∧ Knows t newNode (fun s =>
        s.level = none ∧ s.page = BTreeNode.new n'.isLeaf) m ∧
        Primed t cl key sep n node parent m) id ⟨ho, hp, h⟩ ?_) ?_
  · rintro m hi ⟨ho, hp, h⟩ -
    refine ⟨?_, fun c r m' hperform hi' hm => ⟨ho.acted hm, ?_⟩⟩
    · obtain ⟨j, hchild⟩ := hi.childOn h.space.fact.1
      obtain ⟨info, es, e, fs, hs, rfl⟩ := hsep.separator
      have hview : m.now.tree.view node = n.view := congrArg BTreeNode.view h.page.fact
      rw [← hview] at hs
      exact ⟨key, j, info, es, e, fs, hchild, hs, rfl, hpos, h.space.fact.2, hp.fact.1,
        hnew.pos, hnew.lt⟩
    · obtain ⟨-, hnow⟩ := Prod.mk.inj (Option.some.inj hperform)
      have htrace : m'.now.trace = m.now.trace :=
        hnow ▸ Sys.trace_splitNode m.now t node newNode parent sepSlot sep
      rw [htrace]
      exact h.pending
  rintro _ m hi ⟨ho, hc⟩
  exact unfixX (X := [node, parent]) (K := fun m => Pending t cl m.now.trace) hi ho hc

lemma splitBelow {node parent : PID} {ens : PID → Key → Nat → Prog Unit}
    (hens : MakesSpace steady t cl ens) (hi : Inv m) (h : Latched t cl key node parent m) :
    Serves steady t (BTree.splitBelow env ens node parent) m (AfterSplit t cl) E := by
  refine bind (Q := fun n m => Latched t cl key node parent m ∧ Knows t node (fun s => s.page = n) m)
    hi (view (A := Latched t cl key node parent) h (fun m _ h => ⟨h, ?_, rfl⟩)) ?_
  · exact h.owns.holds.mpr (Or.inl List.mem_cons_self)
  rintro n m hi ⟨h, hn⟩
  refine bind (Q := fun _ m => Latched t cl key node parent m ∧
    Knows t node (fun s => s.page = n) m) hi
    (quiet (o := .splitOrdered node) (A := fun m => Latched t cl key node parent m ∧
      Knows t node (fun s => s.page = n) m) (fun _ => trivial) ⟨h, hn⟩ ?_) ?_
  · exact fun m _ h _ => ⟨trivial, fun _ _ _ _ => h⟩
  rintro b m hi ⟨h, hn⟩
  obtain ⟨j, hchild⟩ := hi.childOn h.leads.fact
  have hvalid : n.Valid := by
    rw [← show m.now.page node = n from hn.fact]
    exact hi.valid hchild.node
  rcases separating hvalid b with ⟨f, hfind, hf⟩ | ⟨info, hfind, hlen, hsep⟩
  · rw [hfind]
    refine bind (Q := fun _ _ => False) hi (crash hf) ?_
    exact fun _ _ _ h => h.elim
  rw [hfind]
  refine bind (Q := fun i m => info = i ∧ Latched t cl key node parent m ∧
    Knows t node (fun s => s.page = n) m) hi (pure ⟨rfl, h, hn⟩) ?_
  rintro _ m hi ⟨rfl, h, hn⟩
  refine bind (Q := fun q m => Latched t cl key node parent m ∧ Knows t node (fun s => s.page = n) m ∧
    Knows t parent (fun s => s.page = q) m) hi (view (A := fun m => Latched t cl key node parent m ∧
    Knows t node (fun s => s.page = n) m) ⟨h, hn⟩ (fun m _ h => ⟨h.1, h.2, h.1.leads.holds, rfl⟩)) ?_
  rintro q m hi ⟨h, hn, hq⟩
  refine ite (fun hspace => ?_) (fun _ => ?_)
  · rw [hlen] at hspace
    have hprimed : Primed t cl key (n.getSep info) n node parent m :=
      ⟨h.pending, hn, h.leads.holds, h.leads.fact, by
        rw [show (m.now.sight parent).page = q from hq.fact]
        exact hspace⟩
    refine bind hi (splitNode hi h.owns hprimed hsep) ?_
    rintro _ m hi hA
    exact pure hA
  · refine bind hi (unfixX (X := [parent]) (K := fun m => Pending t cl m.now.trace) hi h.owns
      h.pending) ?_
    rintro _ m hi ⟨ho, hc⟩
    refine bind hi (unfixX (X := []) (K := fun m => Pending t cl m.now.trace) hi ho hc) ?_
    rintro _ m hi ⟨ho, hc⟩
    refine bind hi (hens E m parent _ 8 hi ⟨ho, hc⟩) ?_
    rintro _ m hi h
    exact pure h

/-- The latches are released that the split has left to the guards. -/
lemma trySplit {node parent : PID} {ens : PID → Key → Nat → Prog Unit}
    (hens : MakesSpace steady t cl ens) (hi : Inv m) (ho : Owns t [node, parent] [] m)
    (hc : Pending t cl m.now.trace) (hleads : Knows t parent (Leads key parent node) m) :
    Serves steady t (do
      let (nodeLocked, parentLocked) ← BTree.trySplit env ens node parent
      GuardX.destroy nodeLocked
      GuardX.destroy parentLocked) m (fun _ => Begun t cl) E := by
  refine bind (Q := AfterSplit t cl) hi ?_ ?_
  · refine bind hi (parentOrNewRoot hi ho hc hleads) ?_
    rintro p m hi h
    exact splitBelow hens hi h
  rintro ⟨_ | node, _ | parent⟩ m hi h
  · exact pure h
  · exact h.elim
  · exact h.elim
  · refine bind hi (unfixX (X := [parent]) (K := fun m => Pending t cl m.now.trace) hi h.1 h.2) ?_
    rintro _ m hi ⟨ho, hc⟩
    refine (unfixX (X := []) (K := fun m => Pending t cl m.now.trace) hi ho hc).mono ?_
      (fun _ _ h => h)
    rintro _ m - ⟨ho, hc⟩
    exact ⟨ho, hc⟩

/-! ## Making space -/

lemma lockAndSplit {ens : PID → Key → Nat → Prog Unit} (hens : MakesSpace steady t cl ens)
    (hi : Inv m) (h : Begun t cl m) (hpath : Path key parent node m) :
    Serves steady t (BTree.lockAndSplit env ens parent node) m (fun _ => Begun t cl)
      (Begun t cl) := by
  refine bind hi (onThrow hi (upgrade (X := [])
    (K := fun m => Pending t cl m.now.trace ∧ Path key parent node m)
    (L := Knows t parent.pid (Leads key parent.pid node.pid)) (E := Begun t cl) hi h.owns
    ⟨h.pending, hpath⟩ (fun m ho h => ⟨ho, h.1⟩) (fun m _ ho _ _ => ho.mayWait) ?_ env.fuel)
    (fun m hi h => unwind_two hi h)) ?_
  · rintro m m' - ⟨-, hpath⟩ hf - hm ho'
    exact Knows.of_relatched hm ho' (Or.inl List.mem_cons_self) (hpath.leads.fresh hf)
  rintro _ m hi ⟨rfl, ho, ⟨hc, -⟩, hleads⟩
  refine bind hi (onThrow hi (upgrade (X := [parent.pid])
    (K := fun m => Pending t cl m.now.trace ∧
      Knows t parent.pid (Leads key parent.pid node.pid) m) (L := fun _ => True)
    (E := fun m => Owns t [parent.pid] [] m ∧ Pending t cl m.now.trace) hi ho ⟨hc, hleads⟩
    (fun m ho h => ⟨ho, h.1⟩) ?_ (fun _ _ _ _ _ _ _ _ => trivial) env.fuel) ?_) ?_
  · intro m hi ho hK _ q hq
    rw [ho.holds] at hq
    obtain rfl : q = parent.pid := by simpa using hq
    exact hi.before hK.2.fact
  · rintro m hi ⟨ho, hc⟩
    refine bind hi (unfixX (X := []) (K := fun m => Pending t cl m.now.trace) hi ho hc) ?_
    rintro _ m hi ⟨ho, hc⟩
    exact unwind hi ⟨ho, hc⟩
  rintro _ m hi ⟨rfl, ho, ⟨hc, hleads⟩, -⟩
  exact trySplit hens hi ho hc hleads

lemma ensureSpaceAttempt {ens : PID → Key → Nat → Prog Unit} {toSplit : PID} {payloadLen : Nat}
    (hens : MakesSpace steady t cl ens) (hi : Inv m) (h : Begun t cl m) :
    Serves steady t (BTree.ensureSpaceAttempt env ens toSplit sep payloadLen) m
      (fun _ => Begun t cl) (Begun t cl) := by
  refine bind hi (openRoot sep (fun _ h => h.owns) hi h) ?_
  rintro ⟨parent, node⟩ m hi ⟨h, -, hpath⟩
  refine bind hi (descendWithParent (fun _ h => h.owns) hi h hpath env.fuel) ?_
  rintro ⟨parent, node⟩ m hi ⟨h, hpath, -⟩
  dsimp only at hpath ⊢
  have hleave : ∀ m, Inv m → Begun t cl m ∧ Path sep parent node m → Serves steady t
      (BTree.leaveBoth parent node) m (fun _ => Begun t cl) (Begun t cl) := by
    intro m hi hA
    refine (leaveBoth (R := fun m => Begun t cl m ∧ Path sep parent node m) (B := fun _ => True) hi
      hA (hA.2.leads.mono fun _ _ => trivial) hA.2.known ?_).mono (fun _ _ _ h => h.1.1)
      (fun _ _ h => h.1)
    exact fun m _ hA _ => hA.2.covering.mono (fun _ => trivial)
  refine ite (fun _ => ?_) (fun _ => hleave m hi ⟨h, hpath⟩)
  refine bind hi ((readPage (A := fun m => Begun t cl m ∧ Path sep parent node m) hi ⟨h, hpath⟩
    hpath.known (fun _ h => h)).mono (fun _ _ _ h => h.1) (fun _ _ h => h.1)) ?_
  rintro enough m hi hA
  exact ite (fun _ => hleave m hi hA) (fun _ => lockAndSplit hens hi hA.1 hA.2)

lemma ensureSpace (fuel : Nat) : MakesSpace steady t cl (BTree.ensureSpace env fuel) := by
  induction fuel with
  | zero => exact fun _ _ _ _ _ _ _ => halt
  | succ fuel ih =>
    intro E m p sep n hi h
    exact retry_once (Q := fun _ => Begun t cl) hi h (fun _ hi h => ensureSpaceAttempt ih hi h)
      env.fuel

end Serves

end Rules

end Point

end MemSafeDB
