import MemSafeDB.Concurrent.Guards
import MemSafeDB.Sequential.Calls

/-!
# Descents among other threads

A descent passes from page to page with optimistic guards. What the parent tells of its child is
true of the child as long as the parent is fresh; the check of the parent behind the recording of
the child makes it true of the child alone.
-/

namespace MemSafeDB
open Lib PageState

variable {τ : Type} [DecidableEq τ]

namespace Point

/-- The page belongs to the tree and covers the key. -/
def Covering (key : Key) (s : Sight) : Prop :=
  ∃ l, s.level = some l ∧ InRange s.page.view.lower s.page.view.upper key

/-- The leaf that covers the key. -/
structure LeafFor (key : Key) (s : Sight) : Prop where
  level : s.level = some 0
  covers : InRange s.page.view.lower s.page.view.upper key

/-- An inner node leads a descent for the key to page `child`. -/
def Below (key : Key) (child : PID) (s : Sight) : Prop :=
  ∃ l, s.level = some (l + 1) ∧ InRange s.page.view.lower s.page.view.upper key ∧
    s.page.view.childFor key = child

/-- A descent for the key passes from page `p` to page `child`. -/
def Leads (key : Key) (p child : PID) (s : Sight) : Prop :=
  (p = metadataPageId ∧ s.root = child) ∨ Below key child s

/-- A descent for the key passes from the one page to the other. -/
structure Path (key : Key) (parent node : GuardO) (m : Point τ) : Prop where
  leads : Sees parent (Leads key parent.pid node.pid) m
  covering : While parent (Sees node (Covering key)) m
  known : Sees node (fun _ => True) m

/-- The slot in which the descent has found the node. -/
def SlotIn (key : Key) (pos : Nat) (parent : GuardO) (m : Point τ) : Prop :=
  parent.pid ≠ metadataPageId →
    Sees parent (fun s => pos = rank s.page.keys key ∧ s.page.isInner = true) m

variable {m : Point τ} {key : Key} {p c : PID} {g parent node : GuardO} {t : τ} {X : List PID}

instance : Lasts t (Path key parent node) where
  lasts := by
    intro m m' hi ha hs h
    exact ⟨Lasts.lasts m m' hi ha hs h.leads, Lasts.lasts m m' hi ha hs h.covering,
      Lasts.lasts m m' hi ha hs h.known⟩

instance : About t X (Path key parent node) where
  keep := by
    intro m m' ha hX ht h
    exact ⟨About.keep m m' ha hX ht h.leads, About.keep m m' ha hX ht h.covering,
      About.keep m m' ha hX ht h.known⟩

instance {pos : Nat} : Lasts t (SlotIn key pos parent) :=
  inferInstanceAs (Lasts t (fun m => parent.pid ≠ metadataPageId →
    Sees parent (fun s => pos = rank s.page.keys key ∧ s.page.isInner = true) m))

/-! ## What the tree tells -/

/-- A child that a descent passes to covers the key. -/
lemma Inv.covering (hi : Inv m) (h : Leads key p c (m.now.sight p)) :
    Covering key (m.now.sight c) := by
  rcases h with ⟨rfl, hroot⟩ | ⟨l, hl, hk, hchild⟩
  · have hroot' : m.now.tree.root = c := m.now.root_sight.symm.trans hroot
    obtain ⟨l, hl, -⟩ := hi.tree.root
    rw [hroot'] at hl
    exact ⟨l, hl, hroot' ▸ hi.tree.covers_root key⟩
  · obtain ⟨hlevel, hcovers⟩ := hi.tree.childFor hl hk
    rw [show (m.now.tree.view p).childFor key = c from hchild] at hlevel hcovers
    exact ⟨l, hlevel, hcovers⟩

lemma Inv.isLeaf (hi : Inv m) {l : Nat} (hl : m.now.level p = some l) :
    (m.now.page p).isLeaf = decide (l = 0) := hi.tree.leaf p l hl

/-- A page that is no inner node is the leaf of the key. -/
lemma Inv.leafFor (hi : Inv m) (h : Covering key (m.now.sight p))
    (hinner : (m.now.page p).isInner = false) : LeafFor key (m.now.sight p) := by
  obtain ⟨l, hl, hk⟩ := h
  have hleaf := hi.isLeaf (show m.now.level p = some l from hl)
  rw [BTreeNode.isInner, hleaf] at hinner
  have hzero : l = 0 := by simpa using hinner
  exact ⟨hzero ▸ hl, hk⟩

lemma Inv.valid (hi : Inv m) {l : Nat} (hl : m.now.level p = some l) : (m.now.page p).Valid :=
  hi.tree.valid p l hl

lemma Inv.inner (hi : Inv m) (h : Covering key (m.now.sight p))
    (hinner : (m.now.page p).isInner = true) :
    (m.now.page p).Valid ∧ (m.now.page p).isLeaf = false := by
  obtain ⟨l, hl, -⟩ := h
  exact ⟨hi.valid hl, by simpa [BTreeNode.isInner] using hinner⟩

/-- An inner node leads to the child that it tells. -/
lemma Inv.leads (hi : Inv m) (h : Covering key (m.now.sight p))
    (hinner : (m.now.page p).isInner = true)
    (hchild : (m.now.page p).view.childFor key = c) : Leads key p c (m.now.sight p) := by
  obtain ⟨l, hl, hk⟩ := h
  have hleaf := hi.isLeaf (show m.now.level p = some l from hl)
  rw [BTreeNode.isInner, hleaf] at hinner
  obtain ⟨n, rfl⟩ : ∃ n, l = n + 1 := by
    have hne : l ≠ 0 := by simpa using hinner
    exact ⟨l - 1, by omega⟩
  exact Or.inr ⟨n, hl, hk, hchild⟩

omit [DecidableEq τ] in
/-- What has been read from a page that is still fresh. -/
lemma Sees.read {β : Type} {r : PageRead β} {b b' : β}
    (h : Sees g (fun s => s.page.ReadsInPage r → s.page.read r = .ok b) m) (hf : Fresh g m)
    (hr : (m.now.page g.pid).Reads r b') : b' = b :=
  Except.ok.inj (hr.1.symm.trans (h.fresh hf hr.2))

omit [DecidableEq τ] in
/-- What a fresh guard tells in the tree of this moment. -/
lemma Sees.imp {F G : Sight → Prop} (h : Sees g F m)
    (hFG : Fresh g m → F (m.now.sight g.pid) → G (m.now.sight g.pid)) : Sees g G m :=
  ⟨h.state, h.unlocks, fun hf => hFG hf (h.fresh hf)⟩

section Rules

variable {steady : Prop} {env : Env} {S : List PID} {R : Point τ → Prop} [Lasts t R]

namespace Serves

lemma unwind_two (hi : Inv m) (h : R m) :
    Serves steady t (do node.unwind; parent.unwind) m (fun _ => R) R :=
  bind hi (unwind hi h) (fun _ _ hi h => unwind hi h)

/-- A guard that is opened for the page to which the descent leads. -/
lemma follow (hown : ∀ m, R m → Owns t [] S m) (hi : Inv m) (hR : R m)
    (hleads : Sees g (Leads key g.pid p) m) :
    Serves steady t (GuardO.ofParent env p g) m (fun c m => R m ∧ Path key g c m) R := by
  refine (ofParent (A := fun m => R m ∧ Sees g (Leads key g.pid p) m) (F := Covering key) hi
    ⟨hR, hleads⟩ (fun _ h => h.1) (fun m h => hown m h.1) (fun m h => h.2.mono fun _ _ => trivial)
    (fun m hi h hf => hi.covering (h.2.fresh hf)) (fun s h => ⟨h.choose, h.choose_spec.1⟩)).mono ?_
    (fun _ _ h => h)
  rintro c m - ⟨rfl, ⟨hR, hleads⟩, hcov, hknown⟩
  exact ⟨hR, hleads, hcov, hknown⟩

/-- The way from a node to its child. -/
lemma child (hown : ∀ m, R m → Owns t [] S m) (hi : Inv m) (hR : R m)
    (hg : Sees g (Covering key) m) (hinner : Sees g (fun s => s.page.isInner = true) m) :
    Serves steady t (do
      let pid ← MemSafeDB.readPage g.pid (PageRead.lookupInner key)
      GuardO.ofParent env pid g) m (fun c m => R m ∧ Path key g c m) R := by
  refine bind hi (readPage (A := fun m => R m ∧ Sees g (Covering key) m ∧
    Sees g (fun s => s.page.isInner = true) m) hi ⟨hR, hg, hinner⟩
    (hg.mono fun _ _ => trivial) (fun _ h => h.1)) ?_
  rintro pid m hi ⟨⟨hR, hg, hinner⟩, hread⟩
  refine follow hown hi hR (hg.imp fun hf hcov => hi.leads hcov (hinner.fresh hf) ?_)
  obtain ⟨hvalid, hleaf⟩ := hi.inner hcov (hinner.fresh hf)
  exact hread.read hf (hvalid.reads_lookupInner hleaf key)

/-! ## Descents -/

/-- The check of the parent makes what it has told of the node true of the node alone. -/
lemma leaveParent (hi : Inv m) (hR : R m) (hpath : Path key parent node m) :
    Serves steady t (Program.onThrow parent.leave (do node.unwind; parent.unwind)) m
      (fun _ m => R m ∧ Sees node (Covering key) m) R := by
  refine (onThrow hi (check (A := fun m => R m ∧ Path key parent node m)
    (B := Sees node (Covering key)) (E := R) hi hpath.leads.state ⟨hR, hpath⟩ (fun _ h => h.1)
    (fun m _ h hf => h.2.covering.fresh hf)) (fun m hi hR => unwind_two hi hR)).mono ?_
    (fun _ _ h => h)
  rintro _ m - ⟨⟨hR, -⟩, hnode⟩
  exact ⟨hR, hnode⟩

/-- The loop of `findLeafO` ends at the leaf that covers the key. -/
lemma descend (hown : ∀ m, R m → Owns t [] S m) (hi : Inv m) (hR : R m)
    (hg : Sees g (Covering key) m) (fuel : Nat) :
    Serves steady t (BTree.descend env key g fuel) m
      (fun g m => R m ∧ Sees g (LeafFor key) m) R := by
  induction fuel generalizing m g with
  | zero => exact halt
  | succ fuel ih =>
    refine bind hi (readPage (A := fun m => R m ∧ Sees g (Covering key) m) hi ⟨hR, hg⟩
      (hg.mono fun _ _ => trivial) (fun _ h => h.1)) ?_
    rintro inner m hi ⟨⟨hR, hg⟩, hread⟩
    have hinner : Sees g (fun s => s.page.isInner = inner) m :=
      hg.imp (fun hf _ => hread.read hf BTreeNode.reads_isInner)
    cases inner with
    | false => exact pure ⟨hR, hg.imp (fun hf h => hi.leafFor h (hinner.fresh hf))⟩
    | true =>
      refine bind hi (onThrow hi (child hown hi hR hg hinner) (fun m hi hR => unwind hi hR)) ?_
      rintro c m hi ⟨hR, hpath⟩
      refine bind hi (leaveParent hi hR hpath) ?_
      rintro _ m hi ⟨hR, hc⟩
      exact ih hi hR hc

/-- The way from the metadata page to the root. -/
lemma root (key : Key) (hown : ∀ m, R m → Owns t [] S m) (hp : parent.pid = metadataPageId) (hi : Inv m)
    (hR : R m) (hparent : Sees parent (fun _ => True) m) :
    Serves steady t (do
      let root ← MemSafeDB.peekRoot
      GuardO.ofParent env root parent) m (fun c m => R m ∧ Path key parent c m) R := by
  refine bind (Q := fun r m => R m ∧ Sees parent (fun s => s.root = r) m) hi
    (peekRoot hR hparent hp) (fun r m hi hA => ?_)
  exact follow hown hi hA.1 (hA.2.mono fun _ hs => Or.inl ⟨hp, hs⟩)

/-- The guards of the metadata page and the root. -/
lemma openRoot (key : Key) (hown : ∀ m, R m → Owns t [] S m) (hi : Inv m) (hR : R m) :
    Serves steady t (BTree.openRoot env) m
      (fun g m => R m ∧ g.1.pid = metadataPageId ∧ Path key g.1 g.2 m) R := by
  refine bind hi (ofPid (B := fun g => Sees g (fun _ => True)) hi hR hown
    (fun m hi _ => hi.metadata) (fun g m _ _ _ hf hle => hf.sees hle trivial)) ?_
  rintro parent m hi ⟨hp, hR, hparent⟩
  refine bind hi (onThrow hi (root key hown hp hi hR hparent)
    (fun m hi hR => unwind hi hR)) ?_
  rintro c m - ⟨hR, hpath⟩
  exact pure ⟨hR, hp, hpath⟩

lemma findLeafO (hown : ∀ m, R m → Owns t [] S m) (hi : Inv m) (hR : R m) :
    Serves steady t (BTree.findLeafO env key) m
      (fun g m => R m ∧ Sees g (LeafFor key) m) R := by
  refine bind hi (ofPid (B := fun g => Sees g (fun _ => True)) hi hR hown
    (fun m hi _ => hi.metadata) (fun g m _ _ _ hf hle => hf.sees hle trivial)) ?_
  rintro parent m hi ⟨hp, hR, hparent⟩
  refine bind hi (onThrow hi (root key hown hp hi hR hparent)
    (fun m hi hR => unwind hi hR)) ?_
  rintro node m hi ⟨hR, hpath⟩
  refine bind hi (leaveParent hi hR hpath) ?_
  rintro _ m hi ⟨hR, hnode⟩
  exact descend hown hi hR hnode env.fuel

/-- The loop with the parent in the second guard. -/
lemma descendWithParent {toSplit : Option PID} (hown : ∀ m, R m → Owns t [] S m) (hi : Inv m)
    (hR : R m) (hpath : Path key parent node m) (fuel : Nat) :
    Serves steady t (BTree.descendWithParent env key toSplit parent node fuel) m
      (fun g m => R m ∧ Path key g.1 g.2 m ∧
        (toSplit = none → Sees g.2 (fun s => s.page.isInner = false) m)) R := by
  induction fuel generalizing m parent node with
  | zero => exact halt
  | succ fuel ih =>
    refine bind hi (readPage (A := fun m => R m ∧ Path key parent node m) hi ⟨hR, hpath⟩
      hpath.known (fun _ h => h.1)) ?_
    rintro inner m hi ⟨⟨hR, hpath⟩, hread⟩
    have hinner : Sees node (fun s => s.page.isInner = inner) m :=
      hpath.known.imp (fun hf _ => hread.read hf BTreeNode.reads_isInner)
    refine ite (fun hcond => ?_) (fun hcond => ?_)
    · obtain ⟨rfl, -⟩ := hcond
      refine bind hi ((leaveParent (R := fun m => R m ∧ Sees node (fun s => s.page.isInner = true) m)
        hi ⟨hR, hinner⟩ hpath).mono (fun _ _ _ h => h) (fun _ _ h => h.1)) ?_
      rintro _ m hi ⟨⟨hR, hinner⟩, hnode⟩
      refine bind hi (onThrow hi (child hown hi hR hnode hinner)
        (fun m hi hR => unwind hi hR)) ?_
      rintro c m hi ⟨hR, hpath⟩
      exact ih hi hR hpath
    · refine pure ⟨hR, hpath, ?_⟩
      rintro rfl
      cases inner with
      | false => exact hinner
      | true => exact absurd ⟨rfl, by simp⟩ hcond

/-- The loop of `remove`, which also keeps the slot in the parent. -/
lemma descendWithSlot {pos : Nat} (hown : ∀ m, R m → Owns t [] S m) (hi : Inv m) (hR : R m)
    (hpath : Path key parent node m) (hpos : SlotIn key pos parent m) (fuel : Nat) :
    Serves steady t (BTree.descendWithSlot env key parent node pos fuel) m
      (fun g m => R m ∧ Path key g.1 g.2.1 m ∧ SlotIn key g.2.2 g.1 m ∧
        Sees g.2.1 (fun s => s.page.isInner = false) m) R := by
  induction fuel generalizing m parent node pos with
  | zero => exact halt
  | succ fuel ih =>
    refine bind hi (readPage (A := fun m => R m ∧ Path key parent node m ∧ SlotIn key pos parent m)
      hi ⟨hR, hpath, hpos⟩ hpath.known (fun _ h => h.1)) ?_
    rintro inner m hi ⟨⟨hR, hpath, hpos⟩, hread⟩
    have hinner : Sees node (fun s => s.page.isInner = inner) m :=
      hpath.known.imp (fun hf _ => hread.read hf BTreeNode.reads_isInner)
    cases inner with
    | false => exact pure ⟨hR, hpath, hpos, hinner⟩
    | true =>
      refine bind hi (onThrow hi (readPage (A := fun m => R m ∧ Path key parent node m ∧
        Sees node (fun s => s.page.isInner = true) m) hi ⟨hR, hpath, hinner⟩ hpath.known
        (fun _ h => h.1)) (fun m hi hR => unwind_two hi hR)) ?_
      rintro ⟨pos, nextPage⟩ m hi ⟨⟨hR, hpath, hinner⟩, hread⟩
      refine bind hi ((leaveParent (R := fun m => (R m ∧
        Sees node (fun s => s.page.isInner = true) m) ∧ _) hi ⟨⟨hR, hinner⟩, hread⟩ hpath).mono
        (fun _ _ _ h => h) (fun _ _ h => h.1.1)) ?_
      rintro _ m hi ⟨⟨⟨hR, hinner⟩, hread⟩, hnode⟩
      have hslot : Sees node (fun s => pos = rank s.page.keys key ∧
          Leads key node.pid nextPage s) m := by
        refine hnode.imp (fun hf hcov => ?_)
        obtain ⟨hvalid, hleaf⟩ := hi.inner hcov (hinner.fresh hf)
        obtain ⟨rfl, rfl⟩ := Prod.mk.inj
          (hread.read hf (Solo.reads_removeChild hvalid hleaf key))
        exact ⟨rfl, hi.leads hcov (hinner.fresh hf) rfl⟩
      refine bind hi (onThrow hi ((follow (R := fun m => R m ∧ Sees node (fun s =>
        pos = rank s.page.keys key ∧ s.page.isInner = true) m) (fun m h => hown m h.1) hi
        ⟨hR, hslot.imp (fun hf h => ⟨h.1, hinner.fresh hf⟩)⟩ (hslot.mono (fun _ h => h.2))).mono
        (fun _ _ _ h => h) (fun _ _ h => h.1)) (fun m hi hR => unwind hi hR)) ?_
      rintro c m hi ⟨⟨hR, hslot⟩, hpath⟩
      exact ih hi hR hpath (fun _ => hslot)

end Serves

end Rules

end Point

end MemSafeDB
