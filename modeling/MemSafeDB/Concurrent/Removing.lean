import MemSafeDB.Concurrent.Lookups

/-!
# Removes among other threads

A remove is right at the moment when it removes the slot, if it has found the key, and otherwise at
the moment of its last check. The merge holds the parent, the leaf and its right neighbour.
-/

namespace MemSafeDB
open Lib PageState

variable {τ : Type} [DecidableEq τ]

namespace Solo

/-- Whether there is a child behind the slot. -/
lemma reads_hasRight (n : BTreeNode) (pos : Nat) : n.Reads (do
      let count ← PageRead.fetch .count
      if 2 ≤ count then
        let count ← PageRead.fetch .count
        pure (decide (pos + 1 < count))
      else
        pure false) (if 2 ≤ n.count then decide (pos + 1 < n.count) else false) := by
  have hcount : n.Reads (PageRead.fetch .count) n.count := BTreeNode.Reads.fetch (by decide)
  refine hcount.bind ?_
  split
  · exact hcount.bind (BTreeNode.Reads.pure _)
  · exact BTreeNode.Reads.pure _

end Solo

namespace Point

/-- The node is the child in the slot, and there is a child behind it. -/
def InSlot (pos : Nat) (c : PID) (s : Sight) : Prop :=
  pos + 1 < s.page.count ∧ s.page.getChild pos = c

/-- The leaves in two adjacent slots of a node. -/
def Adjacent (pos : Nat) (p z : PID) (s : Sight) : Prop :=
  s.level = some 1 ∧ InSlot pos p s ∧ s.page.getChild (pos + 1) = z

variable {m m' : Point τ} {key : Key} {p q c z : PID} {g parent node : GuardO} {t : τ}
  {slotId pos : Nat} {X S : List PID} {F : Sight → Prop} {cl : Call}

omit [DecidableEq τ] in
/-- An operation on other pages leaves alone what the thread knows of a page. -/
lemma Knows.acted {o : Op} (hp : p ∉ o.touched) (hm : Acted o m m') (h : Knows t p F m) :
    Knows t p F m' := by
  refine ⟨?_, by rw [hm.sight p hp]; exact h.fact⟩
  unfold Holds
  rw [hm.xHolders, hm.sHolders]
  exact h.holds

/-! ## What the tree tells -/

/-- A node comes before the child to which it leads. -/
lemma Inv.before (hi : Inv m) (h : Leads key p c (m.now.sight p)) : m.now.tree.Before p c := by
  rcases h with ⟨rfl, hroot⟩ | ⟨l, hl, hk, hchild⟩
  · have hroot' : m.now.tree.root = c := m.now.root_sight.symm.trans hroot
    obtain ⟨l, hl, -⟩ := hi.tree.root
    exact Or.inl ⟨rfl, l, hroot' ▸ hl⟩
  · obtain ⟨hlevel, -⟩ := hi.tree.childFor hl hk
    rw [show (m.now.tree.view p).childFor key = c from hchild] at hlevel
    exact Or.inr ⟨_, _, hl, hlevel, Or.inl (Nat.lt_succ_self l)⟩

/-- The slot of the child to which a descent leads. -/
lemma Inv.inSlot (hi : Inv m) (hmeta : p ≠ metadataPageId) (h : Leads key p c (m.now.sight p))
    (hpos : pos = rank (m.now.page p).keys key) (hlt : pos + 1 < (m.now.page p).count) :
    InSlot pos c (m.now.sight p) := by
  obtain ⟨l, hl, -, hchild⟩ := h.resolve_left (fun h => hmeta h.1)
  have hleaf := hi.isLeaf (show m.now.level p = some (l + 1) from hl)
  have heq := (hi.valid hl).childFor_eq (by simpa using hleaf) key
  refine ⟨hlt, ?_⟩
  rw [← hpos, if_pos (by omega)] at heq
  exact heq.symm.trans hchild

/-- A leaf is next to the child behind it. -/
lemma Inv.adjacent (hi : Inv m) (h : Leads key p c (m.now.sight p))
    (hslot : InSlot pos c (m.now.sight p)) (hmeta : p ≠ metadataPageId)
    (hc : m.now.level c = some 0) (hz : (m.now.page p).getChild (pos + 1) = z) :
    Adjacent pos c z (m.now.sight p) := by
  obtain ⟨l, hl, hk, hchild⟩ := h.resolve_left (fun h => hmeta h.1)
  obtain ⟨hlevel, -⟩ := hi.tree.childFor hl hk
  rw [show (m.now.tree.view p).childFor key = c from hchild,
    show m.now.tree.level c = some 0 from hc] at hlevel
  obtain rfl := Option.some.inj hlevel
  exact ⟨hl, hslot, hz⟩

/-- The pages of a merge. -/
structure Merging (T : Tree) (p z q : PID) : Prop where
  level : T.level z = some 0
  parent : q ≠ p
  before : T.Before p z
  below : T.Before q z

lemma Inv.merging (hi : Inv m) (h : Adjacent pos p z (m.now.sight q)) :
    Merging m.now.tree p z q := by
  obtain ⟨hq, ⟨hlt, hp⟩, hz⟩ := h
  obtain ⟨es, a, b, fs, -, -, hsib⟩ := hi.tree.siblings hq hlt
  rw [show (m.now.tree.page q).getChild pos = p from hp,
    show (m.now.tree.page q).getChild (pos + 1) = z from hz] at hsib
  obtain ⟨hcp, hcz⟩ := hsib.childOk hi.tree
  have hnext := hsib.neighbours hi.tree
  obtain ⟨-, hne, -⟩ := hsib.distinct hi.tree
  refine ⟨hcz.1, hne.symm, Or.inr ⟨0, 0, hcp.1, hcz.1, Or.inr ⟨rfl, ?_⟩⟩,
    Or.inr ⟨1, 0, hq, hcz.1, Or.inl Nat.zero_lt_one⟩⟩
  exact ⟨hnext.ne_nil, hnext.fence.le⟩

lemma Sys.trace_mergeNodes (s : Sys τ) (t : τ) (p : PID) (i : Nat) (q z : PID) :
    (s.mergeNodes t p i q z).2.trace = s.trace := by
  unfold Sys.mergeNodes
  split <;> rfl

section Rules

variable {steady : Prop} {env : Env} {A B R K E : Point τ → Prop} [Lasts t R] [Lasts t K]

namespace Serves

/-- The checks of both guards at the end. -/
lemma leaveBoth [Lasts t B] (hi : Inv m) (hR : R m) (hparent : Sees parent (fun _ => True) m)
    (hnode : Sees node (fun _ => True) m)
    (hB : ∀ m, Inv m → R m → Fresh node m → While parent B m) :
    Serves steady t (BTree.leaveBoth parent node) m (fun _ m => R m ∧ B m) R := by
  refine bind hi (onThrow hi (check (A := R) (B := While parent B) (E := R) hi hnode.state hR
    (fun _ h => h) hB) (fun m hi hR => unwind hi hR)) ?_
  rintro _ m hi ⟨hR, hw⟩
  refine (check (A := fun m => R m ∧ While parent B m) (B := B) (E := R) hi hparent.state ⟨hR, hw⟩
    (fun _ h => h.1) (fun m _ h hf => h.2.fresh hf)).mono ?_ (fun _ _ h => h)
  rintro _ m - ⟨⟨hR, -⟩, hB⟩
  exact ⟨hR, hB⟩

/-- What `underfull` promises when it says yes. -/
lemma underfull (hi : Inv m) (hR : R m) (hparent : Sees parent (fun _ => True) m)
    (hnode : Sees node (fun _ => True) m) :
    Serves steady t (BTree.underfull parent node pos slotId) m (fun b m => R m ∧ (b = true →
      parent.pid ≠ metadataPageId ∧ Sees parent (fun s => pos + 1 < s.page.count) m)) R := by
  have hboth : Lasts t (fun m => R m ∧ Sees parent (fun _ => True) m ∧
    Sees node (fun _ => True) m) := inferInstance
  refine bind (Q := fun _ m => R m ∧ Sees parent (fun _ => True) m ∧ Sees node (fun _ => True) m) hi
    ((readPage hi ⟨hR, hparent, hnode⟩ hnode (fun _ h => h.1)).mono (fun _ _ _ h => h.1)
      (fun _ _ h => h)) ?_
  rintro size m hi hA
  refine bind (Q := fun _ m => R m ∧ Sees parent (fun _ => True) m ∧ Sees node (fun _ => True) m) hi
    ((readPage hi hA hA.2.2 (fun _ h => h.1)).mono (fun _ _ _ h => h.1) (fun _ _ h => h)) ?_
  rintro free m hi ⟨hR, hparent, -⟩
  refine ite (fun hcond => ?_) (fun _ => ?_)
  · refine (readPage hi hR hparent (fun _ h => h)).mono ?_ (fun _ _ h => h)
    rintro b m - ⟨hR, hread⟩
    refine ⟨hR, fun hb => ⟨hcond.2, hread.imp (fun hf _ => ?_)⟩⟩
    have heq := hread.read hf (Solo.reads_hasRight _ pos)
    rw [hb] at heq
    split at heq
    · exact of_decide_eq_true heq
    · cases heq
  · exact pure (Q := fun b m => R m ∧ (b = true → parent.pid ≠ metadataPageId ∧
      Sees parent (fun s => pos + 1 < s.page.count) m)) ⟨hR, fun h => by cases h⟩

/-- The entry is removed, and the answer is right at this moment. -/
lemma removeSlot (ho : Owns t X [] m) (hc : Pending t (.remove key) m.now.trace)
    (hfound : Knows t p (SlotFor key slotId) m) (hK : K m)
    (hkeep : ∀ m m', Acted (.removeSlot p slotId) m m' → K m → K m') :
    Serves steady t (Program.op (S := signature) (.removeSlot p slotId)) m (fun _ m =>
      Owns t X [] m ∧ Ready t (.remove key) (.bool true) m.now.trace ∧ K m) E := by
  refine act (A := fun m => Owns t X [] m ∧ Pending t (.remove key) m.now.trace ∧
    Knows t p (SlotFor key slotId) m ∧ K m) id ⟨ho, hc, hfound, hK⟩ ?_
  rintro m hi ⟨ho, hc, hfound, hK⟩ -
  obtain ⟨hlt, hkey⟩ := hi.slot hfound.fact
  have hstored := hi.stored hfound.fact
  refine ⟨⟨hfound.fact.leaf.level, hlt, hkey.symm ▸ hc⟩, fun c r m' hperform hi' hm => ?_⟩
  refine ⟨ho.acted hm, ?_, hkeep m m' hm hK⟩
  obtain ⟨-, hnow⟩ := Prod.mk.inj (Option.some.inj hperform)
  have htrace : m'.now.trace = m.now.trace ++ [.effect t (.remove key)] := by
    rw [← hnow, ← hkey]
    rfl
  rw [htrace]
  refine hc.ready_effect ?_ ?_
  · rw [Contents.Answers, hstored]
    rfl
  · rw [Call.takes, hstored]
    rfl

/-- What is known of the leaf when `remove` has searched it. -/
structure Searched (t : τ) (key : Key) (parent node : GuardO) (r : Nat × Bool) (m : Point τ) :
    Prop where
  begun : Begun t (.remove key) m
  path : Path key parent node m
  found : While parent (Sees node (Found key r)) m

/-- The leaf is latched, and the check of the parent behind it makes what it has told of the leaf
true. -/
lemma lockLeaf {α : Type} {rest : PID → Prog α} {Q : α → Point τ → Prop} (hi : Inv m)
    (h : Begun t cl m) (hpath : Path key parent node m) (hF : While parent (Sees node F) m)
    (hrest : ∀ m, Inv m → Owns t [node.pid] [] m → Pending t cl m.now.trace →
      Knows t node.pid F m → Serves steady t (rest node.pid) m Q (Begun t cl)) :
    Serves steady t (do
      let nodeLocked ← Program.onThrow (GuardX.ofGuardO env node)
        (do node.unwind; parent.unwind)
      Program.onThrow parent.leave (do BufferManager.unfixX nodeLocked; parent.unwind)
      rest nodeLocked) m Q (Begun t cl) := by
  refine bind hi (onThrow hi (upgrade (X := [])
    (K := fun m => Pending t cl m.now.trace ∧ Path key parent node m ∧ While parent (Sees node F) m)
    (L := While parent (Knows t node.pid F)) (E := Begun t cl) hi h.owns ⟨h.pending, hpath, hF⟩
    (fun m ho h => ⟨ho, h.1⟩) (fun m _ ho _ _ => ho.mayWait) ?_ env.fuel)
    (fun m hi h => unwind_two hi h)) ?_
  · rintro m m' - ⟨-, -, hF⟩ hf - hm ho'
    refine ⟨hF.state, hF.unlocks.trans (hm.advance.unlocks _), fun hparent => ?_⟩
    obtain ⟨hparent', -⟩ := hparent.before hm.advance hF.unlocks
    exact Knows.of_relatched hm ho' (Or.inl List.mem_cons_self) ((hF.fresh hparent').fresh hf)
  rintro _ m hi ⟨rfl, ho, ⟨hc, hpath, -⟩, hF⟩
  refine bind hi (onThrow hi (check (A := fun m => Owns t [node.pid] [] m ∧
    Pending t cl m.now.trace ∧ While parent (Knows t node.pid F) m) (B := Knows t node.pid F)
    (E := fun m => Owns t [node.pid] [] m ∧ Pending t cl m.now.trace) hi hpath.leads.state
    ⟨ho, hc, hF⟩ (fun _ h => ⟨h.1, h.2.1⟩) (fun m _ h hf => h.2.2.fresh hf)) ?_) ?_
  · rintro m hi ⟨ho, hc⟩
    refine bind hi (unfixX (X := []) (K := fun m => Pending t cl m.now.trace) hi ho hc) ?_
    rintro _ m hi ⟨ho, hc⟩
    exact unwind hi ⟨ho, hc⟩
  rintro _ m hi ⟨⟨ho, hc, -⟩, hF⟩
  exact hrest m hi ho hc hF

lemma removeOnly (hi : Inv m) (h : Searched t key parent node (slotId, true) m) :
    Serves steady t (BTree.removeOnly env parent node slotId) m
      (fun _ => Done t (.remove key) (.bool true)) (Begun t (.remove key)) := by
  refine lockLeaf (F := SlotFor key slotId) hi h.begun h.path
    (h.found.mono fun hs => hs.mono fun _ hr => hr.slot rfl) ?_
  intro m hi ho hc hfound
  refine bind hi (removeSlot (K := fun _ => True) ho hc hfound trivial
    (fun _ _ _ _ => trivial)) ?_
  rintro _ m hi ⟨ho, hready, -⟩
  refine (unfixX (X := []) (K := fun m => Ready t (.remove key) (.bool true) m.now.trace) hi ho
    hready).mono ?_ (fun _ _ h => h)
  rintro _ m - ⟨ho, hready⟩
  exact ⟨ho, hready⟩

instance {r : Nat × Bool} : Lasts t (Searched t key parent node r) :=
  ⟨fun m m' hi ha hs h => ⟨Lasts.lasts m m' hi ha hs h.begun, Lasts.lasts m m' hi ha hs h.path,
    Lasts.lasts m m' hi ha hs h.found⟩⟩

/-- What is known of the pages of the merge. -/
structure Gripped (t : τ) (key : Key) (pos slotId : Nat) (q p z : PID) (m : Point τ) : Prop where
  parent : Knows t q (Adjacent pos p z) m
  node : Knows t p (SlotFor key slotId) m

instance : Lasts t (Gripped t key pos slotId q p z) :=
  ⟨fun m m' hi ha hs h => ⟨Lasts.lasts m m' hi ha hs h.parent, Lasts.lasts m m' hi ha hs h.node⟩⟩

instance : About t [p, q] (Gripped t key pos slotId q p z) :=
  ⟨fun m m' ha hX ht h => ⟨About.keep m m' ha hX ht h.parent, About.keep m m' ha hX ht h.node⟩⟩

/-- The leaves are merged, or nothing happens. -/
lemma mergeNodes (ho : Owns t X [] m) (hK : Ready t (.remove key) (.bool true) m.now.trace)
    (hpages : Knows t q (Adjacent pos p z) m) :
    Serves steady t (Program.op (S := signature) (.mergeNodes p pos q z)) m (fun _ m =>
      Owns t X [] m ∧ Ready t (.remove key) (.bool true) m.now.trace) E := by
  refine act (A := fun m => Owns t X [] m ∧ Ready t (.remove key) (.bool true) m.now.trace ∧
    Knows t q (Adjacent pos p z) m) id ⟨ho, hK, hpages⟩ ?_
  rintro m - ⟨ho, hready, hpages⟩ -
  obtain ⟨hq, ⟨hlt, hp⟩, hz⟩ := hpages.fact
  refine ⟨⟨hq, hlt, hp, hz⟩, fun c r m' hperform hi' hm => ⟨ho.acted hm, ?_⟩⟩
  obtain ⟨-, hnow⟩ := Prod.mk.inj (Option.some.inj hperform)
  have htrace : m'.now.trace = m.now.trace :=
    hnow ▸ Sys.trace_mergeNodes m.now t p pos q z
  rwa [htrace]

/-- The way of `remove` with the merge, once all pages are latched. -/
lemma removeLatched (hi : Inv m) (ho : Owns t [z, p, q] [] m)
    (hc : Pending t (.remove key) m.now.trace) (hpages : Gripped t key pos slotId q p z m) :
    Serves steady t (do
      Program.op (S := signature) (.removeSlot p slotId)
      let right ← MemSafeDB.view z
      if pageSize - underFullSize ≤ right.freeSpaceAfterCompaction then
        let _ ← Program.op (S := signature) (.mergeNodes p pos q z)
      else
        Pure.pure ()
      BufferManager.unfixX z
      BufferManager.unfixX p
      BufferManager.unfixX q) m (fun _ => Done t (.remove key) (.bool true)) E := by
  have hne := (hi.merging hpages.parent.fact).parent
  refine bind hi (removeSlot (K := Knows t q (Adjacent pos p z)) ho hc hpages.node hpages.parent
    (fun _ _ hm h => h.acted (by simpa [Op.touched] using hne) hm)) ?_
  rintro _ m hi ⟨ho, hready, hparent⟩
  have hrest : ∀ m, Inv m → Owns t [z, p, q] [] m →
      Ready t (.remove key) (.bool true) m.now.trace → Serves steady t (do
        BufferManager.unfixX z
        BufferManager.unfixX p
        BufferManager.unfixX q) m (fun _ => Done t (.remove key) (.bool true)) E := by
    intro m hi ho hready
    refine bind hi (unfixX (X := [p, q])
      (K := fun m => Ready t (.remove key) (.bool true) m.now.trace) hi ho hready) ?_
    rintro _ m hi ⟨ho, hready⟩
    refine bind hi (unfixX (X := [q])
      (K := fun m => Ready t (.remove key) (.bool true) m.now.trace) hi ho hready) ?_
    rintro _ m hi ⟨ho, hready⟩
    refine (unfixX (X := []) (K := fun m => Ready t (.remove key) (.bool true) m.now.trace) hi ho
      hready).mono ?_ (fun _ _ h => h)
    rintro _ m - ⟨ho, hready⟩
    exact ⟨ho, hready⟩
  refine bind (Q := fun _ m => Owns t [z, p, q] [] m ∧
    Ready t (.remove key) (.bool true) m.now.trace ∧ Knows t q (Adjacent pos p z) m) hi
    (view ⟨ho, hready, hparent⟩ (fun _ _ h => h)) ?_
  rintro right m hi ⟨ho, hready, hparent⟩
  dsimp only
  split
  · refine bind hi (mergeNodes ho hready hparent) ?_
    rintro _ m hi ⟨ho, hready⟩
    exact hrest m hi ho hready
  · exact hrest m hi ho hready

lemma removeAndMerge (hi : Inv m) (h : Searched t key parent node (slotId, true) m)
    (hslot : Sees parent (fun s => Leads key parent.pid node.pid s ∧ InSlot pos node.pid s) m)
    (hmeta : parent.pid ≠ metadataPageId) :
    Serves steady t (BTree.removeAndMerge env parent node pos slotId) m
      (fun _ => Done t (.remove key) (.bool true)) (Begun t (.remove key)) := by
  refine bind hi (onThrow hi (upgrade (X := [])
    (K := fun m => Pending t (.remove key) m.now.trace ∧
      Sees parent (fun s => Leads key parent.pid node.pid s ∧ InSlot pos node.pid s) m ∧
      While parent (Sees node (Found key (slotId, true))) m)
    (L := fun m => Knows t parent.pid (fun s => Leads key parent.pid node.pid s ∧
      InSlot pos node.pid s) m ∧ Sees node (Found key (slotId, true)) m)
    (E := Begun t (.remove key)) hi h.begun.owns ⟨h.begun.pending, hslot, h.found⟩
    (fun m ho h => ⟨ho, h.1⟩) (fun m _ ho _ _ => ho.mayWait) ?_ env.fuel)
    (fun m hi h => unwind_two hi h)) ?_
  · rintro m m' - ⟨-, hslot, hfound⟩ hf - hm ho'
    exact ⟨Knows.of_relatched hm ho' (Or.inl List.mem_cons_self) (hslot.fresh hf),
      (hfound.fresh hf).advance hm.advance⟩
  rintro _ m hi ⟨rfl, ho, ⟨hc, -, -⟩, hparent, hfound⟩
  refine bind hi (onThrow hi (upgrade (X := [parent.pid])
    (K := fun m => Pending t (.remove key) m.now.trace ∧
      Knows t parent.pid (fun s => Leads key parent.pid node.pid s ∧ InSlot pos node.pid s) m ∧
      Sees node (Found key (slotId, true)) m)
    (L := Knows t node.pid (SlotFor key slotId))
    (E := fun m => Owns t [parent.pid] [] m ∧ Pending t (.remove key) m.now.trace) hi ho
    ⟨hc, hparent, hfound⟩ (fun m ho h => ⟨ho, h.1⟩) ?_ ?_ env.fuel) ?_) ?_
  · intro m hi ho hK _ q hq
    rw [ho.holds] at hq
    obtain rfl : q = parent.pid := by simpa using hq
    exact hi.before hK.2.1.fact.1
  · rintro m m' - ⟨-, -, hfound⟩ hf - hm ho'
    exact Knows.of_relatched hm ho' (Or.inl List.mem_cons_self) ((hfound.fresh hf).slot rfl)
  · rintro m hi ⟨ho, hc⟩
    refine bind hi (unfixX (X := []) (K := fun m => Pending t (.remove key) m.now.trace) hi ho hc) ?_
    rintro _ m hi ⟨ho, hc⟩
    exact unwind hi ⟨ho, hc⟩
  rintro _ m hi ⟨rfl, ho, ⟨hc, hparent, -⟩, hnode⟩
  have hlasts : ∀ n : BTreeNode, Lasts t (fun m => Owns t [node.pid, parent.pid] [] m ∧
      Pending t (.remove key) m.now.trace ∧
      Gripped t key pos slotId parent.pid node.pid (n.getChild (pos + 1)) m) :=
    fun _ => inferInstance
  refine bind (Q := fun (n : BTreeNode) m => Owns t [node.pid, parent.pid] [] m ∧
    Pending t (.remove key) m.now.trace ∧
    Gripped t key pos slotId parent.pid node.pid (n.getChild (pos + 1)) m) hi
    (view (A := fun m => Owns t [node.pid, parent.pid] [] m ∧
      Pending t (.remove key) m.now.trace ∧ Knows t parent.pid (fun s =>
        Leads key parent.pid node.pid s ∧ InSlot pos node.pid s) m ∧
      Knows t node.pid (SlotFor key slotId) m) ⟨ho, hc, hparent, hnode⟩ ?_) ?_
  · rintro m hi ⟨ho, hc, hparent, hnode⟩
    obtain ⟨hleads, hslot⟩ := hparent.fact
    exact ⟨ho, hc, ⟨hparent.holds, hi.adjacent hleads hslot hmeta hnode.fact.leaf.level rfl⟩, hnode⟩
  intro n m hi hA
  obtain ⟨z, hz⟩ : ∃ z, n.getChild (pos + 1) = z := ⟨_, rfl⟩
  rw [hz] at hA ⊢
  obtain ⟨ho, hc, hpages⟩ := hA
  refine bind hi (fixX (X := [node.pid, parent.pid])
    (K := fun m => Pending t (.remove key) m.now.trace ∧
      Gripped t key pos slotId parent.pid node.pid z m) hi ho ⟨hc, hpages⟩ ?_ ?_) ?_
  · intro m hi hK
    exact hi.given z 0 (hi.merging hK.2.parent.fact).level
  · intro m hi ho hK _ q hq
    rw [ho.holds] at hq
    have hmerging := hi.merging hK.2.parent.fact
    rcases (by simpa using hq : q = node.pid ∨ q = parent.pid) with rfl | rfl
    · exact hmerging.before
    · exact hmerging.below
  · rintro _ m hi ⟨rfl, ho, hc, hpages⟩
    exact removeLatched hi ho hc hpages

lemma removeAttempt (hi : Inv m) (h : Begun t (.remove key) m) :
    Serves steady t (BTree.removeAttempt env key) m
      (fun r => Done t (.remove key) (.bool r)) (Begun t (.remove key)) := by
  refine bind hi (openRoot key (fun _ h => h.owns) hi h) ?_
  rintro ⟨parent, node⟩ m hi ⟨h, hmeta, hpath⟩
  refine bind hi (descendWithSlot (fun _ h => h.owns) hi h hpath
    (fun hne => absurd hmeta hne) env.fuel) ?_
  rintro ⟨parent, node, pos⟩ m hi ⟨h, hpath, hpos, hinner⟩
  dsimp only at hpath hpos hinner ⊢
  refine bind hi (onThrow hi ((lowerBound (R := fun m => Begun t (.remove key) m ∧
    Path key parent node m ∧ SlotIn key pos parent m ∧
    Sees node (fun s => s.page.isInner = false) m) hi ⟨h, hpath, hpos, hinner⟩ hpath.known).mono
    (fun _ _ _ h => h) (fun _ _ h => h.1)) (fun m hi h => unwind_two hi h)) ?_
  rintro ⟨slotId, found⟩ m hi ⟨⟨h, hpath, hpos, hinner⟩, hsearch⟩
  have hfound : While parent (Sees node (Found key (slotId, found))) m :=
    hpath.covering.mono (fun h => h.imp (fun hf hcov =>
      hsearch.fresh hf (hi.leafFor hcov (hinner.fresh hf))))
  cases found with
  | true =>
    refine bind hi ((underfull (R := fun m => Searched t key parent node (slotId, true) m ∧
      SlotIn key pos parent m) hi ⟨⟨h, hpath, hfound⟩, hpos⟩ (hpath.leads.mono fun _ _ => trivial)
      hpath.known).mono (fun _ _ _ h => h) (fun _ _ h => h.1.begun)) ?_
    rintro b m hi ⟨⟨h, hpos⟩, hb⟩
    refine ite (fun htrue => ?_) (fun _ => ?_)
    · obtain ⟨hmeta, hcount⟩ := hb htrue
      have hslot : Sees parent (fun s => Leads key parent.pid node.pid s ∧
          InSlot pos node.pid s) m := h.path.leads.imp (fun hf hleads =>
        ⟨hleads, hi.inSlot hmeta hleads ((hpos hmeta).fresh hf).1 (hcount.fresh hf)⟩)
      refine bind hi (removeAndMerge hi h hslot hmeta) ?_
      intro _ m _ h
      exact pure h
    · refine bind hi (removeOnly hi h) ?_
      intro _ m _ h
      exact pure h
  | false =>
    refine bind hi ((leaveBoth (R := Searched t key parent node (slotId, false))
      (B := fun m => Ready t (.remove key) (.bool false) m.now.trace) hi ⟨h, hpath, hfound⟩
      (hpath.leads.mono fun _ _ => trivial) hpath.known ?_).mono (fun _ _ _ h => h)
      (fun _ _ h => h.begun)) ?_
    · intro m hi h hf
      refine h.found.mono (fun hfound => ?_)
      have hr := hfound.fresh hf
      have hnone := hi.absent hr.leaf (hr.absent rfl)
      refine h.begun.pending.ready ?_ ?_
      · rw [Contents.Answers, hnone]
        rfl
      · rw [Call.takes, hnone]
        rfl
    · rintro _ m hi ⟨h, hready⟩
      exact pure ⟨h.begun.owns, hready⟩

theorem remove (hi : Inv m) (h : Begun t (.remove key) m) :
    Serves steady t (BTree.remove env key) m (fun r => Done t (.remove key) (.bool r)) E :=
  retry_once hi h (fun _ hi h => removeAttempt hi h) env.fuel

end Serves

end Rules

end Point

end MemSafeDB
