import MemSafeDB.Tree.Restructure

/-!
# Splits and merges on the path of a key

The separator of a page below `q` belongs to `q` and leads to the same child, so that a page can
be split as soon as its parent has space for the separator. A leaf is merged with the child in
the next slot of its parent.
-/

namespace MemSafeDB
open Lib

namespace Tree

variable {T : Tree} {p q : PID} {h : Nat} {k sep : Key}

/-- `p` is the child of `q` on the path of the key. -/
structure ChildOn (T : Tree) (k : Key) (p q : PID) (h : Nat) : Prop where
  node : T.level p = some h
  parent : T.level q = some (h + 1)
  covers : T.Covers p k
  childFor : (T.view q).childFor k = p
  covered : T.Covers q k

namespace ChildOn

lemma route (hc : T.ChildOn k p q h) (hT : T.Inv) : ∃ r ∈ (T.view q).routes, r.pid = p ∧
    (T.view p).lower = r.lower ∧ (T.view p).upper = r.upper := by
  obtain ⟨r, hr, hpid, -⟩ := (hT.ok hc.parent).route_childFor hc.covered
  rw [hc.childFor] at hpid
  obtain ⟨-, hlow, hup⟩ := hT.child q h hc.parent r hr
  rw [hpid] at hlow hup
  exact ⟨r, hr, hpid, hlow, hup⟩

/-- Other keys of the child take the same way. -/
lemma other (hc : T.ChildOn k p q h) (hT : T.Inv) (hk : T.Covers p sep) :
    T.ChildOn sep p q h := by
  obtain ⟨r, hr, hpid, hlow, hup⟩ := hc.route hT
  have hq : T.Covers q sep := hT.covers_parent hc.parent hr (hpid.symm ▸ hk)
  refine ⟨hc.node, hc.parent, hk, ?_, hq⟩
  rw [(hT.ok hc.parent).childFor_eq (hT.inner hc.parent) hr, hpid]
  rw [Covers, hlow, hup] at hk
  exact hk

/-- A bound strictly below the upper fence of the child is one below that of the parent. -/
lemma lt_upper (hc : T.ChildOn k p q h) (hT : T.Inv)
    (hs : (T.view p).upper = [] ∨ sep < (T.view p).upper) :
    (T.view q).upper = [] ∨ sep < (T.view q).upper := by
  obtain ⟨r, hr, hpid, hlow, hup⟩ := hc.route hT
  rcases hs with hs | hs
  · rcases View.mem_routes_iff.mp hr with ⟨es, e, fs, hsplit, rfl⟩ | rfl
    · have hne := (hT.ok hc.parent).key_ne_nil (hT.inner hc.parent)
        (show e ∈ (T.view q).entries by rw [hsplit]; simp)
      rw [hs] at hup
      exact absurd hup.symm hne
    · rw [hs] at hup
      exact Or.inl hup.symm
  · have hcov : T.Covers p (T.view p).upper := by
      refine ⟨?_, Or.inr le_rfl⟩
      rcases (hT.ok hc.node).fences with hf | hf
      · rw [hf] at hs
        exact absurd hs (List.not_lt_nil _)
      · exact Or.inr hf
    exact (hc.other hT hcov).covered.2.imp_right (fun hle => hs.trans_le hle)

/-- A key strictly inside the interval of the child is no separator of the parent. -/
lemma notMem (hc : T.ChildOn k p q h) (hT : T.Inv) (hk : T.Covers p sep)
    (hs : (T.view p).upper = [] ∨ sep < (T.view p).upper) : sep ∉ (T.view q).keys := by
  intro hmem
  obtain ⟨e, he, rfl⟩ := List.mem_map.mp hmem
  obtain ⟨es, fs, hsplit⟩ := List.append_of_mem he
  have hok := hT.ok hc.parent
  have hr : (⟨lastBound (T.view q).lower es, e.1, loadPID e.2⟩ : Route) ∈ (T.view q).routes :=
    View.mem_routes_iff.mpr (Or.inl ⟨es, e, fs, hsplit, rfl⟩)
  have hbelow : ∀ a ∈ es, a.1 < e.1 := fun a ha => hok.lt_of_append hsplit ha (by simp)
  have hin := View.lastBound_below (hok.entry_inRange he).1 hbelow
  have hpid := hok.childFor_eq (hT.inner hc.parent) hr ⟨hin, Or.inr le_rfl⟩
  rw [(hc.other hT hk).childFor] at hpid
  obtain ⟨-, -, hup⟩ := hT.child q h hc.parent _ hr
  rw [← hpid] at hup
  rw [hup] at hs
  rcases hs with hs | hs
  · exact hok.key_ne_nil (hT.inner hc.parent) he hs
  · exact lt_irrefl _ hs

end ChildOn

/-- The old root below a new one. -/
lemma Inv.childOn_growRoot (hT : T.Inv) {m : PID} {l : Nat} (hl : T.level T.root = some l)
    (hm : T.root ≠ m) (k : Key) : (T.growRoot m l).ChildOn k T.root m l := by
  have hnew : (T.growRoot m l).view m = ⟨false, T.root, [], [], []⟩ := by
    simpa [view, Tree.growRoot] using (new_valid false T.root).2
  have hold : (T.growRoot m l).view T.root = T.view T.root := by
    simp [view, Tree.growRoot, hm]
  refine ⟨?_, ?_, ?_, ?_, ?_⟩
  · simpa [Tree.growRoot, hm] using hl
  · simp [Tree.growRoot]
  · rw [Covers, hold]
    exact hT.covers_root k
  · rw [hnew]
    rfl
  · rw [Covers, hnew]
    exact ⟨Or.inl rfl, Or.inl rfl⟩

variable {info : BTreeNode.SeparatorInfo} {es fs : List (Key × Key)} {e : Key × Key}

/-- What `splitNode` needs of the parent. -/
lemma ChildOn.splitParent (hc : T.ChildOn k p q h) (hT : T.Inv)
    (hs : Separator (T.view p) info sep es e fs)
    (hspace : (T.page q).hasSpaceFor sep.length 8 = true) :
    BTreeNode.SplitParent (T.page q) p sep := by
  have hok := hT.ok hc.node
  have hk : T.Covers p sep := hs.inRange hok
  have hsep := hc.other hT hk
  refine ⟨hT.valid q _ hc.parent, hT.inner hc.parent, ⟨hsep.covered, fun _ =>
    hc.lt_upper hT (hs.lt_upper hok)⟩, ?_, hsep.childFor, hspace⟩
  rw [BTreeNode.keys_eq]
  exact hc.notMem hT hk (hs.lt_upper hok)

/-- A page whose left half fits is split. -/
theorem ChildOn.splitNode (hc : T.ChildOn k p q h) (hT : T.Inv)
    (hs : Separator (T.view p) info sep es e fs) (hpos : 0 < info.slot)
    (hspace : (T.page q).hasSpaceFor sep.length 8 = true) {m : PID} (hm : T.level m = none)
    (hb : 0 < m ∧ m < noNeighbour)
    (hfit : ((T.view p).leftHalf sep es e noNeighbour).size ≤ pageSize) :
    ∃ l r n, (T.page p).splitNode p m (T.page q) info.slot sep = .ok (l, r, n) ∧
      T.SplitStep p m q h sep es e fs l r n := by
  have hsp := hc.splitParent hT hs hspace
  have hcov := (hc.other hT (hs.inRange (hT.ok hc.node))).covered
  obtain ⟨l, r, n, heq, hres⟩ := (hT.valid p _ hc.node).splitNode_eq hs hpos hsp m hfit
  exact ⟨l, r, n, heq, hc.node, hc.parent, hm, hb, hcov, hsp.child, ⟨info, hs, hpos⟩, hres⟩

/-- The split of a page whose left half does not fit ends with a fault. -/
lemma ChildOn.splitNode_unfit (hc : T.ChildOn k p q h) (hT : T.Inv)
    (hs : Separator (T.view p) info sep es e fs) (hpos : 0 < info.slot)
    (hspace : (T.page q).hasSpaceFor sep.length 8 = true) (m : PID)
    (hunfit : pageSize < ((T.view p).leftHalf sep es e noNeighbour).size) :
    (T.page p).splitNode p m (T.page q) info.slot sep =
      .error (BTreeNode.unfitFault ((T.view p).leftHalf sep es e noNeighbour)) :=
  (hT.valid p _ hc.node).splitNode_unfit hs hpos (hc.splitParent hT hs hspace) m hunfit

/-- The children in two adjacent slots are siblings. -/
lemma Inv.siblings (hT : T.Inv) (hq : T.level q = some 1) {i : Nat}
    (hi : i + 1 < (T.page q).count) :
    ∃ es a b fs, es.length = i ∧ b.1 = (T.page q).fullKey (i + 1) ∧
      T.Siblings ((T.page q).getChild i) ((T.page q).getChild (i + 1)) q es a b fs := by
  have hvalid := hT.valid q _ hq
  have hleaf : (T.page q).isLeaf = false := hT.inner hq
  have hlt : i < (T.page q).count := by omega
  have h1 := BTreeNode.entries_split hlt
  have h2 : (T.page q).entries.drop (i + 1) =
      ((T.page q).fullKey (i + 1), (T.page q).getPayload (i + 1)) ::
        (T.page q).entries.drop (i + 2) := by
    rw [List.drop_eq_getElem_cons (by simpa using hi), BTreeNode.getElem_entries]
  rw [h2] at h1
  refine ⟨_, _, _, _, ?_, rfl, hq, h1, ?_, ?_⟩
  · rw [List.length_take, BTreeNode.length_entries]
    omega
  · exact ((hvalid.getChild_eq hleaf hlt).1).symm
  · exact ((hvalid.getChild_eq hleaf hi).1).symm

/-- A leaf is merged with the next child of its parent, or nothing happens. -/
theorem Inv.mergeNodes (hT : T.Inv) (hq : T.level q = some 1) {i : Nat}
    (hi : i + 1 < (T.page q).count) (hp : (T.page q).getChild i = p) {z : PID}
    (hz : (T.page q).getChild (i + 1) = z) :
    (T.page p).mergeNodes p i (T.page q) (T.page z) = .ok (false, T.page p, T.page q) ∨
    ∃ l n, (T.page p).mergeNodes p i (T.page q) (T.page z) = .ok (true, l, n) ∧ l.Valid ∧
      n.Valid ∧ (T.mergePages p z q l n).Inv ∧
      ∀ k v, (T.mergePages p z q l n).Holds k v ↔ T.Holds k v := by
  obtain ⟨es, a, b, fs, hlen, hkey, hsib⟩ := hT.siblings hq hi
  rw [hp, hz] at hsib
  obtain ⟨hcp, hcz⟩ := hsib.childOk hT
  have hleft := hT.valid p 0 hcp.1
  have hright := hT.valid z 0 hcz.1
  have hmerge := hleft.mergeNodes_eq hright (hsib.neighbours hT)
    (hleft.ok.fences_fit hright.ok) (hT.valid q _ hq) (hT.inner hq) hi p
  rcases hmerge with ⟨-, heq⟩ | ⟨-, l, n, heq, hl, hlview, hn, hnview⟩
  · exact Or.inl heq
  · have hstep : T.MergeStep p z q es a b fs l n := by
      refine ⟨hsib, hl, hlview, hn, ?_⟩
      rw [hlen, hkey]
      exact hnview
    exact Or.inr ⟨l, n, heq, hl, hn, hstep.inv hT, hstep.holds_iff hT⟩

end Tree

end MemSafeDB
