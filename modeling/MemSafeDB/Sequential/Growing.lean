import MemSafeDB.Sequential.Splitting

/-!
# One thread alone: progress of splits

`trySplit` splits the node that is full, or the first of its ancestors whose parent has space
for its separator, below a new root if need be. The contents stay the same, and the path of the
key comes closer to having space for the entry.
-/

namespace MemSafeDB
open Lib PageState

variable {τ : Type} [DecidableEq τ]

/-- Bounds the splits that the path of a key may still need, with enough rounds for them. -/
def Budget (env : Env) (T : Tree) (key : Key) (m : Nat) : Prop :=
  ∃ l c, T.Counts key l c ∧ Tree.potential c l ≤ m ∧ l + m + 3 ≤ env.fuel

/-- The contents are the same, and the path of the key needs fewer splits. -/
structure Advanced (env : Env) (t : τ) (key : Key) (m : Nat) (s s' : Sys τ) : Prop where
  solo : Solo env t [] s'
  planted : Planted s'
  holds : ∀ k v, s'.tree.Holds k v ↔ s.tree.Holds k v
  splitOrdered : s'.splitOrdered = s.splitOrdered
  budget : ∃ m' < m, Budget env s'.tree key m' ∧ s'.allocCount + 2 * m' ≤ s.allocCount + 2 * m

/-- An inner page that has no space for some separator. -/
def Full (n : BTreeNode) : Prop :=
  n.isLeaf = false → ∃ k : Key, k.length ≤ maxKVSize ∧ n.hasSpaceFor k.length 8 = false

omit [DecidableEq τ] in
lemma Planted.kept {s s' : Sys τ} (hs : Planted s) (hk : Kept s s') : Planted s' := by
  have htree := hk.tree
  have halloc := hk.allocCount
  refine ⟨htree ▸ hs.inv, ?_, ?_⟩
  · intro p l hp
    rw [halloc]
    exact hs.alloc p l (htree ▸ hp)
  · intro l hl
    rw [halloc]
    exact hs.height l (htree ▸ hl)

section Divided

variable {env : Env} {t : τ} {s s' : Sys τ} {node parent : PID} {j l m : Nat} {key sep : Key}
  {es fs : List (Key × Key)} {e : Key × Key} {c : Nat → Nat}

omit [DecidableEq τ] in
lemma Divided.planted (hd : Divided s s' node parent j sep es e fs) (hs : Planted s) :
    Planted s' := by
  obtain ⟨a, b, n, hstep, htree⟩ := hd.step
  refine ⟨htree ▸ hstep.inv hs.inv, ?_, ?_⟩
  · intro p k hp
    rw [hd.allocCount]
    rw [htree] at hp
    by_cases hpm : p = s.allocCount
    · rw [hpm]
      exact Nat.lt_succ_self _
    · exact Nat.lt_succ_of_lt (hs.alloc p k (by rwa [← Tree.SplitStep.level_old hpm]))
  · intro k hk
    rw [htree] at hk
    obtain ⟨k', hk', -⟩ := hs.inv.root
    have hroot := hstep.level_of_old hk'
    have hkk : k = k' := Option.some.inj (hk.symm.trans hroot)
    have := hs.height k' hk'
    rw [hd.allocCount, hkk]
    omega

omit [DecidableEq τ] in
lemma Divided.holds (hd : Divided s s' node parent j sep es e fs) (hs : Planted s) (k v : Key) :
    s'.tree.Holds k v ↔ s.tree.Holds k v := by
  obtain ⟨a, b, n, hstep, htree⟩ := hd.step
  rw [htree]
  exact hstep.holds_iff hs.inv k v

omit [DecidableEq τ] in
/-- The counts on the path of a key after the split of a page on it. -/
lemma Divided.counts (hd : Divided s s' node parent j sep es e fs) (hs : Planted s)
    (hc : s.tree.ChildOn key node parent j) (hcount : s.tree.Counts key l c) :
    ∃ r, s'.tree.Counts key l (Tree.splitCounts c j r) ∧ Tree.Splittable c j r ∧
      (r = ((s.tree.view node).leftEntries es e).length ∨ r = fs.length) := by
  obtain ⟨a, b, n, hstep, htree⟩ := hd.step
  obtain ⟨info, hsep, hpos⟩ := hstep.separator
  obtain ⟨r, hr, hor⟩ := hstep.counts hs.inv hc.covers hc.covered hcount
  refine ⟨r, htree ▸ hr, ?_, hor⟩
  exact Tree.splittable_of_separator hsep hpos (hs.inv.leaf node j hc.node)
    (hcount.count j node hc.node hc.covers) hor

omit [DecidableEq τ] in
/-- A split below the root. -/
lemma Divided.advanced (hd : Divided s s' node parent j sep es e fs) (hs : Planted s)
    (h' : Solo env t [] s') (hc : s.tree.ChildOn key node parent j)
    (hb : Budget env s.tree key m) : Advanced env t key m s s' := by
  obtain ⟨l, c, hcount, hpot, hfuel⟩ := hb
  obtain ⟨r, hr, hsplit, -⟩ := hd.counts hs hc hcount
  have hlt : j < l := by
    obtain ⟨l', hl', hmax⟩ := hs.inv.root
    have hll : l' = l := Option.some.inj (hl'.symm.trans hcount.root)
    have := hmax _ _ hc.parent
    omega
  have hpot' := Tree.potential_split hsplit hlt
  refine ⟨h', hd.planted hs, hd.holds hs, hd.splitOrdered, m - 1, by omega,
    ⟨l, _, hr, by omega, by omega⟩, ?_⟩
  rw [hd.allocCount]
  omega

omit [DecidableEq τ] in
/-- A split of the root below a new root. -/
lemma Divided.advanced_root {s1 : Sys τ} (hs : Planted s) (h1 : Planted s1)
    (hl : s.tree.level s.tree.root = some l) (htree : s1.tree = s.tree.growRoot s.allocCount l)
    (halloc : s1.allocCount = s.allocCount + 1) (hord : s1.splitOrdered = s.splitOrdered)
    (hd : Divided s1 s' s.tree.root s.allocCount l sep es e fs) (h' : Solo env t [] s')
    (hinner : l ≠ 0 → es.length + 2 ≤ (s.tree.view s.tree.root).entries.length ∧
      fs.length + 2 ≤ (s.tree.view s.tree.root).entries.length)
    (hb : Budget env s.tree key m) : Advanced env t key m s s' := by
  obtain ⟨l', c, hcount, hpot, hfuel⟩ := hb
  have hll : l' = l := Option.some.inj (hcount.root.symm.trans hl)
  subst hll
  have hfresh : s.tree.level s.allocCount = none := Solo.fresh_level hs
  have hroot : s.tree.root ≠ s.allocCount := ne_of_lt (hs.alloc _ _ hl)
  have hview : s1.tree.view s.tree.root = s.tree.view s.tree.root := by
    rw [htree]
    simp [Tree.view, Tree.growRoot, hroot]
  have hchild : s1.tree.ChildOn key s.tree.root s.allocCount l' :=
    htree ▸ hs.inv.childOn_growRoot hl hroot key
  have hcount1 : s1.tree.Counts key (l' + 1) (Function.update c (l' + 1) 0) :=
    htree ▸ hcount.growRoot hs.inv hfresh
  have hcl : (s.tree.view s.tree.root).entries.length = c l' :=
    hcount.count l' _ hl (hs.inv.covers_root key)
  obtain ⟨r, hr, hsplit, hor⟩ := hd.counts h1 hchild hcount1
  have hcl' : Function.update c (l' + 1) 0 l' = c l' := Function.update_of_ne (by omega) _ _
  have hpot1 : Tree.potential (Function.update c (l' + 1) 0) l' = Tree.potential c l' :=
    Tree.potential_congr (fun i hi => Function.update_of_ne (by omega) _ _)
  have hlt := Tree.potential_grow hsplit (by
    intro hne
    obtain ⟨h2, h3⟩ := hinner hne
    have hleaf := hs.inv.leaf _ _ hl
    rw [decide_eq_false hne] at hleaf
    rw [hcl', ← hcl]
    rw [hview, View.leftEntries, hleaf] at hor
    simp only [Bool.false_eq_true, ite_false] at hor
    obtain ⟨a, b, n, hstep, -⟩ := hd.step
    obtain ⟨info, hsep, -⟩ := hstep.separator
    have hlen := congrArg List.length hsep.entries
    rw [hview, List.length_append, List.length_cons] at hlen
    omega) (Function.update_self _ _ _)
  refine ⟨h', hd.planted h1, ?_, hd.splitOrdered.trans hord, m - 1, by omega,
    ⟨l' + 1, _, hr, by omega, by omega⟩, ?_⟩
  · intro k v
    rw [hd.holds h1, htree, Tree.holds_growRoot hfresh]
  · rw [hd.allocCount, halloc]
    omega

end Divided

omit [DecidableEq τ] in
lemma Divided.kept {s s1 s2 : Sys τ} {node parent : PID} {j : Nat} {sep : Key}
    {es fs : List (Key × Key)} {e : Key × Key} (hd : Divided s s1 node parent j sep es e fs)
    (hk : Kept s1 s2) : Divided s s2 node parent j sep es e fs := by
  obtain ⟨l, r, n, hstep, htree⟩ := hd.step
  exact ⟨⟨l, r, n, hstep, hk.tree.trans htree⟩, hk.allocCount.trans hd.allocCount,
    hk.splitOrdered.trans hd.splitOrdered⟩

omit [DecidableEq τ] in
lemma Advanced.kept {env : Env} {t : τ} {key : Key} {m : Nat} {s s1 s2 : Sys τ}
    (h : Advanced env t key m s1 s2) (hk : Kept s s1) : Advanced env t key m s s2 := by
  obtain ⟨m', hlt, hb, hpages⟩ := h.budget
  refine ⟨h.solo, h.planted, ?_, h.splitOrdered.trans hk.splitOrdered, m', hlt, hb, ?_⟩
  · intro k v
    rw [h.holds, hk.tree]
  · rw [← hk.allocCount]
    exact hpages

/-- `ensureSpace` on the page brings the path of the key forward, once nothing is latched. -/
def MakesSpace (env : Env) (t : τ) (c : Choice) (P : Sys τ → Op → Prop) (F : Fault → Prop)
    (key : Key) (m : Nat) (ens : PID → Key → Nat → Prog Unit) (q : PID) (s : Sys τ) : Prop :=
  ∀ s1 sep, Solo env t [] s1 → Kept s s1 → s.tree.Covers q sep → sep.length ≤ maxKVSize →
    (s.page q).hasSpaceFor sep.length 8 = false →
    Runs t c P F (ens q sep 8) s1 (fun _ s' => Advanced env t key m s s')

namespace Solo

variable {env : Env} {t : τ} {c : Choice} {P : Sys τ → Op → Prop} {F : Fault → Prop}
  {X : List PID} {s : Sys τ} {p node q : PID} {key : Key} {j m : Nat}
  {ens : PID → Key → Nat → Prog Unit}

lemma runs_splitBelow (hA : Assumed env P F)
    (h : Solo env t [node, q] s) (hs : Planted s) (hc : s.tree.ChildOn key node q j)
    (hens : MakesSpace env t c P F key m ens q s) :
    Runs t c P F (BTree.splitBelow env ens node q) s (fun r s' =>
      (r = (some node, some q) ∧ Solo env t [node, q] s' ∧
        ∃ sep es e fs, Divided s s' node q j sep es e fs ∧
          ((s.page node).isLeaf = false → es.length = (s.page node).count / 2)) ∨
      (r = (none, none) ∧ (s.page q).isLeaf = false ∧ Advanced env t key m s s' ∧
        ∃ sep : Key, sep.length ≤ maxKVSize ∧ (s.page q).hasSpaceFor sep.length 8 = false)) := by
  have hvalid : (s.page node).Valid := hs.inv.valid node j hc.node
  have hne : node ≠ q := by
    rintro rfl
    have hlev := hc.node.symm.trans hc.parent
    rw [Option.some.injEq] at hlev
    omega
  refine (Runs.view node h.crashed).bind ?_
  rintro n _ ⟨rfl, rfl⟩
  refine Runs.bind (Q := fun b s' => b = s.splitOrdered ∧ s = s' ∧
    ∀ f, SeparatorFault (s.page node) s.splitOrdered f → F f) (Runs.op (.splitOrdered node)
      h.crashed rfl (fun _ => hvalid) (fun hP => ⟨rfl, rfl, hA.separator s node hP hvalid⟩)) ?_
  rintro b _ ⟨rfl, rfl, hfault⟩
  by_cases hcount : 1 < (s.page node).count
  · obtain ⟨info, es, e, fs, hfind, hsep, hpos⟩ := hvalid.findSeparator_eq hcount s.splitOrdered
    rw [hfind]
    refine Runs.bind (Q := fun i s' => info = i ∧ s = s') (Runs.pure ⟨rfl, rfl⟩) ?_
    rintro _ _ ⟨rfl, rfl⟩
    refine (Runs.view q h.crashed).bind ?_
    rintro n _ ⟨rfl, rfl⟩
    by_cases hspace : (s.page q).hasSpaceFor info.len 8 = true
    · rw [if_pos hspace]
      by_cases hslot : 0 < info.slot
      · refine (h.runs_splitNode hA hs hc hsep hslot (hsep.len ▸ hspace)).bind ?_
        rintro _ s1 ⟨hsolo, hdiv⟩
        refine Runs.pure (Or.inl ⟨rfl, hsolo, _, es, e, fs, hdiv, fun hleaf => ?_⟩)
        rw [← hsep.slot, BTreeNode.findSeparator_slot_inner hleaf hfind]
      · have hzero : info.slot = 0 := Nat.eq_zero_of_not_pos hslot
        unfold BTree.splitNode assert
        rw [if_neg hslot]
        refine Runs.bind (Q := fun _ _ => False) (Runs.bind (Q := fun _ _ => False)
          (Runs.crash h.crashed (hfault _ (.slot hfind hzero))) ?_) ?_
        · exact fun _ _ hf => hf.elim
        · exact fun _ _ hf => hf.elim
    · rw [if_neg hspace]
      refine (h.runs_unfixX hA (by simpa using hne)).bind ?_
      rintro _ s1 ⟨hsolo1, hkept1⟩
      refine (hsolo1.runs_unfixX hA (by simp)).bind ?_
      rintro _ s2 ⟨hsolo2, hkept2⟩
      have hno : (s.page q).hasSpaceFor ((s.page node).getSep info).length 8 = false := by
        rw [← hsep.len]
        simpa using hspace
      have hlen := hsep.length_sep_le hvalid.ok
      have hcov := (hc.other hs.inv (hsep.inRange hvalid.ok)).covered
      refine (hens s2 _ hsolo2 (hkept1.trans hkept2) hcov hlen hno).bind ?_
      intro _ s3 hadv
      exact Runs.pure (Or.inr ⟨rfl, hs.inv.inner hc.parent, hadv, _, hlen, hno⟩)
  · have herr : (s.page node).findSeparator s.splitOrdered =
        .error (.assertion .separatorCount) := by
      simp only [BTreeNode.findSeparator, check, hcount, ite_false, bind, Except.bind]
    rw [herr]
    refine Runs.bind (Q := fun _ _ => False)
      (Runs.crash h.crashed (hfault _ (.count (not_lt.mp hcount)))) ?_
    exact fun _ _ hf => hf.elim

omit [DecidableEq τ] in
lemma full_count {n : BTreeNode} (hn : n.Valid) (hleaf : n.isLeaf = false)
    (hlow : n.getLowerFence = []) (hup : n.getUpperFence = []) (hfull : Full n) : 3 ≤ n.count := by
  obtain ⟨k, hk, hno⟩ := hfull hleaf
  by_contra hc
  rw [hn.hasSpaceFor_few hleaf hlow hup (by omega) hk] at hno
  cases hno

/-- `trySplit` below a parent. -/
lemma runs_trySplit_below (hA : Assumed env P F)
    (h : Solo env t [node, q] s) (hs : Planted s) (hc : s.tree.ChildOn key node q j)
    (hb : Budget env s.tree key m) (hens : MakesSpace env t c P F key m ens q s) :
    Runs t c P F (do
      let (nodeLocked, parentLocked) ← BTree.trySplit env ens node q
      GuardX.destroy nodeLocked
      GuardX.destroy parentLocked) s (fun _ s' => Advanced env t key m s s') := by
  have hmeta : q ≠ metadataPageId := (hs.inv.bound q _ hc.parent).1.ne'
  have hne : node ≠ q := by
    rintro rfl
    have hlev := hc.node.symm.trans hc.parent
    rw [Option.some.injEq] at hlev
    omega
  unfold BTree.trySplit BTree.parentOrNewRoot
  rw [if_neg hmeta]
  refine (h.runs_splitBelow hA hs hc hens).bind ?_
  rintro _ s1 (⟨rfl, hsolo1, sep, es, e, fs, hd, -⟩ | ⟨rfl, -, hadv, -⟩)
  · refine (hsolo1.runs_unfixX hA (by simpa using hne)).bind ?_
    rintro _ s2 ⟨hsolo2, hkept2⟩
    refine (hsolo2.runs_unfixX hA (by simp)).mono ?_
    rintro _ s3 ⟨hsolo3, hkept3⟩
    exact (hd.kept (hkept2.trans hkept3)).advanced hs hsolo3 hc hb
  · exact Runs.pure hadv

/-- `trySplit` on the root. -/
lemma runs_trySplit_root (hA : Assumed env P F)
    (h : Solo env t [s.tree.root, metadataPageId] s) (hs : Planted s)
    (hb : Budget env s.tree key m) (hfull : Full (s.page s.tree.root)) :
    Runs t c P F (do
      let (nodeLocked, parentLocked) ← BTree.trySplit env ens s.tree.root metadataPageId
      GuardX.destroy nodeLocked
      GuardX.destroy parentLocked) s (fun _ s' => Advanced env t key m s s') := by
  obtain ⟨l, hl, -⟩ := hs.inv.root
  have hroot : s.tree.root ≠ s.allocCount := ne_of_lt (hs.alloc _ _ hl)
  have hmeta : metadataPageId ∉ [s.tree.root] := by
    rw [List.mem_singleton]
    exact (hs.inv.bound _ _ hl).1.ne
  unfold BTree.trySplit BTree.parentOrNewRoot
  rw [if_pos rfl]
  refine Runs.bind (Q := fun r s' => ∃ s1, Solo env t [s.tree.root, s.allocCount] s' ∧
    Planted s1 ∧ s1.tree = s.tree.growRoot s.allocCount l ∧ s1.allocCount = s.allocCount + 1 ∧
    s1.splitOrdered = s.splitOrdered ∧ r = (some s.tree.root, some s.allocCount) ∧
    ∃ sep es e fs, Divided s1 s' s.tree.root s.allocCount l sep es e fs ∧
      ((s1.page s.tree.root).isLeaf = false → es.length = (s1.page s.tree.root).count / 2)) ?_ ?_
  · refine ((h.perm (Y := [metadataPageId, s.tree.root])
      (by simp [or_comm])).runs_growRoot hA hmeta hs hl).bind ?_
    rintro _ s1 ⟨rfl, hsolo1, hs1, htree1, hcount1, hord1⟩
    have hnew : s1.tree.page s.allocCount = { BTreeNode.new false with link := s.tree.root } := by
      rw [htree1]
      simp [Tree.growRoot]
    have hchild : s1.tree.ChildOn key s.tree.root s.allocCount l :=
      htree1 ▸ hs.inv.childOn_growRoot hl hroot key
    have hspace : ∀ k : Key, k.length ≤ maxKVSize →
        (s1.page s.allocCount).hasSpaceFor k.length 8 = true := by
      intro k hk
      change (s1.tree.page s.allocCount).hasSpaceFor k.length 8 = true
      rw [hnew]
      exact (Tree.new_valid false s.tree.root).1.hasSpaceFor_few rfl rfl rfl (Nat.zero_le 2) hk
    have hens : MakesSpace env t c P F key m ens s.allocCount s1 := by
      intro s2 sep _ _ _ hlen hno
      rw [hspace sep hlen] at hno
      cases hno
    refine ((hsolo1.perm (by simp [or_comm])).runs_splitBelow hA hs1 hchild hens).mono ?_
    rintro _ s2 (⟨rfl, hsolo2, hdiv⟩ | ⟨rfl, -, -, sep, hlen, hno⟩)
    · exact ⟨s1, hsolo2, hs1, htree1, hcount1, hord1, rfl, hdiv⟩
    · rw [hspace sep hlen] at hno
      cases hno
  · rintro _ s2 ⟨s1, hsolo2, hs1, htree1, hcount1, hord1, rfl, sep, es, e, fs, hd, hslot⟩
    refine (hsolo2.runs_unfixX hA (by simpa using hroot)).bind ?_
    rintro _ s3 ⟨hsolo3, hkept3⟩
    refine (hsolo3.runs_unfixX hA (by simp)).mono ?_
    rintro _ s4 ⟨hsolo4, hkept4⟩
    refine Divided.advanced_root hs hs1 hl htree1 hcount1 hord1 (hd.kept (hkept3.trans hkept4))
      hsolo4 ?_ hb
    intro hne
    have hleaf := hs.inv.leaf _ _ hl
    rw [decide_eq_false hne] at hleaf
    have hpage : s1.page s.tree.root = s.page s.tree.root :=
      (congrArg (fun T : Tree => T.page s.tree.root) htree1).trans (Function.update_of_ne hroot _ _)
    rw [hpage] at hslot
    have h3 := full_count (hs.inv.valid _ _ hl) hleaf hs.inv.rootFences.1 hs.inv.rootFences.2 hfull
    obtain ⟨a, b, n, hstep, -⟩ := hd.step
    obtain ⟨info, hsep, -⟩ := hstep.separator
    have hlen := congrArg List.length hsep.entries
    have hview : s1.tree.view s.tree.root = s.tree.view s.tree.root :=
      congrArg BTreeNode.view hpage
    have hcount : (s.tree.view s.tree.root).entries.length = (s.page s.tree.root).count :=
      BTreeNode.length_entries _
    rw [hview, List.length_append, List.length_cons, hcount] at hlen
    have hes := hslot hleaf
    rw [hcount]
    change 3 ≤ (s.page s.tree.root).count at h3
    omega

end Solo

end MemSafeDB
