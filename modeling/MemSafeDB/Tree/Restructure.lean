import MemSafeDB.Tree.Changes

/-!
# Splits and merges of a tree

A split moves the upper part of a page to a new page, a merge moves the entries of a leaf to its
left neighbour and takes the emptied page out of the tree. Both keep the invariant and what the
tree holds.
-/

namespace MemSafeDB
open Lib

namespace Tree

variable {T : Tree}

/-! ## Splits -/

/-- The tree after the page `p` with the parent `q` has been split, with the right half in `m`. -/
def splitPages (T : Tree) (p m q : PID) (l r n : BTreeNode) : Tree where
  page := Function.update (Function.update (Function.update T.page p l) m r) q n
  level := Function.update T.level m (T.level p)
  root := T.root

/-- A split of the page `p` of height `h` with the parent `q`. -/
structure SplitStep (T : Tree) (p m q : PID) (h : Nat) (sep : Key) (es : List (Key × Key))
    (e : Key × Key) (fs : List (Key × Key)) (l r n : BTreeNode) : Prop where
  node : T.level p = some h
  parent : T.level q = some (h + 1)
  fresh : T.level m = none
  bound : 0 < m ∧ m < noNeighbour
  covers : T.Covers q sep
  child : (T.view q).childFor sep = p
  separator : ∃ info, Separator (T.view p) info sep es e fs ∧ 0 < info.slot
  result : BTreeNode.SplitResult (T.page p) (T.page q) p m sep es e fs l r n

namespace SplitStep

variable {p m q : PID} {h : Nat} {sep : Key} {es fs : List (Key × Key)} {e : Key × Key}
  {l r n : BTreeNode}

lemma distinct (hs : T.SplitStep p m q h sep es e fs l r n) : p ≠ m ∧ p ≠ q ∧ m ≠ q := by
  refine ⟨?_, ?_, ?_⟩
  · rintro rfl
    have h1 := hs.node
    rw [hs.fresh] at h1
    cases h1
  · rintro rfl
    have h1 := hs.node
    rw [hs.parent, Option.some.injEq] at h1
    omega
  · rintro rfl
    have h1 := hs.parent
    rw [hs.fresh] at h1
    cases h1

lemma view_left (hs : T.SplitStep p m q h sep es e fs l r n) :
    (T.splitPages p m q l r n).view p =
      (T.view p).leftHalf sep es e (if (T.view p).isLeaf then m else loadPID e.2) := by
  obtain ⟨h1, h2, -⟩ := hs.distinct
  have hv : (T.splitPages p m q l r n).view p = l.view := by simp [view, splitPages, h1, h2]
  rw [hv, hs.result.left_view]
  rfl

lemma view_right (hs : T.SplitStep p m q h sep es e fs l r n) :
    (T.splitPages p m q l r n).view m = (T.view p).rightHalf sep fs := by
  obtain ⟨-, -, h3⟩ := hs.distinct
  have hv : (T.splitPages p m q l r n).view m = r.view := by simp [view, splitPages, h3]
  rw [hv, hs.result.right_view]
  rfl

lemma view_parent (hs : T.SplitStep p m q h sep es e fs l r n) :
    (T.splitPages p m q l r n).view q = (T.view q).splitParent sep p m := by
  have hv : (T.splitPages p m q l r n).view q = n.view := by simp [view, splitPages]
  rw [hv, hs.result.parent_view]
  rfl

lemma view_other {x : PID} (hp : x ≠ p) (hm : x ≠ m) (hq : x ≠ q) :
    (T.splitPages p m q l r n).view x = T.view x := by
  simp [view, splitPages, hp, hm, hq]

lemma level_new (hs : T.SplitStep p m q h sep es e fs l r n) :
    (T.splitPages p m q l r n).level m = some h := by
  simp [splitPages, hs.node]

lemma level_old {x : PID} (hm : x ≠ m) : (T.splitPages p m q l r n).level x = T.level x := by
  simp [splitPages, hm]

lemma ne_new (hs : T.SplitStep p m q h sep es e fs l r n) {x : PID} {k : Nat}
    (hx : T.level x = some k) : x ≠ m := by
  rintro rfl
  rw [hs.fresh] at hx
  cases hx

lemma level_of_old (hs : T.SplitStep p m q h sep es e fs l r n) {x : PID} {k : Nat}
    (hx : T.level x = some k) : (T.splitPages p m q l r n).level x = some k :=
  (level_old (hs.ne_new hx)).trans hx

/-- Old pages keep their lower fence. -/
lemma lower_old (hs : T.SplitStep p m q h sep es e fs l r n) {x : PID} (hx : x ≠ m) :
    ((T.splitPages p m q l r n).view x).lower = (T.view x).lower := by
  by_cases hp : x = p
  · subst hp
    rw [hs.view_left]
    rfl
  · by_cases hq : x = q
    · subst hq
      rw [hs.view_parent]
      rfl
    · rw [view_other hp hx hq]

/-- Old pages other than the split one keep their upper fence. -/
lemma upper_old (hs : T.SplitStep p m q h sep es e fs l r n) {x : PID} (hx : x ≠ m) (hp : x ≠ p) :
    ((T.splitPages p m q l r n).view x).upper = (T.view x).upper := by
  by_cases hq : x = q
  · subst hq
    rw [hs.view_parent]
    rfl
  · rw [view_other hp hx hq]

/-- The separator cuts the interval of the split page. -/
lemma cut (hs : T.SplitStep p m q h sep es e fs l r n) (hT : T.Inv) (k : Key) :
    ((T.splitPages p m q l r n).Covers p k ↔ T.Covers p k ∧ k ≤ sep) ∧
      ((T.splitPages p m q l r n).Covers m k ↔ T.Covers p k ∧ sep < k) := by
  obtain ⟨info, hsep, hpos⟩ := hs.separator
  have hok := hT.ok hs.node
  have hr := hsep.inRange hok
  have hne := hsep.ne_nil hok hpos
  constructor
  · rw [Covers, hs.view_left]
    exact inRange_left_iff hr hne
  · rw [Covers, hs.view_right]
    exact inRange_right_iff hr hne

/-- The page that covered the keys of a page before the split. -/
def origin (p m x : PID) : PID := if x = m then p else x

lemma covers_origin (hs : T.SplitStep p m q h sep es e fs l r n) (hT : T.Inv) {x : PID} {k : Key}
    (hk : (T.splitPages p m q l r n).Covers x k) : T.Covers (origin p m x) k := by
  unfold origin
  by_cases hm : x = m
  · subst hm
    rw [if_pos rfl]
    exact ((hs.cut hT k).2.mp hk).1
  · rw [if_neg hm]
    by_cases hp : x = p
    · subst hp
      exact ((hs.cut hT k).1.mp hk).1
    · rw [Covers, hs.lower_old hm, hs.upper_old hm hp] at hk
      exact hk

lemma level_origin (hs : T.SplitStep p m q h sep es e fs l r n) {x : PID} {k : Nat}
    (hx : (T.splitPages p m q l r n).level x = some k) : T.level (origin p m x) = some k := by
  unfold origin
  by_cases hm : x = m
  · subst hm
    rw [if_pos rfl, hs.node, ← hx, hs.level_new]
  · rw [if_neg hm, ← level_old hm, hx]

/-- A child other than the split page is the same as before. -/
lemma child_other (hs : T.SplitStep p m q h sep es e fs l r n) {k : Nat} {c : Route}
    (hc : T.ChildOk k c) (hne : c.pid ≠ p) : (T.splitPages p m q l r n).ChildOk k c := by
  have hm := hs.ne_new hc.1
  exact ⟨hs.level_of_old hc.1, (hs.lower_old hm).trans hc.2.1, (hs.upper_old hm hne).trans hc.2.2⟩

theorem inv (hs : T.SplitStep p m q h sep es e fs l r n) (hT : T.Inv) :
    (T.splitPages p m q l r n).Inv := by
  obtain ⟨hpm, hpq, hmq⟩ := hs.distinct
  obtain ⟨info, hsep, hpos⟩ := hs.separator
  have hbp := hT.bound p h hs.node
  have hpb : p < 2 ^ 64 := lt_trans hbp.2 (by simp [noNeighbour])
  have hmb : m < 2 ^ 64 := lt_trans hs.bound.2 (by simp [noNeighbour])
  obtain ⟨pre, lo, up, post, hroutes, hroutes', -⟩ :=
    (T.view q).routes_splitParent sep hpb hmb
  rw [hs.child] at hroutes
  have hc : T.ChildOk h ⟨lo, up, p⟩ := hT.child q h hs.parent _ (by rw [hroutes]; simp)
  have honce := hT.child_once hs.parent hroutes
  have hnew : (T.splitPages p m q l r n).ChildOk h ⟨lo, sep, p⟩ ∧
      (T.splitPages p m q l r n).ChildOk h ⟨sep, up, m⟩ := by
    refine ⟨⟨hs.level_of_old hs.node, ?_, ?_⟩, ⟨hs.level_new, ?_, ?_⟩⟩
    · exact (hs.lower_old hpm).trans hc.2.1
    · rw [hs.view_left]
      rfl
    · rw [hs.view_right]
      rfl
    · rw [hs.view_right]
      exact hc.2.2
  refine ⟨?_, ?_, ?_, ?_, ?_, ?_, ?_, ?_⟩
  · intro x k hx
    by_cases hm : x = m
    · subst hm
      have hpage : (T.splitPages p x q l r n).page x = r := by simp [splitPages, hmq]
      rw [hpage]
      exact hs.result.right_valid
    · by_cases hq : x = q
      · subst hq
        have hpage : (T.splitPages p m x l r n).page x = n := by simp [splitPages]
        rw [hpage]
        exact hs.result.parent_valid
      · by_cases hp : x = p
        · subst hp
          have hpage : (T.splitPages x m q l r n).page x = l := by simp [splitPages, hm, hq]
          rw [hpage]
          exact hs.result.left_valid
        · have hpage : (T.splitPages p m q l r n).page x = T.page x := by
            simp [splitPages, hm, hq, hp]
          rw [hpage]
          exact hT.valid x k (by rwa [level_old hm] at hx)
  · intro x k hx
    by_cases hm : x = m
    · subst hm
      rw [hs.level_new, Option.some.injEq] at hx
      subst hx
      rw [hs.view_right]
      exact hT.leaf p h hs.node
    · rw [level_old hm] at hx
      by_cases hp : x = p
      · subst hp
        rw [hs.view_left]
        exact hT.leaf x k hx
      · by_cases hq : x = q
        · subst hq
          rw [hs.view_parent]
          exact hT.leaf x k hx
        · rw [view_other hp hm hq]
          exact hT.leaf x k hx
  · intro x k hx
    by_cases hm : x = m
    · exact hm ▸ hs.bound
    · rw [level_old hm] at hx
      exact hT.bound x k hx
  · obtain ⟨k, hk, hmax⟩ := hT.root
    refine ⟨k, hs.level_of_old hk, ?_⟩
    intro x j hx
    exact hmax _ j (hs.level_origin hx)
  · -- the root is not the split page, which has a parent
    obtain ⟨k, hk, hmax⟩ := hT.root
    have hrp : T.root ≠ p := by
      intro heq
      have hle := hmax q (h + 1) hs.parent
      rw [heq, hs.node, Option.some.injEq] at hk
      omega
    have hroot : (T.splitPages p m q l r n).root = T.root := rfl
    rw [hroot, hs.lower_old (hs.ne_new hk), hs.upper_old (hs.ne_new hk) hrp]
    exact hT.rootFences
  · intro x k hx c hcr
    by_cases hq : x = q
    · subst hq
      rw [level_old hmq.symm, hs.parent, Option.some.injEq, Nat.add_right_cancel_iff] at hx
      subst hx
      rw [hs.view_parent, hroutes'] at hcr
      have hold : ∀ c ∈ pre ++ post, (T.splitPages p m x l r n).ChildOk h c := by
        intro c hc'
        refine hs.child_other (hT.child x h hs.parent c ?_) (honce c hc')
        rw [hroutes]
        rcases List.mem_append.mp hc' with hc' | hc'
        · exact List.mem_append_left _ hc'
        · exact List.mem_append_right _ (List.mem_cons_of_mem _ hc')
      rcases List.mem_append.mp hcr with hcr | hcr
      · exact hold c (List.mem_append_left _ hcr)
      · rcases List.mem_cons.mp hcr with rfl | hcr
        · exact hnew.1
        · rcases List.mem_cons.mp hcr with rfl | hcr
          · exact hnew.2
          · exact hold c (List.mem_append_right _ hcr)
    · -- the children of the halves are those of the split page
      have horig : T.level (origin p m x) = some (k + 1) := hs.level_origin hx
      have hmem : c ∈ (T.view (origin p m x)).routes := by
        have hhalf : x = m ∨ x = p → c ∈ (T.view p).routes := by
          intro hxx
          have hk : T.level p = some (k + 1) := by
            rcases hxx with rfl | rfl
            · rwa [origin, if_pos rfl] at horig
            · rwa [origin, if_neg hpm] at horig
          have hin := hT.inner hk
          have hsp := hsep.inner hin
          rw [View.routes_halves hin hsep.entries hsp]
          rcases hxx with rfl | rfl
          · rw [hs.view_right] at hcr
            exact List.mem_append_right _ hcr
          · rw [hs.view_left, hin] at hcr
            exact List.mem_append_left _ hcr
        unfold origin
        by_cases hm : x = m
        · rw [if_pos hm]
          exact hhalf (Or.inl hm)
        · rw [if_neg hm]
          by_cases hp : x = p
          · rw [hp]
            exact hhalf (Or.inr hp)
          · rwa [view_other hp hm hq] at hcr
      have hok := hT.child _ k horig c hmem
      refine hs.child_other hok ?_
      intro heq
      have hk : k = h := by
        have h1 := hok.1
        rw [heq, hs.node, Option.some.injEq] at h1
        exact h1.symm
      subst hk
      have hpar := hT.parent_unique horig hs.parent hmem
        (s := ⟨lo, up, p⟩) (by rw [hroutes]; simp) heq
      have hxq : x = q := by
        unfold origin at hpar
        split at hpar
        · exact absurd hpar hpq
        · exact hpar
      exact hq hxq
  · intro x y k key hx hy hkx hky
    have hxy := hT.disjoint _ _ k key (hs.level_origin hx) (hs.level_origin hy)
      (hs.covers_origin hT hkx) (hs.covers_origin hT hky)
    unfold origin at hxy
    by_cases h1 : x = m
    · by_cases h2 : y = m
      · rw [h1, h2]
      · rw [if_pos h1, if_neg h2] at hxy
        subst h1 hxy
        have hle := ((hs.cut hT key).1.mp hky).2
        have hlt := ((hs.cut hT key).2.mp hkx).2
        exact absurd hlt (not_lt.mpr hle)
    · by_cases h2 : y = m
      · rw [if_neg h1, if_pos h2] at hxy
        subst h2 hxy
        have hle := ((hs.cut hT key).1.mp hkx).2
        have hlt := ((hs.cut hT key).2.mp hky).2
        exact absurd hlt (not_lt.mpr hle)
      · rwa [if_neg h1, if_neg h2] at hxy
  · intro x hx
    -- pointers to old leaves lead to leaves with the same lower fence
    have hold : ∀ y, T.NextOk y → ((T.view y).upper = [] ∧ (T.view y).link = noNeighbour) ∨
        ((T.view y).upper ≠ [] ∧ (T.splitPages p m q l r n).level (T.view y).link = some 0 ∧
          ((T.splitPages p m q l r n).view (T.view y).link).lower = (T.view y).upper) := by
      intro y hy
      rcases hy with hy | ⟨h1, h2, h3⟩
      · exact Or.inl hy
      · exact Or.inr ⟨h1, hs.level_of_old h2, (hs.lower_old (hs.ne_new h2)).trans h3⟩
    unfold NextOk
    by_cases hm : x = m
    · subst hm
      rw [hs.level_new, Option.some.injEq] at hx
      subst hx
      rw [hs.view_right]
      exact hold p (hT.next p hs.node)
    · rw [level_old hm] at hx
      by_cases hp : x = p
      · subst hp
        have hleaf := hT.isLeaf_of_level hx
        have hh : h = 0 := by
          have h1 := hs.node
          rw [hx, Option.some.injEq] at h1
          exact h1.symm
        have hlink : ((T.splitPages x m q l r n).view x).link = m := by
          rw [hs.view_left, hleaf]
          rfl
        have hupper : ((T.splitPages x m q l r n).view x).upper = sep := by
          rw [hs.view_left]
          rfl
        rw [hlink, hupper]
        refine Or.inr ⟨hsep.ne_nil (hT.ok hs.node) hpos, ?_, ?_⟩
        · rw [hs.level_new, hh]
        · rw [hs.view_right]
          rfl
      · by_cases hq : x = q
        · subst hq
          rw [hs.parent] at hx
          cases hx
        · rw [view_other hp hm hq]
          exact hold x (hT.next x hx)

/-- A split does not change what the tree holds. -/
theorem holds_iff (hs : T.SplitStep p m q h sep es e fs l r n) (hT : T.Inv) (k v : Key) :
    (T.splitPages p m q l r n).Holds k v ↔ T.Holds k v := by
  obtain ⟨info, hsep, hpos⟩ := hs.separator
  obtain ⟨hpm, hpq, hmq⟩ := hs.distinct
  have hq0 : T.level q ≠ some 0 := by
    rw [hs.parent]
    simp
  have hhalves : (T.view p).isLeaf = true → ((k, v) ∈ (T.view p).entries ↔
      (k, v) ∈ ((T.splitPages p m q l r n).view p).entries ∨
        (k, v) ∈ ((T.splitPages p m q l r n).view m).entries) := by
    intro hl
    rw [hs.view_left, hs.view_right]
    simp only [View.leftHalf, View.rightHalf, View.leftEntries, hl, ite_true, hsep.entries,
      List.mem_append, List.mem_cons, List.not_mem_nil, or_false, or_assoc]
  constructor
  · rintro ⟨x, hx, hmem⟩
    have horig := hs.level_origin hx
    unfold origin at horig
    by_cases hm : x = m
    · rw [if_pos hm] at horig
      rw [hm] at hmem
      exact ⟨p, horig, (hhalves (hT.isLeaf_of_level horig)).mpr (Or.inr hmem)⟩
    · rw [if_neg hm] at horig
      by_cases hp : x = p
      · rw [hp] at hmem horig
        exact ⟨p, horig, (hhalves (hT.isLeaf_of_level horig)).mpr (Or.inl hmem)⟩
      · have hq : x ≠ q := by
          rintro rfl
          exact hq0 horig
        rw [view_other hp hm hq] at hmem
        exact ⟨x, horig, hmem⟩
  · rintro ⟨x, hx, hmem⟩
    have hm := hs.ne_new hx
    by_cases hp : x = p
    · subst hp
      rcases (hhalves (hT.isLeaf_of_level hx)).mp hmem with hmem | hmem
      · exact ⟨x, hs.level_of_old hx, hmem⟩
      · have hh := hs.node
        rw [hx, Option.some.injEq] at hh
        exact ⟨m, by rw [hs.level_new, hh], hmem⟩
    · have hq : x ≠ q := by
        rintro rfl
        exact hq0 hx
      exact ⟨x, hs.level_of_old hx, by rwa [view_other hp hm hq]⟩

end SplitStep

/-! ## Merges -/

/-- The tree after the leaf `z` has been merged into its left neighbour `p`, both children of
`q`. -/
def mergePages (T : Tree) (p z q : PID) (l n : BTreeNode) : Tree where
  page := Function.update (Function.update T.page p l) q n
  level := Function.update T.level z none
  root := T.root

/-- The leaf `z` is the right neighbour of `p` below `q`. -/
structure Siblings (T : Tree) (p z q : PID) (es : List (Key × Key)) (a b : Key × Key)
    (fs : List (Key × Key)) : Prop where
  parent : T.level q = some 1
  entries : (T.view q).entries = es ++ a :: b :: fs
  left : loadPID a.2 = p
  right : loadPID b.2 = z

/-- A merge of the leaf `z` into `p`. -/
structure MergeStep (T : Tree) (p z q : PID) (es : List (Key × Key)) (a b : Key × Key)
    (fs : List (Key × Key)) (l n : BTreeNode) : Prop extends Siblings T p z q es a b fs where
  node_valid : l.Valid
  node_view : l.view = (T.view p).merge (T.view z)
  parent_valid : n.Valid
  parent_view : n.view = (T.view q).mergeParent es.length b.1 p

namespace Siblings

variable {p z q : PID} {es fs : List (Key × Key)} {a b : Key × Key}

lemma routes (hs : T.Siblings p z q es a b fs) (pid : PID) (hp : pid < 2 ^ 64) :
    ∃ pre post, (T.view q).routes =
        pre ++ ⟨lastBound (T.view q).lower es, a.1, p⟩ :: ⟨a.1, b.1, z⟩ :: post ∧
      ((T.view q).mergeParent es.length b.1 pid).routes =
        pre ++ ⟨lastBound (T.view q).lower es, b.1, pid⟩ :: post := by
  obtain ⟨pre, post, h1, h2⟩ := View.routes_mergeParent hs.entries hp
  rw [hs.left, hs.right] at h1
  exact ⟨pre, post, h1, h2⟩

lemma childOk (hs : T.Siblings p z q es a b fs) (hT : T.Inv) :
    T.ChildOk 0 ⟨lastBound (T.view q).lower es, a.1, p⟩ ∧ T.ChildOk 0 ⟨a.1, b.1, z⟩ := by
  obtain ⟨pre, post, h1, -⟩ := hs.routes 0 (Nat.two_pow_pos 64)
  have hc := hT.child q 0 hs.parent
  rw [h1] at hc
  exact ⟨hc _ (by simp), hc _ (by simp)⟩

lemma ne_nil (hs : T.Siblings p z q es a b fs) (hT : T.Inv) : a.1 ≠ [] :=
  (hT.ok hs.parent).key_ne_nil (hT.inner hs.parent) (by rw [hs.entries]; simp)

lemma neighbours (hs : T.Siblings p z q es a b fs) (hT : T.Inv) :
    (T.view p).Neighbours (T.view z) := by
  obtain ⟨hp, hz⟩ := hs.childOk hT
  refine ⟨hT.isLeaf_of_level hp.1, hT.isLeaf_of_level hz.1, hp.2.2.trans hz.2.1.symm, ?_⟩
  rw [show (T.view p).upper = a.1 from hp.2.2]
  exact hs.ne_nil hT

lemma distinct (hs : T.Siblings p z q es a b fs) (hT : T.Inv) : p ≠ z ∧ p ≠ q ∧ z ≠ q := by
  obtain ⟨hp, hz⟩ := hs.childOk hT
  have hlp : T.level p = some 0 := hp.1
  have hlz : T.level z = some 0 := hz.1
  refine ⟨?_, ?_, ?_⟩
  · rintro rfl
    have hn := hs.neighbours hT
    have hlt := hn.lower_lt (hT.ok hlp)
    rw [hn.fence] at hlt
    exact absurd hlt (lt_irrefl _)
  · rintro rfl
    rw [hs.parent] at hlp
    cases hlp
  · rintro rfl
    rw [hs.parent] at hlz
    cases hlz

end Siblings

namespace MergeStep

variable {p z q : PID} {es fs : List (Key × Key)} {a b : Key × Key} {l n : BTreeNode}

lemma view_node (hs : T.MergeStep p z q es a b fs l n) (hT : T.Inv) :
    (T.mergePages p z q l n).view p = (T.view p).merge (T.view z) := by
  obtain ⟨-, hpq, -⟩ := hs.toSiblings.distinct hT
  have hv : (T.mergePages p z q l n).view p = l.view := by simp [view, mergePages, hpq]
  rw [hv, hs.node_view]

lemma view_parent (hs : T.MergeStep p z q es a b fs l n) :
    (T.mergePages p z q l n).view q = (T.view q).mergeParent es.length b.1 p := by
  have hv : (T.mergePages p z q l n).view q = n.view := by simp [view, mergePages]
  rw [hv, hs.parent_view]

lemma view_other {x : PID} (hp : x ≠ p) (hq : x ≠ q) :
    (T.mergePages p z q l n).view x = T.view x := by
  simp [view, mergePages, hp, hq]

lemma level_eq {x : PID} (hz : x ≠ z) : (T.mergePages p z q l n).level x = T.level x := by
  simp [mergePages, hz]

/-- The pages that are still in the tree were in it before. -/
lemma level_old {x : PID} {k : Nat} (hx : (T.mergePages p z q l n).level x = some k) :
    x ≠ z ∧ T.level x = some k := by
  have hz : x ≠ z := by
    rintro rfl
    simp [mergePages] at hx
  exact ⟨hz, by rwa [level_eq hz] at hx⟩

lemma lower_old (hs : T.MergeStep p z q es a b fs l n) (hT : T.Inv) (x : PID) :
    ((T.mergePages p z q l n).view x).lower = (T.view x).lower := by
  by_cases hp : x = p
  · subst hp
    rw [hs.view_node hT]
    rfl
  · by_cases hq : x = q
    · subst hq
      rw [hs.view_parent]
      rfl
    · rw [view_other hp hq]

lemma upper_old (hs : T.MergeStep p z q es a b fs l n) {x : PID} (hp : x ≠ p) :
    ((T.mergePages p z q l n).view x).upper = (T.view x).upper := by
  by_cases hq : x = q
  · subst hq
    rw [hs.view_parent]
    rfl
  · rw [view_other hp hq]

/-- The merged leaf covers the keys of both leaves. -/
lemma covers_node (hs : T.MergeStep p z q es a b fs l n) (hT : T.Inv) (k : Key) :
    (T.mergePages p z q l n).Covers p k ↔ T.Covers p k ∨ T.Covers z k := by
  obtain ⟨hp, hz⟩ := hs.toSiblings.childOk hT
  have hn := hs.toSiblings.neighbours hT
  have hokp := hT.ok hp.1
  have hokz := hT.ok hz.1
  rw [Covers, hs.view_node hT]
  constructor
  · rintro ⟨h1, h2⟩
    rcases le_or_gt k (T.view p).upper with hle | hlt
    · exact Or.inl ⟨h1, Or.inr hle⟩
    · exact Or.inr ⟨Or.inr (hn.fence ▸ hlt), h2⟩
  · rintro (hk | hk)
    · exact hn.range_left hokz hk
    · exact hn.range_right hokp hk

lemma covers_other (hs : T.MergeStep p z q es a b fs l n) (hT : T.Inv) {x : PID} (hp : x ≠ p)
    (k : Key) : (T.mergePages p z q l n).Covers x k ↔ T.Covers x k := by
  rw [Covers, Covers, hs.lower_old hT, hs.upper_old hp]

theorem inv (hs : T.MergeStep p z q es a b fs l n) (hT : T.Inv) :
    (T.mergePages p z q l n).Inv := by
  obtain ⟨hpz, hpq, hzq⟩ := hs.toSiblings.distinct hT
  obtain ⟨hcp, hcz⟩ := hs.toSiblings.childOk hT
  have hlp : T.level p = some 0 := hcp.1
  have hlz : T.level z = some 0 := hcz.1
  have hpb : p < 2 ^ 64 := lt_trans (hT.bound p 0 hlp).2 (by simp [noNeighbour])
  obtain ⟨pre, post, hroutes, hroutes'⟩ := hs.toSiblings.routes p hpb
  set cp : Route := ⟨lastBound (T.view q).lower es, a.1, p⟩ with hcpd
  set cz : Route := ⟨a.1, b.1, z⟩ with hczd
  have hcpm : cp ∈ (T.view q).routes := by
    rw [hroutes]
    simp
  have hczm : cz ∈ (T.view q).routes := by
    rw [hroutes]
    simp
  have hne : ∀ {x k}, T.level x = some (k + 1) → x ≠ p ∧ x ≠ z := by
    intro x k hx
    constructor
    · rintro rfl
      rw [hlp] at hx
      cases hx
    · rintro rfl
      rw [hlz] at hx
      cases hx
  -- children other than the two leaves
  have hother : ∀ {k c}, T.ChildOk k c → c.pid ≠ p → c.pid ≠ z →
      (T.mergePages p z q l n).ChildOk k c := by
    intro k c hc h1 h2
    exact ⟨(level_eq h2).trans hc.1, (hs.lower_old hT _).trans hc.2.1,
      (hs.upper_old h1).trans hc.2.2⟩
  refine ⟨?_, ?_, ?_, ?_, ?_, ?_, ?_, ?_⟩
  · intro x k hx
    obtain ⟨-, hx'⟩ := level_old hx
    by_cases hq : x = q
    · subst hq
      have hpage : (T.mergePages p z x l n).page x = n := by simp [mergePages]
      rw [hpage]
      exact hs.parent_valid
    · by_cases hp : x = p
      · subst hp
        have hpage : (T.mergePages x z q l n).page x = l := by simp [mergePages, hq]
        rw [hpage]
        exact hs.node_valid
      · have hpage : (T.mergePages p z q l n).page x = T.page x := by simp [mergePages, hp, hq]
        rw [hpage]
        exact hT.valid x k hx'
  · intro x k hx
    obtain ⟨-, hx'⟩ := level_old hx
    by_cases hp : x = p
    · subst hp
      rw [hs.view_node hT]
      exact hT.leaf x k hx'
    · by_cases hq : x = q
      · subst hq
        rw [hs.view_parent]
        exact hT.leaf x k hx'
      · rw [view_other hp hq]
        exact hT.leaf x k hx'
  · intro x k hx
    exact hT.bound x k (level_old hx).2
  · obtain ⟨k, hk, hmax⟩ := hT.root
    have hrz : T.root ≠ z := by
      intro heq
      have hle := hmax q 1 hs.parent
      rw [heq, hlz, Option.some.injEq] at hk
      omega
    exact ⟨k, (level_eq hrz).trans hk, fun x j hx => hmax x j (level_old hx).2⟩
  · obtain ⟨k, hk, hmax⟩ := hT.root
    have hrp : T.root ≠ p := by
      intro heq
      have hle := hmax q 1 hs.parent
      rw [heq, hlp, Option.some.injEq] at hk
      omega
    have hroot : (T.mergePages p z q l n).root = T.root := rfl
    rw [hroot, hs.lower_old hT, hs.upper_old hrp]
    exact hT.rootFences
  · intro x k hx c hcr
    obtain ⟨-, hx'⟩ := level_old hx
    by_cases hq : x = q
    · subst hq
      have hk : k = 0 := by
        rw [hs.parent, Option.some.injEq] at hx'
        omega
      subst hk
      rw [hs.view_parent, hroutes'] at hcr
      have hold : ∀ c ∈ pre ++ post, (T.mergePages p z x l n).ChildOk 0 c := by
        intro c hc
        have h1 := hT.child_once hs.parent hroutes
        have h2 := hT.child_once hs.parent
          (show (T.view x).routes = (pre ++ [cp]) ++ cz :: post by simp [hroutes])
        have hcm : c ∈ (T.view x).routes := by
          rw [hroutes]
          rcases List.mem_append.mp hc with hc | hc
          · exact List.mem_append_left _ hc
          · exact List.mem_append_right _ (List.mem_cons_of_mem _ (List.mem_cons_of_mem _ hc))
        refine hother (hT.child x 0 hs.parent c hcm) (h1 c ?_) (h2 c ?_)
        · rcases List.mem_append.mp hc with hc | hc
          · exact List.mem_append_left _ hc
          · exact List.mem_append_right _ (List.mem_cons_of_mem _ hc)
        · rcases List.mem_append.mp hc with hc | hc
          · exact List.mem_append_left _ (List.mem_append_left _ hc)
          · exact List.mem_append_right _ hc
      rcases List.mem_append.mp hcr with hcr | hcr
      · exact hold c (List.mem_append_left _ hcr)
      · rcases List.mem_cons.mp hcr with rfl | hcr
        · refine ⟨(level_eq hpz).trans hlp, (hs.lower_old hT _).trans hcp.2.1, ?_⟩
          rw [hs.view_node hT]
          exact hcz.2.2
        · exact hold c (List.mem_append_right _ hcr)
    · have hcm : c ∈ (T.view x).routes := by
        rwa [view_other (hne hx').1 hq] at hcr
      have hok := hT.child x k hx' c hcm
      refine hother hok ?_ ?_
      · intro heq
        have hk : k = 0 := by
          have h1 := hok.1
          rw [heq, hlp, Option.some.injEq] at h1
          exact h1.symm
        subst hk
        exact hq (hT.parent_unique hx' hs.parent hcm hcpm heq)
      · intro heq
        have hk : k = 0 := by
          have h1 := hok.1
          rw [heq, hlz, Option.some.injEq] at h1
          exact h1.symm
        subst hk
        exact hq (hT.parent_unique hx' hs.parent hcm hczm heq)
  · intro x y k key hx hy hkx hky
    obtain ⟨hxz, hx'⟩ := level_old hx
    obtain ⟨hyz, hy'⟩ := level_old hy
    have hcase : ∀ {u}, u ≠ p → u ≠ z → T.level u = some k → T.level p = some k →
        T.level z = some k → (T.mergePages p z q l n).Covers p key → T.Covers u key → False := by
      intro u hup huz hu hpk hzk hkp hku
      rcases (hs.covers_node hT key).mp hkp with hc | hc
      · exact hup (hT.disjoint u p k key hu hpk hku hc)
      · exact huz (hT.disjoint u z k key hu hzk hku hc)
    by_cases hxp : x = p
    · by_cases hyp : y = p
      · rw [hxp, hyp]
      · subst hxp
        rw [hs.covers_other hT hyp] at hky
        have hk : T.level z = some k := by rw [hlz, ← hlp, hx']
        exact (hcase hyp hyz hy' hx' hk hkx hky).elim
    · rw [hs.covers_other hT hxp] at hkx
      by_cases hyp : y = p
      · subst hyp
        have hk : T.level z = some k := by rw [hlz, ← hlp, hy']
        exact (hcase hxp hxz hx' hy' hk hky hkx).elim
      · rw [hs.covers_other hT hyp] at hky
        exact hT.disjoint x y k key hx' hy' hkx hky
  · intro x hx
    obtain ⟨hxz, hx'⟩ := level_old hx
    have hxq : x ≠ q := by
      rintro rfl
      rw [hs.parent] at hx'
      cases hx'
    have hn := hs.toSiblings.neighbours hT
    -- no other leaf points to the leaf that is taken out
    have hnot : ∀ y, T.level y = some 0 → y ≠ p → (T.view y).upper ≠ [] →
        (T.view z).lower = (T.view y).upper → False := by
      intro y hy hyp hne' heq
      have hpu : (T.view p).upper = (T.view y).upper := hn.fence.trans heq
      have h1 : T.Covers p (T.view y).upper :=
        ⟨Or.inr (hpu ▸ hn.lower_lt (hT.ok hlp)), Or.inr hpu.ge⟩
      have h2 : T.Covers y (T.view y).upper :=
        ⟨Or.inr ((hT.ok hy).fences.resolve_left hne'), Or.inr le_rfl⟩
      exact hyp (hT.disjoint y p 0 _ hy hlp h2 h1)
    unfold NextOk
    by_cases hp : x = p
    · subst hp
      rw [hs.view_node hT]
      rcases hT.next z hlz with hz | ⟨h1, h2, h3⟩
      · exact Or.inl hz
      · refine Or.inr ⟨h1, ?_, (hs.lower_old hT _).trans h3⟩
        refine (level_eq ?_).trans h2
        intro heq
        change (T.view z).link = z at heq
        rw [heq] at h3
        have hlt := (hT.ok hlz).fences.resolve_left h1
        rw [h3] at hlt
        exact absurd hlt (lt_irrefl _)
    · rw [view_other hp hxq]
      rcases hT.next x hx' with hx'' | ⟨h1, h2, h3⟩
      · exact Or.inl hx''
      · refine Or.inr ⟨h1, ?_, (hs.lower_old hT _).trans h3⟩
        refine (level_eq ?_).trans h2
        intro heq
        rw [heq] at h3
        exact hnot x hx' hp h1 h3

/-- A merge does not change what the tree holds. -/
theorem holds_iff (hs : T.MergeStep p z q es a b fs l n) (hT : T.Inv) (k v : Key) :
    (T.mergePages p z q l n).Holds k v ↔ T.Holds k v := by
  obtain ⟨hpz, hpq, hzq⟩ := hs.toSiblings.distinct hT
  obtain ⟨hcp, hcz⟩ := hs.toSiblings.childOk hT
  have hq0 : T.level q ≠ some 0 := by
    rw [hs.parent]
    simp
  have hmerge : (k, v) ∈ ((T.mergePages p z q l n).view p).entries ↔
      (k, v) ∈ (T.view p).entries ∨ (k, v) ∈ (T.view z).entries := by
    rw [hs.view_node hT]
    simp [View.merge]
  constructor
  · rintro ⟨x, hx, hmem⟩
    obtain ⟨hxz, hx'⟩ := level_old hx
    by_cases hp : x = p
    · rw [hp] at hmem
      rcases hmerge.mp hmem with hmem | hmem
      · exact ⟨p, hcp.1, hmem⟩
      · exact ⟨z, hcz.1, hmem⟩
    · have hq : x ≠ q := by
        rintro rfl
        exact hq0 hx'
      rw [view_other hp hq] at hmem
      exact ⟨x, hx', hmem⟩
  · rintro ⟨x, hx, hmem⟩
    by_cases hp : x = p
    · rw [hp] at hmem
      exact ⟨p, (level_eq hpz).trans hcp.1, hmerge.mpr (Or.inl hmem)⟩
    · by_cases hz : x = z
      · rw [hz] at hmem
        exact ⟨p, (level_eq hpz).trans hcp.1, hmerge.mpr (Or.inr hmem)⟩
      · have hq : x ≠ q := by
          rintro rfl
          exact hq0 hx
        exact ⟨x, (level_eq hz).trans hx, by rwa [view_other hp hq]⟩

end MergeStep

end Tree

end MemSafeDB
