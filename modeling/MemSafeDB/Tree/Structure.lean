import Mathlib.Data.List.Nodup
import MemSafeDB.Lib.Chain
import MemSafeDB.Lib.Tiling
import MemSafeDB.Tree.Invariant

/-!
# The whole tree

What the local invariant says about the pages that can be reached from the root: the children of
a node tile its interval, all leaves have the same depth, every page is reached on one path only,
and the chain of `nextLeafNode` goes through all leaves in the order of their keys.
-/

namespace MemSafeDB
open Lib

/-- The children of an inner node, in slot order and ending with `upperInnerNode`. -/
def BTreeNode.children (n : BTreeNode) : List PID := (List.range n.count).map n.getChild ++ [n.link]

namespace Tree

variable {T : Tree} {p q c : PID} {l m : Nat} {k : Key} {path path' : List Nat}

/-! ## Structure -/

/-- The page that a path of slots leads to. -/
def follow (T : Tree) : PID → List Nat → Option PID
  | p, [] => some p
  | p, i :: path =>
    if (T.page p).isLeaf then none
    else (T.page p).children[i]?.bind (fun c => T.follow c path)

def Reachable (T : Tree) (p : PID) : Prop := ∃ path, T.follow T.root path = some p

/-- The separators cut the interval of the node into those of its children. -/
structure Tiled (T : Tree) (p : PID) : Prop where
  lowers : (T.page p).children.map (fun c => (T.page c).getLowerFence) =
    (T.page p).getLowerFence :: (T.page p).keys
  uppers : (T.page p).children.map (fun c => (T.page c).getUpperFence) =
    (T.page p).keys ++ [(T.page p).getUpperFence]
  sorted : StrictSorted (T.page p).keys
  inside : ∀ k ∈ (T.page p).keys, k ≠ [] ∧
    ((T.page p).getLowerFence = [] ∨ (T.page p).getLowerFence < k) ∧
    ((T.page p).getUpperFence = [] ∨ k < (T.page p).getUpperFence)

/-- The link of a leaf, as that of a cell of a linked list. -/
def nextLeaf (T : Tree) (p : PID) : Option (Option PID) :=
  some (if (T.page p).link = noNeighbour then none else some (T.page p).link)

/-- The leaf ends where or before the other one begins. -/
def LeafBefore (T : Tree) (p q : PID) : Prop :=
  (T.page p).getUpperFence ≠ [] ∧ (T.page p).getUpperFence ≤ (T.page q).getLowerFence

/-- The chain of the leaves. -/
structure LeafChain (T : Tree) (leaves : List PID) : Prop where
  /-- it begins with the leftmost leaf -/
  first : ∃ d, leaves.head? = T.follow T.root (List.replicate d 0)
  mem : ∀ p, p ∈ leaves ↔ T.Reachable p ∧ (T.page p).isLeaf = true
  linked : Linked T.nextLeaf leaves
  ordered : leaves.Pairwise T.LeafBefore
  nodup : leaves.Nodup

/-- The structure of the tree, in terms of its pages only. -/
structure Structured (T : Tree) : Prop where
  edges : (T.page T.root).getLowerFence = [] ∧ (T.page T.root).getUpperFence = []
  tiled : ∀ p, T.Reachable p → (T.page p).isLeaf = false → T.Tiled p
  depth : ∃ d, ∀ path p, T.follow T.root path = some p →
    ((T.page p).isLeaf = true ↔ path.length = d)
  once : ∀ path path' p, T.follow T.root path = some p → T.follow T.root path' = some p →
    path = path'
  chain : ∃ leaves, T.LeafChain leaves

/-! ## Children -/

lemma map_pid_slotRoutes (lower : Key) (es : List (Key × Key)) :
    (slotRoutes lower es).map Route.pid = es.map (fun e => loadPID e.2) := by
  induction es generalizing lower with
  | nil => rfl
  | cons e es ih => simp [slotRoutes, ih]

lemma map_upper_slotRoutes (lower : Key) (es : List (Key × Key)) :
    (slotRoutes lower es).map Route.upper = es.map Prod.fst := by
  induction es generalizing lower with
  | nil => rfl
  | cons e es ih => simp [slotRoutes, ih]

lemma map_lower_slotRoutes (lower : Key) (es : List (Key × Key)) :
    (slotRoutes lower es).map Route.lower ++ [lastBound lower es] = lower :: es.map Prod.fst := by
  induction es generalizing lower with
  | nil => rfl
  | cons e es ih => simp [slotRoutes, lastBound, ih]

lemma slotRoutes_tiling {lower upper : Key} {link : PID} {es : List (Key × Key)}
    (hne : ∀ e ∈ es, e.1 ≠ []) : Tiling Route.lower Route.upper (· ≠ []) lower upper
      (slotRoutes lower es ++ [Route.mk (lastBound lower es) upper link]) := by
  induction es generalizing lower with
  | nil => exact Tiling.single rfl rfl
  | cons e es ih =>
    exact ⟨rfl, Or.inr ⟨hne e List.mem_cons_self, ih (fun f hf => hne f (List.mem_cons_of_mem e hf))⟩⟩

namespace Inv

variable (hT : T.Inv)
include hT

lemma children_eq (hp : T.level p = some (l + 1)) :
    (T.page p).children = (T.view p).routes.map Route.pid := by
  have hvalid := hT.valid p _ hp
  have hleaf : (T.page p).isLeaf = false := hT.inner hp
  rw [View.routes, List.map_append, map_pid_slotRoutes, BTreeNode.children]
  refine congrArg (· ++ [(T.page p).link]) ?_
  refine List.ext_getElem (by simp [view]) ?_
  intro i h1 h2
  have hi : i < (T.page p).count := by simpa using h1
  have hent : i < (T.view p).entries.length := by simpa [view] using hi
  have hget : (T.view p).entries[i] = _ := BTreeNode.getElem_entries hent
  simp only [List.getElem_map, List.getElem_range, hget]
  exact (hvalid.getChild_eq hleaf hi).1

/-- The children have the fences that the separators give them. -/
lemma childOk_of_mem (hp : T.level p = some (l + 1)) (hc : c ∈ (T.page p).children) :
    ∃ r ∈ (T.view p).routes, r.pid = c ∧ T.ChildOk l r := by
  rw [hT.children_eq hp] at hc
  obtain ⟨r, hr, rfl⟩ := List.mem_map.mp hc
  exact ⟨r, hr, rfl, hT.child p l hp r hr⟩

lemma level_of_mem (hp : T.level p = some (l + 1)) (hc : c ∈ (T.page p).children) :
    T.level c = some l := by
  obtain ⟨r, -, rfl, hok⟩ := hT.childOk_of_mem hp hc
  exact hok.1

theorem tiled (hp : T.level p = some (l + 1)) : T.Tiled p := by
  have hok := hT.ok hp
  have hkeys : (T.page p).keys = (T.view p).entries.map Prod.fst := (T.page p).keys_eq
  have hlowers : (T.view p).routes.map ((fun c => (T.page c).getLowerFence) ∘ Route.pid) =
      (T.view p).routes.map Route.lower :=
    List.map_congr_left (fun r hr => (hT.child p l hp r hr).2.1)
  have huppers : (T.view p).routes.map ((fun c => (T.page c).getUpperFence) ∘ Route.pid) =
      (T.view p).routes.map Route.upper :=
    List.map_congr_left (fun r hr => (hT.child p l hp r hr).2.2)
  refine ⟨?_, ?_, hkeys ▸ hok.sorted, ?_⟩
  · rw [hT.children_eq hp, List.map_map, hlowers, hkeys, View.routes, List.map_append]
    exact map_lower_slotRoutes _ _
  · rw [hT.children_eq hp, List.map_map, huppers, hkeys, View.routes, List.map_append,
      map_upper_slotRoutes]
    rfl
  · intro k hk
    rw [hkeys] at hk
    obtain ⟨hrange, hstrict⟩ := hok.admits k hk
    obtain ⟨e, he, rfl⟩ := List.mem_map.mp hk
    exact ⟨hok.key_ne_nil (hT.inner hp) he, hrange.1, hstrict (hT.inner hp)⟩

/-- The children of a node tile its interval. -/
lemma children_tiling (hp : T.level p = some (l + 1)) :
    Tiling Route.lower Route.upper (· ≠ []) (T.view p).lower (T.view p).upper (T.view p).routes :=
  slotRoutes_tiling (fun _ he => (hT.ok hp).key_ne_nil (hT.inner hp) he)

/-! ### Paths -/

lemma follow_cons (hp : T.level p = some (l + 1)) (i : Nat) (path : List Nat) :
    T.follow p (i :: path) = (T.page p).children[i]?.bind (fun c => T.follow c path) := by
  have hleaf : (T.page p).isLeaf = false := hT.inner hp
  rw [follow, hleaf]
  rfl

lemma follow_leaf (hp : T.level p = some 0) (i : Nat) (path : List Nat) :
    T.follow p (i :: path) = none := by
  have hleaf : (T.page p).isLeaf = true := hT.isLeaf_of_level hp
  rw [follow, hleaf]
  rfl

/-- A path leads down by its length and stays in the interval of the page. -/
lemma follow_some (hp : T.level p = some l) (h : T.follow p path = some q) :
    (∃ m, l = m + path.length ∧ T.level q = some m) ∧ ∀ k, T.Covers q k → T.Covers p k := by
  induction path generalizing p l with
  | nil =>
    obtain rfl := Option.some.inj h
    exact ⟨⟨l, rfl, hp⟩, fun _ hk => hk⟩
  | cons i path ih =>
    cases l with
    | zero =>
      rw [hT.follow_leaf hp] at h
      cases h
    | succ l =>
      rw [hT.follow_cons hp] at h
      obtain ⟨c, hc, hq⟩ := Option.bind_eq_some_iff.mp h
      obtain ⟨r, hr, rfl, hok⟩ := hT.childOk_of_mem hp (List.mem_of_getElem? hc)
      obtain ⟨⟨m, hm, hlevel⟩, hcovers⟩ := ih hok.1 hq
      refine ⟨⟨m, ?_, hlevel⟩, fun k hk => hT.covers_parent hp hr (hcovers k hk)⟩
      rw [List.length_cons, hm]
      omega

/-- A path leads to every page that covers a key of the page, on every height below it. -/
lemma exists_follow (hp : T.level p = some l) (hk : T.Covers p k) (hm : m ≤ l)
    (hq : T.level q = some m) (hqk : T.Covers q k) : ∃ path, T.follow p path = some q := by
  induction l generalizing p with
  | zero =>
    obtain rfl := Nat.le_zero.mp hm
    exact ⟨[], congrArg some (hT.disjoint p q 0 k hp hq hk hqk)⟩
  | succ l ih =>
    rcases Nat.of_le_succ hm with hle | rfl
    · obtain ⟨hc, hck⟩ := hT.childFor hp hk
      obtain ⟨path, hpath⟩ := ih hc hck hle
      obtain ⟨r, hr, hpid, -⟩ := (hT.ok hp).route_childFor hk
      have hmem : (T.view p).childFor k ∈ (T.page p).children := by
        rw [hT.children_eq hp, ← hpid]
        exact List.mem_map_of_mem hr
      obtain ⟨i, hi⟩ := List.getElem?_of_mem hmem
      refine ⟨i :: path, ?_⟩
      rw [hT.follow_cons hp, hi]
      exact hpath
    · exact ⟨[], congrArg some (hT.disjoint p q (l + 1) k hp hq hk hqk)⟩

lemma reachable_iff (p : PID) : T.Reachable p ↔ ∃ l, T.level p = some l := by
  obtain ⟨l, hl, hmax⟩ := hT.root
  constructor
  · rintro ⟨path, hpath⟩
    obtain ⟨⟨m, -, hm⟩, -⟩ := hT.follow_some hl hpath
    exact ⟨m, hm⟩
  · rintro ⟨m, hm⟩
    exact hT.exists_follow hl (hT.covers_root _) (hmax p m hm) hm (hT.covers_succ hm)

/-- The children of a node are different pages. -/
lemma children_nodup (hp : T.level p = some (l + 1)) : (T.page p).children.Nodup := by
  rw [hT.children_eq hp, List.nodup_iff_pairwise_ne, List.pairwise_map]
  refine List.Pairwise.imp_of_mem ?_ ((hT.ok hp).routes_pairwise (hT.inner hp))
  rintro r s hr hs ⟨hne, hle⟩ heq
  obtain ⟨hlevel, hlow, hup⟩ := hT.child p l hp r hr
  obtain ⟨-, hlow', -⟩ := hT.child p l hp s hs
  rw [← heq, hlow] at hlow'
  have hlt := (hT.ok hlevel).fences
  rw [hlow, hup] at hlt
  exact absurd (hlt.resolve_left hne) (not_lt.mpr (hlow' ▸ hle))

/-- Different paths lead to different pages. -/
lemma follow_inj (hp : T.level p = some l) (h : T.follow p path = some q)
    (h' : T.follow p path' = some q) : path = path' := by
  obtain ⟨⟨m, hm, hq⟩, -⟩ := hT.follow_some hp h
  obtain ⟨⟨m', hm', hq'⟩, -⟩ := hT.follow_some hp h'
  obtain rfl : m = m' := Option.some.inj (hq.symm.trans hq')
  induction path generalizing p l path' with
  | nil =>
    cases path' with
    | nil => rfl
    | cons j path' =>
      simp only [List.length_cons, List.length_nil] at hm hm'
      omega
  | cons i path ih =>
    cases path' with
    | nil =>
      simp only [List.length_cons, List.length_nil] at hm hm'
      omega
    | cons j path' =>
      obtain ⟨l, rfl⟩ : ∃ n, l = n + 1 := ⟨m + path.length, hm⟩
      rw [hT.follow_cons hp] at h h'
      obtain ⟨c, hc, hcq⟩ := Option.bind_eq_some_iff.mp h
      obtain ⟨d, hd, hdq⟩ := Option.bind_eq_some_iff.mp h'
      have hlc := hT.level_of_mem hp (List.mem_of_getElem? hc)
      have hld := hT.level_of_mem hp (List.mem_of_getElem? hd)
      have hkey := hT.covers_succ hq
      obtain rfl : c = d := hT.disjoint c d l _ hlc hld
        ((hT.follow_some hlc hcq).2 _ hkey) ((hT.follow_some hld hdq).2 _ hkey)
      obtain ⟨hi, hic⟩ := List.getElem?_eq_some_iff.mp hc
      obtain ⟨hj, hjc⟩ := List.getElem?_eq_some_iff.mp hd
      obtain rfl : i = j :=
        (List.Nodup.getElem_inj_iff (hT.children_nodup hp)).mp (hic.trans hjc.symm)
      simp only [List.length_cons] at hm hm'
      rw [ih hlc hcq hdq (by omega) (by omega)]

end Inv

/-! ## Leaves -/

/-- The leaves below a page of some height, in the order of the slots. -/
def leavesBelow (T : Tree) : Nat → PID → List PID
  | 0, p => [p]
  | h + 1, p => (T.page p).children.flatMap (T.leavesBelow h)

/-- All leaves of the tree, from the lowest keys to the highest ones. -/
structure Row (T : Tree) (leaves : List PID) : Prop where
  mem : ∀ p, p ∈ leaves ↔ T.level p = some 0
  tiling : Tiling (fun p => (T.view p).lower) (fun p => (T.view p).upper) (· ≠ []) [] [] leaves

namespace Inv

variable (hT : T.Inv)
include hT

lemma leavesBelow_tiling (hp : T.level p = some l) :
    Tiling (fun p => (T.view p).lower) (fun p => (T.view p).upper) (· ≠ []) (T.view p).lower
      (T.view p).upper (T.leavesBelow l p) := by
  induction l generalizing p with
  | zero => exact Tiling.single rfl rfl
  | succ l ih =>
    rw [leavesBelow, hT.children_eq hp, List.flatMap_map]
    refine (hT.children_tiling hp).flatMap (fun r hr => ?_)
    obtain ⟨hlevel, hlow, hup⟩ := hT.child p l hp r hr
    rw [← hlow, ← hup]
    exact ih hlevel

lemma mem_leavesBelow (hp : T.level p = some l) :
    q ∈ T.leavesBelow l p ↔ T.level q = some 0 ∧ ∃ path, T.follow p path = some q := by
  induction l generalizing p with
  | zero =>
    rw [leavesBelow, List.mem_singleton]
    constructor
    · rintro rfl
      exact ⟨hp, [], rfl⟩
    · rintro ⟨-, path, hpath⟩
      cases path with
      | nil => exact (Option.some.inj hpath).symm
      | cons i path =>
        rw [hT.follow_leaf hp] at hpath
        cases hpath
  | succ l ih =>
    rw [leavesBelow, List.mem_flatMap]
    constructor
    · rintro ⟨c, hc, hq⟩
      obtain ⟨hlevel, path, hpath⟩ := (ih (hT.level_of_mem hp hc)).mp hq
      obtain ⟨i, hi⟩ := List.getElem?_of_mem hc
      refine ⟨hlevel, i :: path, ?_⟩
      rw [hT.follow_cons hp, hi]
      exact hpath
    · rintro ⟨hlevel, path, hpath⟩
      cases path with
      | nil =>
        obtain rfl := Option.some.inj hpath
        rw [hp] at hlevel
        cases hlevel
      | cons i path =>
        rw [hT.follow_cons hp] at hpath
        obtain ⟨c, hc, hq⟩ := Option.bind_eq_some_iff.mp hpath
        have hmem := List.mem_of_getElem? hc
        exact ⟨c, hmem, (ih (hT.level_of_mem hp hmem)).mpr ⟨hlevel, path, hq⟩⟩

/-- The first leaf is found behind the first slots. -/
lemma head_leavesBelow (hp : T.level p = some l) :
    (T.leavesBelow l p).head? = T.follow p (List.replicate l 0) := by
  induction l generalizing p with
  | zero => rfl
  | succ l ih =>
    rw [leavesBelow, List.replicate_succ, hT.follow_cons hp]
    cases hc : (T.page p).children with
    | nil => simp [BTreeNode.children] at hc
    | cons c cs =>
      have hlevel := hT.level_of_mem hp (hc ▸ List.mem_cons_self : c ∈ (T.page p).children)
      have hne := (hT.leavesBelow_tiling hlevel).ne_nil
      rw [List.flatMap_cons, List.head?_append_of_ne_nil _ hne]
      exact ih hlevel

lemma row_leavesBelow (hl : T.level T.root = some l) : T.Row (T.leavesBelow l T.root) := by
  refine ⟨fun p => ?_, ?_⟩
  · rw [hT.mem_leavesBelow hl]
    exact ⟨And.left, fun hp => ⟨hp, (hT.reachable_iff p).mpr ⟨0, hp⟩⟩⟩
  · have htiling := hT.leavesBelow_tiling hl
    rwa [hT.rootFences.1, hT.rootFences.2] at htiling

end Inv

namespace Row

variable {leaves as bs : List PID} (h : T.Row leaves) (hT : T.Inv)
include h hT

lemma pairwise : leaves.Pairwise T.LeafBefore :=
  h.tiling.pairwise (fun p hp hne => (hT.ok ((h.mem p).mp hp)).fences.resolve_left hne)

lemma nodup : leaves.Nodup := by
  refine List.Pairwise.imp_of_mem ?_ (h.pairwise hT)
  rintro p q hp - ⟨hne, hle⟩ rfl
  have hlt := (hT.ok ((h.mem p).mp hp)).fences.resolve_left hne
  exact absurd hlt (not_lt.mpr hle)

omit hT in
lemma mem_split (heq : leaves = as ++ p :: bs) : T.level p = some 0 :=
  (h.mem p).mp (by rw [heq]; simp)

/-- The link of a leaf leads to the next one. -/
lemma link_eq (heq : leaves = as ++ p :: bs) :
    (bs = [] ∧ (T.view p).upper = [] ∧ (T.view p).link = noNeighbour) ∨
      ∃ cs, bs = (T.view p).link :: cs ∧ (T.view p).link ≠ noNeighbour := by
  have hp := h.mem_split heq
  have htiling := h.tiling
  rw [heq] at htiling
  rcases htiling.behind with ⟨rfl, hup⟩ | ⟨q, cs, rfl, hproper, hq⟩
  · rcases hT.next p hp with hend | ⟨hne, -⟩
    · exact Or.inl ⟨rfl, hend⟩
    · exact absurd hup hne
  · obtain ⟨-, hlevel, hlower⟩ := (hT.next p hp).resolve_left (fun hend => hproper hend.1)
    have hlq : T.level q = some 0 := (h.mem q).mp (by rw [heq]; simp)
    have hcovers := hT.covers_succ hlevel
    have hcovers' := hT.covers_succ hlq
    rw [hlower, ← hq] at hcovers
    obtain hlink := hT.disjoint _ q 0 _ hlevel hlq hcovers hcovers'
    refine Or.inr ⟨cs, by rw [hlink], ?_⟩
    exact ((hT.bound _ 0 hlevel).2).ne

lemma linked : Linked T.nextLeaf leaves := by
  have hsuffix : ∀ as bs, leaves = as ++ bs → Linked T.nextLeaf bs := by
    intro as bs heq
    induction bs generalizing as with
    | nil => trivial
    | cons p bs ih =>
      refine ⟨?_, ih (as ++ [p]) (by rw [heq]; simp)⟩
      rcases h.link_eq hT heq with ⟨rfl, -, hlink⟩ | ⟨cs, rfl, hlink⟩
      · exact congrArg some (if_pos hlink)
      · exact congrArg some (if_neg hlink)
  exact hsuffix [] leaves rfl

end Row

/-- The local invariant gives the structure of the whole tree. -/
theorem Inv.structured (hT : T.Inv) : T.Structured := by
  obtain ⟨l, hl, -⟩ := hT.root
  have hrow := hT.row_leavesBelow hl
  refine ⟨hT.rootFences, ?_, ⟨l, ?_⟩, fun path path' p => hT.follow_inj hl,
    T.leavesBelow l T.root, ⟨l, hT.head_leavesBelow hl⟩, ?_, hrow.linked hT, hrow.pairwise hT,
    hrow.nodup hT⟩
  · intro p hp hleaf
    obtain ⟨m, hm⟩ := (hT.reachable_iff p).mp hp
    cases m with
    | zero =>
      have hpage : (T.page p).isLeaf = true := hT.isLeaf_of_level hm
      rw [hpage] at hleaf
      cases hleaf
    | succ m => exact hT.tiled hm
  · intro path p hpath
    obtain ⟨⟨m, hm, hlevel⟩, -⟩ := hT.follow_some hl hpath
    have hleaf : (T.page p).isLeaf = decide (m = 0) := hT.leaf p m hlevel
    rw [hleaf, decide_eq_true_iff]
    omega
  · intro p
    rw [hrow.mem, hT.reachable_iff]
    constructor
    · intro hp
      exact ⟨⟨0, hp⟩, hT.isLeaf_of_level hp⟩
    · rintro ⟨⟨m, hm⟩, hleaf⟩
      rwa [← hT.level_of_isLeaf hm hleaf]

end Tree

end MemSafeDB
