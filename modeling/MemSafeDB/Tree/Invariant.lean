import MemSafeDB.BTree.Merge

/-!
# The pages of a tree

A tree is a set of pages, each with its height above the leaves. The invariant is local: every
page is valid, the children of an inner node are responsible for the intervals between its
separators, two pages of one height have disjoint intervals, and every leaf points to the leaf
that begins where it ends. Splits, merges, new roots and changes of a leaf keep it.
-/

namespace MemSafeDB
open Lib

structure Tree where
  page : PID → BTreeNode
  /-- height above the leaves, for the pages that belong to the tree -/
  level : PID → Option Nat
  root : PID

namespace Tree

def view (T : Tree) (p : PID) : View := (T.page p).view

/-- The key lies in the interval of the page. -/
def Covers (T : Tree) (p : PID) (k : Key) : Prop := InRange (T.view p).lower (T.view p).upper k

/-- The page of a child is responsible for the interval of the child. -/
def ChildOk (T : Tree) (l : Nat) (r : Route) : Prop :=
  T.level r.pid = some l ∧ (T.view r.pid).lower = r.lower ∧ (T.view r.pid).upper = r.upper

/-- A leaf points to the leaf that begins where it ends. -/
def NextOk (T : Tree) (p : PID) : Prop :=
  ((T.view p).upper = [] ∧ (T.view p).link = noNeighbour) ∨
    ((T.view p).upper ≠ [] ∧ T.level (T.view p).link = some 0 ∧
      (T.view (T.view p).link).lower = (T.view p).upper)

structure Inv (T : Tree) : Prop where
  valid : ∀ p l, T.level p = some l → (T.page p).Valid
  leaf : ∀ p l, T.level p = some l → (T.view p).isLeaf = decide (l = 0)
  bound : ∀ p l, T.level p = some l → 0 < p ∧ p < noNeighbour
  root : ∃ l, T.level T.root = some l ∧ ∀ p m, T.level p = some m → m ≤ l
  rootFences : (T.view T.root).lower = [] ∧ (T.view T.root).upper = []
  child : ∀ p l, T.level p = some (l + 1) → ∀ r ∈ (T.view p).routes, T.ChildOk l r
  disjoint : ∀ p q l k, T.level p = some l → T.level q = some l → T.Covers p k → T.Covers q k →
    p = q
  next : ∀ p, T.level p = some 0 → T.NextOk p

/-- The entry is stored in a leaf of the tree. -/
def Holds (T : Tree) (k v : Key) : Prop := ∃ p, T.level p = some 0 ∧ (k, v) ∈ (T.view p).entries

lemma succ_le_of_lt {xs ys : Key} (h : xs < ys) : xs ++ [0] ≤ ys := by
  induction xs generalizing ys with
  | nil =>
    cases ys with
    | nil => exact absurd h (lt_irrefl _)
    | cons y ys =>
      rw [List.nil_append, ← not_lt, List.cons_lt_cons_iff]
      rintro (hlt | ⟨-, hlt⟩)
      · exact absurd hlt (Fin.not_lt_zero y)
      · exact List.not_lt_nil _ hlt
  | cons x xs ih =>
    cases ys with
    | nil => exact absurd h (List.not_lt_nil _)
    | cons y ys =>
      rw [List.cons_append, ← not_lt, List.cons_lt_cons_iff]
      rcases List.cons_lt_cons_iff.mp h with hlt | ⟨rfl, hlt⟩
      · rintro (hlt' | ⟨rfl, -⟩)
        · exact absurd (hlt.trans hlt') (lt_irrefl _)
        · exact absurd hlt (lt_irrefl _)
      · rintro (hlt' | ⟨-, hlt'⟩)
        · exact absurd hlt' (lt_irrefl _)
        · exact absurd (ih hlt) (not_le.mpr hlt')

/-- Every interval contains the key right behind its lower fence. -/
lemma inRange_succ {lower upper : Key} (h : FencesOrdered lower upper) :
    InRange lower upper (lower ++ [0]) :=
  ⟨Or.inr (lt_append_of_ne_nil lower (by simp)), h.imp_right succ_le_of_lt⟩

namespace Inv

variable {T : Tree} (hT : T.Inv)
include hT

lemma ok {p : PID} {l : Nat} (hp : T.level p = some l) : (T.view p).Ok := (hT.valid p l hp).ok

lemma inner {p : PID} {l : Nat} (hp : T.level p = some (l + 1)) : (T.view p).isLeaf = false := by
  rw [hT.leaf p _ hp]
  simp

lemma isLeaf_of_level {p : PID} (hp : T.level p = some 0) : (T.view p).isLeaf = true := by
  rw [hT.leaf p _ hp]
  simp

lemma level_of_isLeaf {p : PID} {l : Nat} (hp : T.level p = some l)
    (h : (T.view p).isLeaf = true) : l = 0 := by
  rw [hT.leaf p _ hp] at h
  simpa using h

lemma covers_root (k : Key) : T.Covers T.root k :=
  ⟨Or.inl hT.rootFences.1, Or.inl hT.rootFences.2⟩

/-- A page covers a key of its own. -/
lemma covers_succ {p : PID} {l : Nat} (hp : T.level p = some l) :
    T.Covers p ((T.view p).lower ++ [0]) :=
  inRange_succ (hT.ok hp).fences

/-- A search for a covered key descends to a child that covers it. -/
lemma childFor {p : PID} {l : Nat} (hp : T.level p = some (l + 1)) {k : Key} (hk : T.Covers p k) :
    T.level ((T.view p).childFor k) = some l ∧ T.Covers ((T.view p).childFor k) k := by
  obtain ⟨r, hr, hpid, hrange⟩ := (hT.ok hp).route_childFor hk
  obtain ⟨hl, hlow, hup⟩ := hT.child p l hp r hr
  rw [hpid] at hl hlow hup
  exact ⟨hl, by rw [Covers, hlow, hup]; exact hrange⟩

/-- A child covers keys of its parent only. -/
lemma covers_parent {p : PID} {l : Nat} (hp : T.level p = some (l + 1)) {r : Route}
    (hr : r ∈ (T.view p).routes) {k : Key} (hk : T.Covers r.pid k) : T.Covers p k := by
  obtain ⟨-, hlow, hup⟩ := hT.child p l hp r hr
  rw [Covers, hlow, hup] at hk
  exact (hT.ok hp).route_subset (hT.inner hp) hr hk

/-- A page has at most one parent. -/
lemma parent_unique {p q : PID} {l : Nat} (hp : T.level p = some (l + 1))
    (hq : T.level q = some (l + 1)) {r s : Route} (hr : r ∈ (T.view p).routes)
    (hs : s ∈ (T.view q).routes) (h : r.pid = s.pid) : p = q := by
  have hc := hT.covers_succ (hT.child p l hp r hr).1
  have h1 := hT.covers_parent hp hr hc
  rw [h] at hc
  have h2 := hT.covers_parent hq hs hc
  rw [h] at h1
  exact hT.disjoint p q (l + 1) _ hp hq h1 h2

/-- A page is a child of its parent only once. -/
lemma child_once {p : PID} {l : Nat} (hp : T.level p = some (l + 1)) {pre post : List Route}
    {c : Route} (h : (T.view p).routes = pre ++ c :: post) :
    ∀ r ∈ pre ++ post, r.pid ≠ c.pid := by
  intro r hr heq
  have hmem : ∀ s ∈ pre ++ c :: post, T.ChildOk l s := h ▸ hT.child p l hp
  have hrm : r ∈ pre ++ c :: post := by
    rcases List.mem_append.mp hr with hr | hr
    · exact List.mem_append_left _ hr
    · exact List.mem_append_right _ (List.mem_cons_of_mem _ hr)
  obtain ⟨hlc, hlow, hup⟩ := hmem c (by simp)
  obtain ⟨-, hlow', hup'⟩ := hmem r hrm
  rw [heq] at hlow' hup'
  have hl : r.lower = c.lower := hlow'.symm.trans hlow
  have hu : r.upper = c.upper := hup'.symm.trans hup
  have hf := (hT.ok hlc).fences
  rw [hlow, hup] at hf
  have hpw := (hT.ok hp).routes_pairwise (hT.inner hp)
  rw [h, List.pairwise_append] at hpw
  have hself : ¬(c.upper ≠ [] ∧ c.upper ≤ c.lower) := by
    rintro ⟨hne, hle⟩
    exact absurd (hf.resolve_left hne) (not_lt.mpr hle)
  rcases List.mem_append.mp hr with hr | hr
  · have hb := hpw.2.2 r hr c (List.mem_cons_self ..)
    rw [Route.Before, hu] at hb
    exact hself hb
  · have hb := (List.pairwise_cons.mp hpw.2.1).1 r hr
    rw [Route.Before, hl] at hb
    exact hself hb

/-- Every key is covered on every height. -/
lemma covered (k : Key) {l : Nat} (hl : T.level T.root = some l) (m : Nat) (hm : m ≤ l) :
    ∃ p, T.level p = some m ∧ T.Covers p k := by
  induction hd : l - m generalizing m with
  | zero =>
    have hml : m = l := by omega
    subst hml
    exact ⟨T.root, hl, hT.covers_root k⟩
  | succ d ih =>
    obtain ⟨p, hp, hk⟩ := ih (m + 1) (by omega) (by omega)
    obtain ⟨h1, h2⟩ := hT.childFor hp hk
    exact ⟨_, h1, h2⟩

/-! ### Contents -/

lemma covers_of_mem {p : PID} {l : Nat} (hp : T.level p = some l) {k v : Key}
    (h : (k, v) ∈ (T.view p).entries) : T.Covers p k :=
  (hT.ok hp).entry_inRange h

/-- What the tree holds of a key is what the leaf that covers the key holds of it. -/
lemma holds_iff {p : PID} (hp : T.level p = some 0) {k : Key} (hk : T.Covers p k) (v : Key) :
    T.Holds k v ↔ (k, v) ∈ (T.view p).entries := by
  constructor
  · rintro ⟨q, hq, hmem⟩
    have hpq := hT.disjoint p q 0 k hp hq hk (hT.covers_of_mem hq hmem)
    rwa [hpq]
  · intro hmem
    exact ⟨p, hp, hmem⟩

/-- A key is held with one payload only. -/
lemma holds_unique {k v w : Key} (hv : T.Holds k v) (hw : T.Holds k w) : v = w := by
  obtain ⟨p, hp, hmem⟩ := hv
  have hmem' := (hT.holds_iff hp (hT.covers_of_mem hp hmem) w).mp hw
  exact (hT.ok hp).payload_unique hmem hmem'

end Inv

end Tree

end MemSafeDB
