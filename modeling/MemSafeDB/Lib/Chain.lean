import Mathlib.Data.List.Pairwise
import Mathlib.Logic.Function.Basic
import Mathlib.Order.Fin.Basic
import Mathlib.Tactic.Common

/-!
# Linked lists in a heap

A link of a cell is unset, null, or leads to another cell. A list of cells is linked when the
link of each cell leads to the next one and the link of the last is null. When the ranks of the
cells ascend along the list, the link of a cell leads to the next higher rank on it.
-/

namespace Lib

variable {ν κ : Type}

/-- The links lead through the cells in this order and end with null. -/
def Linked (next : ν → Option (Option ν)) : List ν → Prop
  | [] => True
  | x :: xs => next x = some xs.head? ∧ Linked next xs

namespace Linked

variable {next next' : ν → Option (Option ν)}

lemma append {as bs : List ν} (h : Linked next (as ++ bs)) : Linked next bs := by
  induction as with
  | nil => exact h
  | cons a as ih => exact ih h.2

lemma next_eq {as bs : List ν} {x : ν} (h : Linked next (as ++ x :: bs)) :
    next x = some bs.head? :=
  h.append.1

/-- The cells behind a cell are determined by the links. -/
lemma unique {x : ν} {xs ys : List ν} (hx : Linked next (x :: xs)) (hy : Linked next (x :: ys)) :
    xs = ys := by
  induction xs generalizing x ys with
  | nil =>
    have heq := hx.1.symm.trans hy.1
    cases ys with
    | nil => rfl
    | cons y ys => simp at heq
  | cons x' xs ih =>
    have heq := hx.1.symm.trans hy.1
    cases ys with
    | nil => simp at heq
    | cons y ys =>
      simp only [List.head?_cons, Option.some.injEq] at heq
      subst heq
      rw [ih hx.2 hy.2]

lemma congr {xs : List ν} (h : Linked next xs) (heq : ∀ x ∈ xs, next' x = next x) :
    Linked next' xs := by
  induction xs with
  | nil => exact h
  | cons x xs ih =>
    refine ⟨?_, ih h.2 (fun y hy => heq y (List.mem_cons_of_mem x hy))⟩
    rw [heq x List.mem_cons_self]
    exact h.1

/-- A cell whose link has been set to the successor of `p` is linked in behind `p`. -/
lemma insert [DecidableEq ν] {as bs : List ν} {p x : ν} (h : Linked next (as ++ p :: bs))
    (hnodup : (as ++ p :: bs).Nodup) (hx : next x = some bs.head?) (hxp : x ≠ p) :
    Linked (Function.update next p (some (some x))) (as ++ p :: x :: bs) := by
  induction as with
  | nil =>
    have hp : p ∉ bs := (List.nodup_cons.mp hnodup).1
    refine ⟨by simp, ?_, ?_⟩
    · rw [Function.update_of_ne hxp]
      exact hx
    · refine h.2.congr (fun y hy => Function.update_of_ne ?_ _ _)
      rintro rfl
      exact hp hy
  | cons a as ih =>
    obtain ⟨ha, hrest⟩ := List.nodup_cons.mp hnodup
    have hap : a ≠ p := by
      rintro rfl
      exact ha (by simp)
    refine ⟨?_, ih h.2 hrest⟩
    rw [Function.update_of_ne hap]
    refine h.1.trans ?_
    cases as <;> rfl

end Linked

section Ascending

variable [LinearOrder κ] {rank : ν → κ}

/-- The ranks ascend along the list. -/
def Ascending (rank : ν → κ) (xs : List ν) : Prop := xs.Pairwise (fun x y => rank x < rank y)

namespace Ascending

lemma nodup {xs : List ν} (h : Ascending rank xs) : xs.Nodup := by
  refine List.Pairwise.imp ?_ h
  rintro x y hxy rfl
  exact lt_irrefl _ hxy

/-- Before a cell the ranks are lower, behind it they are higher. -/
lemma split {as bs : List ν} {x : ν} (h : Ascending rank (as ++ x :: bs)) :
    (∀ y ∈ as, rank y < rank x) ∧ ∀ y ∈ bs, rank x < rank y := by
  obtain ⟨-, hxs, hcross⟩ := List.pairwise_append.mp h
  exact ⟨fun y hy => hcross y hy x List.mem_cons_self, (List.pairwise_cons.mp hxs).1⟩

/-- What stands behind a cell are the cells of a higher rank. -/
lemma mem_behind {as bs : List ν} {x y : ν} (h : Ascending rank (as ++ x :: bs))
    (hy : y ∈ as ++ x :: bs) (hxy : rank x < rank y) : y ∈ bs := by
  rcases List.mem_append.mp hy with hy | hy
  · exact absurd (h.split.1 y hy) (not_lt.mpr hxy.le)
  · rcases List.mem_cons.mp hy with rfl | hy
    · exact absurd hxy (lt_irrefl _)
    · exact hy

lemma insert {as bs : List ν} {p x : ν} (h : Ascending rank (as ++ p :: bs))
    (hpx : rank p < rank x) (hx : ∀ y ∈ bs, rank x < rank y) :
    Ascending rank (as ++ p :: x :: bs) := by
  obtain ⟨has, hbs, hcross⟩ := List.pairwise_append.mp h
  obtain ⟨hp, hbs⟩ := List.pairwise_cons.mp hbs
  have hall : ∀ y ∈ x :: bs, rank p < rank y := by
    intro y hy
    rcases List.mem_cons.mp hy with rfl | hy
    · exact hpx
    · exact hp y hy
  refine List.pairwise_append.mpr ⟨has, ?_, ?_⟩
  · exact List.pairwise_cons.mpr ⟨hall, List.pairwise_cons.mpr ⟨hx, hbs⟩⟩
  · intro a ha y hy
    have hap : rank a < rank p := hcross a ha p List.mem_cons_self
    rcases List.mem_cons.mp hy with rfl | hy
    · exact hap
    · exact hap.trans (hall y hy)

lemma congr {rank' : ν → κ} {xs : List ν} (h : Ascending rank xs)
    (heq : ∀ x ∈ xs, rank' x = rank x) : Ascending rank' xs := by
  refine List.Pairwise.imp_of_mem ?_ h
  intro x y hx hy hxy
  rw [heq x hx, heq y hy]
  exact hxy

end Ascending

end Ascending

end Lib
