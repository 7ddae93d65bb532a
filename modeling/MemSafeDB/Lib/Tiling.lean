import Mathlib.Data.List.Pairwise
import Mathlib.Order.Fin.Basic
import Mathlib.Tactic.Common

/-!
# Tilings

A list of cells tiles an interval when each cell begins where the one before it ends. The bounds
between two cells are proper ones; the outer bounds need not be, so that they can stand for
infinity.
-/

namespace Lib

variable {ν ω κ : Type} {lower upper : ν → κ} {proper : κ → Prop} {lo mid up : κ} {x y : ν}
  {xs ys : List ν}

/-- The cells tile the interval from `lo` to `up`. -/
def Tiling (lower upper : ν → κ) (proper : κ → Prop) : κ → κ → List ν → Prop
  | _, _, [] => False
  | lo, up, x :: xs => lower x = lo ∧
      ((xs = [] ∧ upper x = up) ∨ (proper (upper x) ∧ Tiling lower upper proper (upper x) up xs))

namespace Tiling

lemma single (hlo : lower x = lo) (hup : upper x = up) : Tiling lower upper proper lo up [x] :=
  ⟨hlo, Or.inl ⟨rfl, hup⟩⟩

lemma append (h : Tiling lower upper proper lo mid xs) (hmid : proper mid)
    (h' : Tiling lower upper proper mid up ys) : Tiling lower upper proper lo up (xs ++ ys) := by
  induction xs generalizing lo with
  | nil => exact h.elim
  | cons x xs ih =>
    obtain ⟨hlo, ⟨rfl, hup⟩ | ⟨hproper, hxs⟩⟩ := h
    · exact ⟨hlo, Or.inr ⟨hup.symm ▸ hmid, hup.symm ▸ h'⟩⟩
    · exact ⟨hlo, Or.inr ⟨hproper, ih hxs⟩⟩

/-- Tilings of the cells of a tiling. -/
lemma flatMap {lower' upper' : ω → κ} {f : ν → List ω} (h : Tiling lower upper proper lo up xs)
    (hf : ∀ x ∈ xs, Tiling lower' upper' proper (lower x) (upper x) (f x)) :
    Tiling lower' upper' proper lo up (xs.flatMap f) := by
  induction xs generalizing lo with
  | nil => exact h.elim
  | cons x xs ih =>
    have hx := hf x List.mem_cons_self
    obtain ⟨hlo, ⟨rfl, hup⟩ | ⟨hproper, hxs⟩⟩ := h
    · rw [hlo, hup] at hx
      simpa using hx
    · rw [hlo] at hx
      exact hx.append hproper (ih hxs (fun y hy => hf y (List.mem_cons_of_mem x hy)))

lemma ne_nil (h : Tiling lower upper proper lo up xs) : xs ≠ [] := by
  rintro rfl
  exact h

/-- What is before a cell of a tiling. -/
lemma before (h : Tiling lower upper proper lo up (xs ++ x :: ys)) :
    (xs = [] ∧ lower x = lo) ∨ ∃ zs y, xs = zs ++ [y] ∧ upper y = lower x := by
  induction xs generalizing lo with
  | nil => exact Or.inl ⟨rfl, h.1⟩
  | cons z xs ih =>
    obtain ⟨-, ⟨hnil, -⟩ | ⟨-, hxs⟩⟩ := h
    · exact absurd hnil (by simp)
    · rcases ih hxs with ⟨rfl, hx⟩ | ⟨zs, y, rfl, hy⟩
      · exact Or.inr ⟨[], z, rfl, hx.symm⟩
      · exact Or.inr ⟨z :: zs, y, rfl, hy⟩

/-- What is behind a cell of a tiling. -/
lemma behind (h : Tiling lower upper proper lo up (xs ++ x :: ys)) :
    (ys = [] ∧ upper x = up) ∨ ∃ y zs, ys = y :: zs ∧ proper (upper x) ∧ lower y = upper x := by
  induction xs generalizing lo with
  | nil =>
    obtain ⟨-, hend | ⟨hproper, hys⟩⟩ := h
    · exact Or.inl hend
    · cases ys with
      | nil => exact hys.elim
      | cons y zs => exact Or.inr ⟨y, zs, rfl, hproper, hys.1⟩
  | cons z xs ih =>
    obtain ⟨-, ⟨hnil, -⟩ | ⟨-, hxs⟩⟩ := h
    · exact absurd hnil (by simp)
    · exact ih hxs

section Order

variable [LinearOrder κ]

/-- The cells of a tiling are above its lower bound. -/
lemma le_lower (h : Tiling lower upper proper lo up xs)
    (hlt : ∀ x ∈ xs, proper (upper x) → lower x < upper x) (hx : x ∈ xs) : lo ≤ lower x := by
  induction xs generalizing lo with
  | nil => cases hx
  | cons y xs ih =>
    obtain ⟨hlo, hrest⟩ := h
    rcases List.mem_cons.mp hx with rfl | hx
    · exact hlo.ge
    · rcases hrest with ⟨rfl, -⟩ | ⟨hproper, hxs⟩
      · cases hx
      · have hle := ih hxs (fun z hz => hlt z (List.mem_cons_of_mem y hz)) hx
        exact hlo.ge.trans ((hlt y List.mem_cons_self hproper).le.trans hle)

/-- The cells of a tiling are in order. -/
lemma pairwise (h : Tiling lower upper proper lo up xs)
    (hlt : ∀ x ∈ xs, proper (upper x) → lower x < upper x) :
    xs.Pairwise (fun x y => proper (upper x) ∧ upper x ≤ lower y) := by
  induction xs generalizing lo with
  | nil => exact List.Pairwise.nil
  | cons x xs ih =>
    have hlt' : ∀ y ∈ xs, proper (upper y) → lower y < upper y :=
      fun y hy => hlt y (List.mem_cons_of_mem x hy)
    obtain ⟨-, ⟨rfl, -⟩ | ⟨hproper, hxs⟩⟩ := h
    · exact List.pairwise_singleton _ _
    · exact List.pairwise_cons.mpr ⟨fun y hy => ⟨hproper, hxs.le_lower hlt' hy⟩, ih hxs hlt'⟩

end Order

end Tiling

end Lib
