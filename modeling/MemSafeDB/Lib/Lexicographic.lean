import Mathlib.Data.List.Lex
import Mathlib.Order.Fin.Basic
import Mathlib.Tactic.Common

/-!
# Strings in lexicographic order

Facts about lists over a linear order that an ordered store of strings rests on: the
length of the longest common prefix of two strings, the interval of strings between two
strings that share a prefix, and the bounded comparison `memcmp`.
-/

namespace Lib

variable {α : Type} [LinearOrder α]

/-- Length of the longest common prefix of two strings. -/
def commonLen : List α → List α → Nat
  | x :: xs, y :: ys => if x = y then commonLen xs ys + 1 else 0
  | _, _ => 0

@[simp] lemma commonLen_nil_left (ys : List α) : commonLen [] ys = 0 := by
  cases ys <;> rfl

@[simp] lemma commonLen_nil_right (xs : List α) : commonLen xs [] = 0 := by
  cases xs <;> rfl

lemma commonLen_le_left (xs ys : List α) : commonLen xs ys ≤ xs.length := by
  induction xs generalizing ys with
  | nil => simp
  | cons x xs ih =>
    cases ys with
    | nil => simp
    | cons y ys =>
      have h := ih ys
      by_cases hxy : x = y
      · simp only [commonLen, hxy, ite_true, List.length_cons]
        omega
      · simp [commonLen, hxy]

lemma commonLen_comm (xs ys : List α) : commonLen xs ys = commonLen ys xs := by
  induction xs generalizing ys with
  | nil => simp
  | cons x xs ih =>
    cases ys with
    | nil => simp
    | cons y ys => simp only [commonLen, ih ys, eq_comm]

lemma commonLen_le_right (xs ys : List α) : commonLen xs ys ≤ ys.length := by
  rw [commonLen_comm]
  exact commonLen_le_left ys xs

lemma take_commonLen (xs ys : List α) :
    xs.take (commonLen xs ys) = ys.take (commonLen xs ys) := by
  induction xs generalizing ys with
  | nil => simp
  | cons x xs ih =>
    cases ys with
    | nil => simp
    | cons y ys =>
      by_cases hxy : x = y
      · simp [commonLen, hxy, ih ys]
      · simp [commonLen, hxy]

/-- The common length is the greatest length at which the prefixes agree. -/
lemma le_commonLen {xs ys : List α} {m : Nat} (hx : m ≤ xs.length) (hy : m ≤ ys.length)
    (h : xs.take m = ys.take m) : m ≤ commonLen xs ys := by
  induction m generalizing xs ys with
  | zero => exact Nat.zero_le _
  | succ m ih =>
    cases xs with
    | nil => simp at hx
    | cons x xs =>
      cases ys with
      | nil => simp at hy
      | cons y ys =>
        simp only [List.take_succ_cons, List.cons.injEq] at h
        have hm := ih (by simpa using hx) (by simpa using hy) h.2
        simp only [commonLen, h.1, ite_true]
        omega

/-- Only as many elements as both lists have are compared. -/
lemma commonLen_take {xs ys : List α} {m : Nat} (h : xs.length ≤ m ∨ ys.length ≤ m) :
    commonLen (xs.take m) (ys.take m) = commonLen xs ys := by
  induction xs generalizing ys m with
  | nil => simp
  | cons x xs ih =>
    cases ys with
    | nil => simp
    | cons y ys =>
      cases m with
      | zero => simp at h
      | succ m =>
        simp only [List.length_cons, Nat.add_le_add_iff_right] at h
        simp only [List.take_succ_cons, commonLen, ih h]

lemma append_lt_append_left_iff (p : List α) {xs ys : List α} : p ++ xs < p ++ ys ↔ xs < ys := by
  induction p with
  | nil => simp
  | cons a p ih => simp [ih]

lemma append_le_append_left_iff (p : List α) {xs ys : List α} : p ++ xs ≤ p ++ ys ↔ xs ≤ ys := by
  rw [← not_lt, ← not_lt, append_lt_append_left_iff]

lemma le_append (xs ys : List α) : xs ≤ xs ++ ys := by
  induction xs with
  | nil => exact not_lt.mp (List.not_lt_nil _)
  | cons x xs ih =>
    rw [List.cons_append, ← not_lt, List.cons_lt_cons_iff]
    rintro (h | ⟨-, h⟩)
    · exact lt_irrefl x h
    · exact not_lt.mpr ih h

lemma lt_append_of_ne_nil (xs : List α) {ys : List α} (h : ys ≠ []) : xs < xs ++ ys := by
  refine lt_of_le_of_ne (le_append xs ys) ?_
  intro heq
  exact h (List.append_right_eq_self.mp heq.symm)

/-- Cutting two strings at the same length keeps their order. -/
lemma take_le_take {xs ys : List α} (h : xs ≤ ys) (m : Nat) : xs.take m ≤ ys.take m := by
  induction m generalizing xs ys with
  | zero => simp
  | succ m ih =>
    cases xs with
    | nil => exact not_lt.mp (List.not_lt_nil _)
    | cons x xs =>
      cases ys with
      | nil => exact absurd h (not_le.mpr (List.nil_lt_cons _ _))
      | cons y ys =>
        rw [← not_lt, List.cons_lt_cons_iff] at h
        rw [List.take_succ_cons, List.take_succ_cons, ← not_lt, List.cons_lt_cons_iff]
        rintro (hlt | ⟨heq, hlt⟩)
        · exact h (Or.inl hlt)
        · have hle : xs ≤ ys := not_lt.mp (fun hc => h (Or.inr ⟨heq, hc⟩))
          exact not_lt.mpr (ih hle) hlt

lemma take_le (xs : List α) (m : Nat) : xs.take m ≤ xs := by
  conv_rhs => rw [← List.take_append_drop m xs]
  exact le_append _ _

/-- A string between two strings that share a prefix has that prefix too. -/
lemma take_eq_of_between {xs ys zs : List α} {m : Nat} (hxy : xs ≤ ys) (hyz : ys ≤ zs)
    (h : xs.take m = zs.take m) : ys.take m = xs.take m :=
  le_antisymm ((take_le_take hyz m).trans_eq h.symm) (take_le_take hxy m)

/-- Between two strings the common prefix only grows. -/
lemma commonLen_mono_right {xs ys zs : List α} (hxy : xs ≤ ys) (hyz : ys ≤ zs) :
    commonLen xs zs ≤ commonLen xs ys := by
  have htake := take_eq_of_between hxy hyz (take_commonLen xs zs)
  have hx := commonLen_le_left xs zs
  refine le_commonLen hx ?_ htake.symm
  have hlen := congrArg List.length htake
  simp only [List.length_take] at hlen
  omega

lemma commonLen_mono_left {xs ys zs : List α} (hxy : xs ≤ ys) (hyz : ys ≤ zs) :
    commonLen xs zs ≤ commonLen ys zs := by
  have htake := take_eq_of_between hxy hyz (take_commonLen xs zs)
  have hx := commonLen_le_left xs zs
  refine le_commonLen ?_ (commonLen_le_right xs zs) (htake.trans (take_commonLen xs zs))
  have hlen := congrArg List.length htake
  simp only [List.length_take] at hlen
  omega

/-- Element by element comparison, up to the end of the shorter argument. -/
def memcmp : List α → List α → Ordering
  | x :: xs, y :: ys => if x < y then .lt else if y < x then .gt else memcmp xs ys
  | _, _ => .eq

/-- A difference within the compared part decides the order of all extensions. -/
lemma memcmp_eq_lt_append {xs ys : List α} (h : memcmp xs ys = .lt) (t u : List α) :
    xs ++ t < ys ++ u := by
  induction xs generalizing ys with
  | nil => simp [memcmp] at h
  | cons x xs ih =>
    cases ys with
    | nil => simp [memcmp] at h
    | cons y ys =>
      rw [List.cons_append, List.cons_append, List.cons_lt_cons_iff]
      by_cases hlt : x < y
      · exact Or.inl hlt
      · by_cases hgt : y < x
        · simp [memcmp, hlt, hgt] at h
        · simp only [memcmp, hlt, hgt, ite_false] at h
          exact Or.inr ⟨le_antisymm (not_lt.mp hgt) (not_lt.mp hlt), ih h⟩

lemma memcmp_swap (xs ys : List α) : memcmp xs ys = (memcmp ys xs).swap := by
  induction xs generalizing ys with
  | nil => cases ys <;> rfl
  | cons x xs ih =>
    cases ys with
    | nil => rfl
    | cons y ys =>
      simp only [memcmp]
      rcases lt_trichotomy x y with h | h | h
      · simp [h, not_lt.mpr h.le]
      · simp [h, ih ys]
      · simp [h, not_lt.mpr h.le]

lemma memcmp_eq_gt_append {xs ys : List α} (h : memcmp xs ys = .gt) (t u : List α) :
    ys ++ u < xs ++ t := by
  rw [memcmp_swap] at h
  exact memcmp_eq_lt_append (by simpa [Ordering.swap_eq_gt] using h) u t

lemma memcmp_eq_eq {xs ys : List α} (h : memcmp xs ys = .eq) :
    xs.take ys.length = ys.take xs.length := by
  induction xs generalizing ys with
  | nil => simp
  | cons x xs ih =>
    cases ys with
    | nil => simp
    | cons y ys =>
      by_cases hlt : x < y
      · simp [memcmp, hlt] at h
      · by_cases hgt : y < x
        · simp [memcmp, hlt, hgt] at h
        · simp only [memcmp, hlt, hgt, ite_false] at h
          simp [le_antisymm (not_lt.mp hgt) (not_lt.mp hlt), ih h]

end Lib
