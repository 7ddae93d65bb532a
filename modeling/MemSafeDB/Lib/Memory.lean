import Mathlib.Data.List.Basic
import Mathlib.Tactic.Common
import Mathlib.Tactic.Ring

/-!
# Flat memory

A memory is a function from addresses to cells. Ranges are read as lists and written from
lists; the frame lemmas say which ranges a write leaves alone. Arrays that live in such a
memory are functions of their index, and the last section relates the shifts that `memmove`
performs on them to insertion into and deletion from the list of their first entries.
-/

namespace Lib

variable {β : Type}

abbrev Memory (β : Type) := Nat → β

namespace Memory

/-- The `len` cells from address `off` on. -/
def read (m : Memory β) (off len : Nat) : List β :=
  (List.range len).map (fun i => m (off + i))

/-- The memory after `bs` has been copied to address `off`. -/
def write (m : Memory β) (off : Nat) (bs : List β) : Memory β := fun a =>
  if h : off ≤ a ∧ a < off + bs.length then bs.get ⟨a - off, by omega⟩ else m a

@[simp] lemma length_read (m : Memory β) (off len : Nat) : (m.read off len).length = len := by
  simp [read]

@[simp] lemma read_zero (m : Memory β) (off : Nat) : m.read off 0 = [] := rfl

lemma getElem_read (m : Memory β) (off len i : Nat) (h : i < (m.read off len).length) :
    (m.read off len)[i] = m (off + i) := by
  simp [read]

lemma read_congr {m m' : Memory β} {off len : Nat}
    (h : ∀ a, off ≤ a → a < off + len → m a = m' a) : m.read off len = m'.read off len := by
  apply List.map_congr_left
  intro i hi
  have hi' := List.mem_range.mp hi
  exact h _ (by omega) (by omega)

lemma read_add (m : Memory β) (off a b : Nat) :
    m.read off (a + b) = m.read off a ++ m.read (off + a) b := by
  simp [read, List.range_add, Nat.add_assoc]

lemma take_read (m : Memory β) (off len n : Nat) :
    (m.read off len).take n = m.read off (min n len) := by
  simp [read, ← List.map_take, List.take_range]

lemma drop_read (m : Memory β) (off len n : Nat) (h : n ≤ len) :
    (m.read off len).drop n = m.read (off + n) (len - n) := by
  have hadd := m.read_add off n (len - n)
  rw [Nat.add_sub_cancel' h] at hadd
  rw [hadd]
  exact List.drop_left' (by simp)

lemma write_of_disjoint (m : Memory β) {off : Nat} {bs : List β} {a : Nat}
    (h : a < off ∨ off + bs.length ≤ a) : m.write off bs a = m a := by
  have hn : ¬(off ≤ a ∧ a < off + bs.length) := by omega
  simp [write, hn]

@[simp] lemma write_nil (m : Memory β) (off : Nat) : m.write off [] = m := by
  funext a
  exact write_of_disjoint m (by simp only [List.length_nil]; omega)

/-- A range that a write does not meet reads as before. -/
lemma read_write_of_disjoint (m : Memory β) {off len off' : Nat} {bs : List β}
    (h : off + len ≤ off' ∨ off' + bs.length ≤ off) :
    (m.write off' bs).read off len = m.read off len := by
  apply read_congr
  intro a h1 h2
  exact write_of_disjoint m (by omega)

@[simp] lemma read_write_same (m : Memory β) (off : Nat) (bs : List β) :
    (m.write off bs).read off bs.length = bs := by
  apply List.ext_getElem (by simp)
  intro i h1 h2
  have hi : off ≤ off + i ∧ off + i < off + bs.length := by omega
  rw [getElem_read]
  simp [write, hi]

/-- The two parts of a range into which two strings have been copied one after the other. -/
lemma read_parts {m : Memory β} {off : Nat} {xs ys : List β}
    (h : m.read off (xs.length + ys.length) = xs ++ ys) :
    m.read off xs.length = xs ∧ m.read (off + xs.length) ys.length = ys := by
  rw [read_add] at h
  exact List.append_inj h (by simp)

end Memory

/-! ## Arrays and `memmove` -/

/-- The first `n` entries of an array. -/
def firstn (f : Nat → β) (n : Nat) : List β := (List.range n).map f

@[simp] lemma length_firstn (f : Nat → β) (n : Nat) : (firstn f n).length = n := by
  simp [firstn]

lemma getElem_firstn (f : Nat → β) (n i : Nat) (h : i < (firstn f n).length) :
    (firstn f n)[i] = f i := by
  simp [firstn]

lemma firstn_succ (f : Nat → β) (n : Nat) : firstn f (n + 1) = firstn f n ++ [f n] := by
  simp [firstn, List.range_succ]

lemma firstn_congr {f g : Nat → β} {n : Nat} (h : ∀ i, i < n → f i = g i) :
    firstn f n = firstn g n := by
  apply List.map_congr_left
  intro i hi
  exact h i (List.mem_range.mp hi)

lemma mem_firstn {f : Nat → β} {n : Nat} {x : β} : x ∈ firstn f n ↔ ∃ i, i < n ∧ f i = x := by
  simp [firstn]

/-- The array after `memmove` has copied the entries `i`, …, `n - 1` up by one place. -/
def moveUp (f : Nat → β) (i n : Nat) : Nat → β := fun j =>
  if i < j ∧ j ≤ n then f (j - 1) else f j

/-- The array after `memmove` has copied the entries `i + 1`, …, `n - 1` down by one place. -/
def moveDown (f : Nat → β) (i n : Nat) : Nat → β := fun j =>
  if i ≤ j ∧ j + 1 < n then f (j + 1) else f j

lemma firstn_moveUp_update (f : Nat → β) {i n : Nat} (x : β) (h : i ≤ n) :
    firstn (Function.update (moveUp f i n) i x) (n + 1) = (firstn f n).insertIdx i x := by
  apply List.ext_getElem
  · simp [List.length_insertIdx, h]
  · intro j h1 h2
    rw [getElem_firstn, List.getElem_insertIdx]
    simp only [length_firstn] at h1
    simp only [getElem_firstn]
    by_cases he : j = i
    · simp [he]
    · by_cases hj : j < i
      · have hn : ¬(i < j ∧ j ≤ n) := by omega
        simp [moveUp, he, hj, hn]
      · have hn : i < j ∧ j ≤ n := by omega
        simp [moveUp, he, hj, hn]

lemma firstn_moveDown (f : Nat → β) {i n : Nat} (h : i < n) :
    firstn (moveDown f i n) (n - 1) = (firstn f n).eraseIdx i := by
  apply List.ext_getElem
  · simp [List.length_eraseIdx, h]
  · intro j h1 h2
    rw [getElem_firstn, List.getElem_eraseIdx]
    simp only [length_firstn] at h1
    simp only [moveDown, getElem_firstn]
    by_cases hj : j < i
    · have hn : ¬(i ≤ j ∧ j + 1 < n) := by omega
      simp [hj, hn]
    · have hn : i ≤ j ∧ j + 1 < n := by omega
      simp [hj, hn]

/-! ## Little-endian numbers -/

section LittleEndian

variable {b : Nat} [NeZero b]

/-- The `len` low digits of `v` in base `b`, lowest first. -/
def toLE (len v : Nat) : List (Fin b) :=
  match len with
  | 0 => []
  | len + 1 => Fin.ofNat b v :: toLE len (v / b)

/-- The number whose base-`b` digits are given lowest first. -/
def ofLE : List (Fin b) → Nat
  | [] => 0
  | d :: ds => d.val + b * ofLE ds

@[simp] lemma length_toLE (len v : Nat) : (toLE len v : List (Fin b)).length = len := by
  induction len generalizing v with
  | zero => rfl
  | succ len ih => simp [toLE, ih]

omit [NeZero b] in
lemma ofLE_lt (ds : List (Fin b)) : ofLE ds < b ^ ds.length := by
  induction ds with
  | nil => exact Nat.one_pos
  | cons d ds ih =>
    have hle : b * (ofLE ds + 1) ≤ b * b ^ ds.length := Nat.mul_le_mul_left b ih
    rw [ofLE, List.length_cons, Nat.pow_succ, Nat.mul_comm (b ^ ds.length)]
    rw [Nat.mul_succ] at hle
    omega

lemma ofLE_toLE {len v : Nat} (h : v < b ^ len) : ofLE (toLE len v : List (Fin b)) = v := by
  induction len generalizing v with
  | zero =>
    have hv : v = 0 := by simpa using h
    simp [toLE, ofLE, hv]
  | succ len ih =>
    have hdiv : v / b < b ^ len := by
      apply Nat.div_lt_of_lt_mul
      rwa [Nat.pow_succ, Nat.mul_comm] at h
    simp only [toLE, ofLE, ih hdiv, Fin.val_ofNat]
    exact Nat.mod_add_div v b

end LittleEndian

end Lib
