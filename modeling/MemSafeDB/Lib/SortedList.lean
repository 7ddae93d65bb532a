import Mathlib.Data.List.Basic
import Mathlib.Data.List.Count
import Mathlib.Order.Basic
import Mathlib.Order.Lattice
import Mathlib.Tactic.Common

/-!
# Strictly sorted lists

The rank of a key in a strictly sorted list of keys is the number of smaller keys. It is
the position a lower-bound search reports, the position at which a new key keeps the list
sorted, and the index of the interval between neighbouring keys that the key falls into.
-/

namespace Lib

variable {κ : Type} [LinearOrder κ]

def StrictSorted (ks : List κ) : Prop := ks.Pairwise (· < ·)

/-- Number of keys smaller than `k`. -/
def rank (ks : List κ) (k : κ) : Nat := ks.countP (· < k)

lemma rank_le_length (ks : List κ) (k : κ) : rank ks k ≤ ks.length := List.countP_le_length

@[simp] lemma rank_nil (k : κ) : rank [] k = 0 := rfl

lemma StrictSorted.getElem_lt {ks : List κ} (hs : StrictSorted ks) {i j : Nat}
    (hi : i < ks.length) (hj : j < ks.length) (h : i < j) : ks[i] < ks[j] :=
  List.pairwise_iff_getElem.mp hs i j hi hj h

lemma StrictSorted.getElem_le {ks : List κ} (hs : StrictSorted ks) {i j : Nat}
    (hi : i < ks.length) (hj : j < ks.length) (h : i ≤ j) : ks[i] ≤ ks[j] := by
  rcases Nat.lt_or_eq_of_le h with hlt | heq
  · exact (hs.getElem_lt hi hj hlt).le
  · simp only [heq, le_refl]

lemma StrictSorted.getElem_inj {ks : List κ} (hs : StrictSorted ks) {i j : Nat}
    (hi : i < ks.length) (hj : j < ks.length) (h : ks[i] = ks[j]) : i = j := by
  rcases Nat.lt_trichotomy i j with hlt | heq | hgt
  · exact absurd (h ▸ hs.getElem_lt hi hj hlt) (lt_irrefl _)
  · exact heq
  · exact absurd (h ▸ hs.getElem_lt hj hi hgt) (lt_irrefl _)

lemma StrictSorted.nodup {ks : List κ} (hs : StrictSorted ks) : ks.Nodup :=
  List.Pairwise.imp (fun h => ne_of_lt h) hs

lemma StrictSorted.sublist {ks ls : List κ} (hs : StrictSorted ks) (h : ls.Sublist ks) :
    StrictSorted ls :=
  List.Pairwise.sublist h hs

/-- The position that separates the smaller keys from the others is the rank. -/
lemma rank_eq_of_split {ks : List κ} {k : κ} {m : Nat} (hm : m ≤ ks.length)
    (hlt : ∀ i (h : i < ks.length), i < m → ks[i] < k)
    (hge : ∀ i (h : i < ks.length), m ≤ i → k ≤ ks[i]) : rank ks k = m := by
  have htake : (ks.take m).countP (· < k) = (ks.take m).length := by
    rw [List.countP_eq_length]
    intro a ha
    obtain ⟨i, hi, rfl⟩ := List.mem_iff_getElem.mp ha
    simp only [List.length_take] at hi
    simpa using hlt i (by omega) (by omega)
  have hdrop : (ks.drop m).countP (· < k) = 0 := by
    rw [List.countP_eq_zero]
    intro a ha
    obtain ⟨i, hi, rfl⟩ := List.mem_iff_getElem.mp ha
    simp only [List.length_drop] at hi
    simpa using hge (m + i) (by omega) (by omega)
  unfold rank
  rw [← List.take_append_drop m ks, List.countP_append, htake, hdrop]
  simp [hm]

lemma StrictSorted.exists_split {ks : List κ} (hs : StrictSorted ks) (k : κ) :
    ∃ m, m ≤ ks.length ∧ (∀ i (h : i < ks.length), i < m → ks[i] < k) ∧
      ∀ i (h : i < ks.length), m ≤ i → k ≤ ks[i] := by
  induction ks with
  | nil => exact ⟨0, by simp⟩
  | cons a ks ih =>
    rw [StrictSorted, List.pairwise_cons] at hs
    by_cases hak : a < k
    · obtain ⟨m, hm, h1, h2⟩ := ih hs.2
      refine ⟨m + 1, by simpa using hm, ?_, ?_⟩
      · intro i hi him
        cases i with
        | zero => exact hak
        | succ i => exact h1 i (by simpa using hi) (by omega)
      · intro i hi him
        cases i with
        | zero => omega
        | succ i => exact h2 i (by simpa using hi) (by omega)
    · refine ⟨0, by simp, by omega, ?_⟩
      intro i hi _
      cases i with
      | zero => exact not_lt.mp hak
      | succ i => exact (not_lt.mp hak).trans (hs.1 _ (List.getElem_mem _)).le

lemma StrictSorted.lt_of_lt_rank {ks : List κ} (hs : StrictSorted ks) {k : κ} {i : Nat}
    (h : i < ks.length) (hi : i < rank ks k) : ks[i] < k := by
  obtain ⟨m, hm, h1, h2⟩ := hs.exists_split k
  rw [rank_eq_of_split hm h1 h2] at hi
  exact h1 i h hi

lemma StrictSorted.le_of_rank_le {ks : List κ} (hs : StrictSorted ks) {k : κ} {i : Nat}
    (h : i < ks.length) (hi : rank ks k ≤ i) : k ≤ ks[i] := by
  obtain ⟨m, hm, h1, h2⟩ := hs.exists_split k
  rw [rank_eq_of_split hm h1 h2] at hi
  exact h2 i h hi

/-- The entries before the position of a key. -/
lemma StrictSorted.lt_of_mem_take {ν : Type*} {es : List (κ × ν)} {e : κ × ν} {k : κ}
    (hs : StrictSorted (es.map Prod.fst)) (he : e ∈ es.take (rank (es.map Prod.fst) k)) :
    e.1 < k := by
  obtain ⟨i, hi, rfl⟩ := List.mem_iff_getElem.mp he
  rw [List.length_take] at hi
  have hlt := hs.lt_of_lt_rank (k := k) (i := i) (by rw [List.length_map]; omega) (by omega)
  simpa using hlt

/-- The entries from the position of a key on. -/
lemma StrictSorted.le_of_mem_drop {ν : Type*} {es : List (κ × ν)} {e : κ × ν} {k : κ}
    (hs : StrictSorted (es.map Prod.fst)) (he : e ∈ es.drop (rank (es.map Prod.fst) k)) :
    k ≤ e.1 := by
  obtain ⟨i, hi, rfl⟩ := List.mem_iff_getElem.mp he
  rw [List.length_drop] at hi
  have hle := hs.le_of_rank_le (k := k) (i := rank (es.map Prod.fst) k + i)
    (by rw [List.length_map]; omega) (by omega)
  simpa using hle

lemma StrictSorted.rank_getElem {ks : List κ} (hs : StrictSorted ks) {i : Nat}
    (h : i < ks.length) : rank ks ks[i] = i :=
  rank_eq_of_split (Nat.le_of_lt h) (fun _ hj hji => hs.getElem_lt hj h hji)
    (fun _ hj hij => hs.getElem_le h hj hij)

/-- A key is stored iff it stands at its rank. -/
lemma StrictSorted.mem_iff_rank {ks : List κ} (hs : StrictSorted ks) (k : κ) :
    k ∈ ks ↔ ∃ h : rank ks k < ks.length, ks[rank ks k] = k := by
  constructor
  · intro hk
    obtain ⟨i, hi, rfl⟩ := List.mem_iff_getElem.mp hk
    simp only [hs.rank_getElem hi, hi, exists_const]
  · rintro ⟨h, hk⟩
    rw [← hk]
    exact List.getElem_mem _

lemma StrictSorted.lt_getElem_of_notMem {ks : List κ} (hs : StrictSorted ks) {k : κ}
    (hk : k ∉ ks) {i : Nat} (h : i < ks.length) (hi : rank ks k ≤ i) : k < ks[i] := by
  refine lt_of_le_of_ne (hs.le_of_rank_le h hi) ?_
  intro heq
  exact hk (heq ▸ List.getElem_mem _)

/-- A new key placed at its rank keeps the list sorted. -/
lemma StrictSorted.insertIdx_rank {ks : List κ} (hs : StrictSorted ks) {k : κ} (hk : k ∉ ks) :
    StrictSorted (ks.insertIdx (rank ks k) k) := by
  have hr := rank_le_length ks k
  rw [StrictSorted, List.pairwise_iff_getElem]
  intro i j hi hj hij
  simp only [List.length_insertIdx, hr, ite_true] at hi hj
  rw [List.getElem_insertIdx, List.getElem_insertIdx]
  by_cases h1 : i < rank ks k
  · by_cases h2 : j < rank ks k
    · simp only [h1, h2, dite_true]
      exact hs.getElem_lt _ _ hij
    · by_cases h3 : j = rank ks k
      · subst h3
        simp only [h1, Nat.lt_irrefl, dite_true, dite_false]
        exact hs.lt_of_lt_rank _ h1
      · simp only [h1, h2, h3, dite_true, dite_false]
        exact hs.getElem_lt _ _ (by omega)
  · have h2 : ¬ j < rank ks k := by omega
    have h3 : ¬ j = rank ks k := by omega
    by_cases h4 : i = rank ks k
    · subst h4
      simp only [h2, h3, Nat.lt_irrefl, dite_true, dite_false]
      exact hs.lt_getElem_of_notMem hk _ (by omega)
    · simp only [h1, h2, h3, h4, dite_false]
      exact hs.getElem_lt _ _ (by omega)

lemma StrictSorted.eraseIdx {ks : List κ} (hs : StrictSorted ks) (i : Nat) :
    StrictSorted (ks.eraseIdx i) :=
  hs.sublist (List.eraseIdx_sublist _ _)

lemma StrictSorted.append {ks ls : List κ} (hk : StrictSorted ks) (hl : StrictSorted ls)
    (h : ∀ a ∈ ks, ∀ b ∈ ls, a < b) : StrictSorted (ks ++ ls) :=
  List.pairwise_append.mpr ⟨hk, hl, h⟩

end Lib
