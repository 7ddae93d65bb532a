import MemSafeDB.Tree.Structure

/-!
# Ranges of entries

The entries of all leaves, one leaf after the other, are those of the tree in the order of their
keys. A leaf that covers a key cuts them at its position for the key.
-/

namespace MemSafeDB
open Lib

/-- The entries are in ascending order. -/
def Ascending (es : List (Key × Key)) : Prop := es.Pairwise (fun e f => e.1 < f.1)

/-- The keys before the cut are smaller, and no key behind it is. -/
structure CutAt (key : Key) (es fs : List (Key × Key)) : Prop where
  ascending : Ascending (es ++ fs)
  before : ∀ e ∈ es, e.1 < key
  behind : ∀ e ∈ fs, key ≤ e.1

namespace CutAt

variable {key k v : Key} {es fs : List (Key × Key)} {e : Key × Key}

lemma mem_behind (h : CutAt key es fs) : e ∈ fs ↔ key ≤ e.1 ∧ e ∈ es ++ fs := by
  rw [List.mem_append]
  constructor
  · intro he
    exact ⟨h.behind e he, Or.inr he⟩
  · rintro ⟨hle, he | he⟩
    · exact absurd (h.before e he) (not_lt.mpr hle)
    · exact he

lemma ascending_behind (h : CutAt key es fs) : Ascending fs :=
  (List.pairwise_append.mp h.ascending).2.1

lemma ascending_before (h : CutAt key es fs) : Ascending es :=
  (List.pairwise_append.mp h.ascending).1

/-- Where the key is not stored, no other entry than those before the cut is as small. -/
lemma mem_before (h : CutAt key es fs) (hno : ∀ e ∈ fs, e.1 ≠ key) :
    e ∈ es ↔ e.1 ≤ key ∧ e ∈ es ++ fs := by
  rw [List.mem_append]
  constructor
  · intro he
    exact ⟨(h.before e he).le, Or.inl he⟩
  · rintro ⟨hle, he | he⟩
    · exact he
    · exact absurd (le_antisymm hle (h.behind e he)) (hno e he)

/-- Where the key is stored, its entry is the first one behind the cut. -/
lemma mem_upto {f : Key × Key} (h : CutAt key es (f :: fs)) (hf : f.1 = key) :
    e ∈ es ++ [f] ↔ e.1 ≤ key ∧ e ∈ es ++ f :: fs := by
  have hlt := (List.pairwise_cons.mp h.ascending_behind).1
  rw [List.mem_append, List.mem_append, List.mem_singleton, List.mem_cons]
  constructor
  · rintro (he | rfl)
    · exact ⟨(h.before e he).le, Or.inl he⟩
    · exact ⟨hf.le, Or.inr (Or.inl rfl)⟩
  · rintro ⟨hle, he | rfl | he⟩
    · exact Or.inl he
    · exact Or.inr rfl
    · exact absurd (hf ▸ hlt e he) (not_lt.mpr hle)

end CutAt

namespace Tree

variable {T : Tree} {p : PID} {key k v : Key} {leaves as bs : List PID}

/-- The entries of some leaves, one leaf after the other. -/
def entriesOf (T : Tree) (leaves : List PID) : List (Key × Key) :=
  leaves.flatMap (fun p => (T.view p).entries)

@[simp] lemma entriesOf_nil (T : Tree) : T.entriesOf [] = [] := rfl

@[simp] lemma entriesOf_cons (T : Tree) (p : PID) (ps : List PID) :
    T.entriesOf (p :: ps) = (T.view p).entries ++ T.entriesOf ps := List.flatMap_cons

@[simp] lemma entriesOf_append (T : Tree) (ps qs : List PID) :
    T.entriesOf (ps ++ qs) = T.entriesOf ps ++ T.entriesOf qs := List.flatMap_append

lemma mem_entriesOf {ps : List PID} {e : Key × Key} :
    e ∈ T.entriesOf ps ↔ ∃ p ∈ ps, e ∈ (T.view p).entries := List.mem_flatMap

/-- The keys of a leaf are smaller than those of a leaf behind it. -/
lemma LeafBefore.lt {q : PID} {e f : Key × Key} (h : T.LeafBefore p q) (hp : T.Covers p e.1)
    (hq : T.Covers q f.1) : e.1 < f.1 := by
  have hupper : e.1 ≤ (T.view p).upper := hp.2.resolve_left h.1
  have hne : (T.view q).lower ≠ [] := by
    intro hnil
    have hle : (T.view p).upper ≤ [] := hnil ▸ h.2
    exact h.1 (le_antisymm hle (nil_le _))
  exact (hupper.trans h.2).trans_lt (hq.1.resolve_left hne)

namespace Row

variable (h : T.Row leaves) (hT : T.Inv)
include h

lemma mem_entriesOf : (k, v) ∈ T.entriesOf leaves ↔ T.Holds k v := by
  rw [Tree.mem_entriesOf, Holds]
  exact exists_congr (fun p => and_congr_left' (h.mem p))

omit h in
/-- The entries of all leaves around a position in one of them. -/
lemma entriesOf_around (heq : leaves = as ++ p :: bs) (i : Nat) :
    T.entriesOf as ++ (T.view p).entries.take i ++
      ((T.view p).entries.drop i ++ T.entriesOf bs) = T.entriesOf leaves := by
  rw [heq, entriesOf_append, entriesOf_cons, List.append_assoc, ← List.append_assoc
    (List.take _ _), List.take_append_drop]

include hT

lemma ascending : Ascending (T.entriesOf leaves) := by
  have hone : ∀ p ∈ leaves, Ascending (T.view p).entries := by
    intro p hp
    exact List.pairwise_map.mp (hT.ok ((h.mem p).mp hp)).sorted
  have htwo : leaves.Pairwise (fun p q => ∀ e ∈ (T.view p).entries, ∀ f ∈ (T.view q).entries,
      e.1 < f.1) := by
    refine List.Pairwise.imp_of_mem ?_ (h.pairwise hT)
    intro p q hp hq hlt e he f hf
    exact hlt.lt (hT.covers_of_mem ((h.mem p).mp hp) he) (hT.covers_of_mem ((h.mem q).mp hq) hf)
  exact List.pairwise_flatMap.mpr ⟨hone, htwo⟩

/-- The leaf that covers a key cuts the entries at its position for the key. -/
lemma cutAt (heq : leaves = as ++ p :: bs) (hk : T.Covers p key) :
    CutAt key (T.entriesOf as ++ (T.view p).entries.take (rank (T.view p).keys key))
      ((T.view p).entries.drop (rank (T.view p).keys key) ++ T.entriesOf bs) := by
  have hp := h.mem_split heq
  have hpw := h.pairwise hT
  rw [heq, List.pairwise_append, List.pairwise_cons] at hpw
  obtain ⟨-, ⟨hafter, -⟩, hbefore⟩ := hpw
  have hcov : ∀ q ∈ leaves, ∀ e ∈ (T.view q).entries, T.Covers q e.1 :=
    fun q hq e he => hT.covers_of_mem ((h.mem q).mp hq) he
  have hsorted := (hT.ok hp).sorted
  refine ⟨?_, ?_, ?_⟩
  · rw [entriesOf_around heq]
    exact h.ascending hT
  · intro e he
    rcases List.mem_append.mp he with he | he
    · obtain ⟨q, hq, he⟩ := Tree.mem_entriesOf.mp he
      have hlt := hbefore q hq p List.mem_cons_self
      exact hlt.lt (e := e) (f := (key, [])) (hcov q (by rw [heq]; simp [hq]) e he) hk
    · obtain ⟨i, hi, rfl⟩ := List.mem_iff_getElem.mp he
      rw [List.length_take] at hi
      have hlt := hsorted.lt_of_lt_rank (k := key) (i := i) (by simp; omega) (by omega)
      simpa [View.keys] using hlt
  · intro e he
    rcases List.mem_append.mp he with he | he
    · obtain ⟨i, hi, rfl⟩ := List.mem_iff_getElem.mp he
      rw [List.length_drop] at hi
      have hle := hsorted.le_of_rank_le (k := key) (i := rank (T.view p).keys key + i)
        (by simp; omega) (by omega)
      simpa [View.keys] using hle
    · obtain ⟨q, hq, he⟩ := Tree.mem_entriesOf.mp he
      have hlt := (hafter q hq).lt (e := (key, [])) (f := e) hk
        (hcov q (by rw [heq]; simp [hq]) e he)
      exact hlt.le

/-- The leaf before another one ends where that begins. -/
lemma last_before (heq : leaves = as ++ p :: bs) :
    (as = [] ∧ (T.view p).lower = []) ∨ ((T.view p).lower ≠ [] ∧
      ∃ as' q, as = as' ++ [q] ∧ T.level q = some 0 ∧ T.Covers q (T.view p).lower) := by
  have hpw := h.pairwise hT
  have htiling := h.tiling
  rw [heq] at htiling hpw
  rcases htiling.before with hfirst | ⟨as', q, rfl, hq⟩
  · exact Or.inl hfirst
  · have hlq : T.level q = some 0 := (h.mem q).mp (by rw [heq]; simp)
    have hbefore : T.LeafBefore q p :=
      (List.pairwise_append.mp hpw).2.2 q (by simp) p List.mem_cons_self
    have hne : (T.view q).upper ≠ [] := hbefore.1
    refine Or.inr ⟨hq ▸ hne, as', q, rfl, hlq, ?_⟩
    rw [← hq]
    exact ⟨Or.inr ((hT.ok hlq).fences.resolve_left hne), Or.inr le_rfl⟩

end Row

end Tree

end MemSafeDB
