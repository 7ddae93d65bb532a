import MemSafeDB.Lib.Probing

/-!
# Keys on their way to a cell

Several keys look for a cell at the same time, and some may be at the same place. A key passes a
place only when another key is there. Then, in every order of the moves, over no boundary more keys
are pushed than when the whole universe is inserted one after the other, so that no key comes to
the gap.
-/

namespace Lib
namespace Probing

variable {K : Type} {hash place park : K → ℕ} {A U : Finset K} {m : ℕ}

/-- The keys `A` have come to `place`, and over no boundary more of them are pushed than in
`park`. -/
structure Crowded (hash place park : K → ℕ) (A U : Finset K) : Prop where
  subset : A ⊆ U
  hash_le : ∀ k ∈ A, hash k ≤ place k
  crossing_le : ∀ j, (crossing hash place A j).card ≤ (crossing hash park U j).card

namespace Crowded

lemma nobody : Crowded hash place park ∅ U :=
  ⟨Finset.empty_subset U, fun _ h => absurd h (Finset.notMem_empty _), fun j => by simp [crossing]⟩

/-- No key has come to `m`. -/
lemma place_lt (hc : Crowded hash place park A U) (hp : Parked hash park U m) {k : K}
    (hk : k ∈ A) : place k < m := by
  by_contra hge
  have hhash := hp.hash_le k (hc.subset hk)
  have hpark := hp.lt k (hc.subset hk)
  have hmem : k ∈ crossing hash place A m := Finset.mem_filter.mpr ⟨hk, by omega, by omega⟩
  have hnone : crossing hash park U m = ∅ := by
    refine Finset.filter_eq_empty_iff.mpr (fun q hq => ?_)
    have hlt := hp.lt q hq
    omega
  have hcard := hc.crossing_le m
  rw [hnone, Finset.card_empty, Nat.le_zero, Finset.card_eq_zero] at hcard
  rw [hcard] at hmem
  exact Finset.notMem_empty k hmem

/-- Only the places of the keys `A` matter. -/
lemma congr {place' : K → ℕ} (hc : Crowded hash place park A U)
    (h : ∀ k ∈ A, place' k = place k) : Crowded hash place' park A U := by
  refine ⟨hc.subset, fun k hk => (hc.hash_le k hk).trans (h k hk).ge, fun j => ?_⟩
  have heq : crossing hash place' A j = crossing hash place A j := by
    refine Finset.filter_congr (fun k hk => ?_)
    rw [h k hk]
  rw [heq]
  exact hc.crossing_le j

variable [DecidableEq K]

/-- A new key comes to its hash. -/
lemma join (hc : Crowded hash place park A U) {p : K} (hp : p ∈ U) (hplace : place p = hash p) :
    Crowded hash place park (insert p A) U := by
  refine ⟨Finset.insert_subset hp hc.subset, fun k hk => ?_, fun j => ?_⟩
  · rcases Finset.mem_insert.mp hk with rfl | hk
    · exact hplace.ge
    · exact hc.hash_le k hk
  · refine (Finset.card_le_card ?_).trans (hc.crossing_le j)
    intro k hk
    obtain ⟨hmem, hlt, hle⟩ := Finset.mem_filter.mp hk
    rcases Finset.mem_insert.mp hmem with rfl | hmem
    · omega
    · exact Finset.mem_filter.mpr ⟨hmem, hlt, hle⟩

lemma leave (hc : Crowded hash place park A U) (p : K) :
    Crowded hash place park (A.erase p) U := by
  have hsub : A.erase p ⊆ A := Finset.erase_subset p A
  refine ⟨hsub.trans hc.subset, fun k hk => hc.hash_le k (hsub hk), fun j => ?_⟩
  exact (Finset.card_le_card (Finset.filter_subset_filter _ hsub)).trans (hc.crossing_le j)

/-- The keys `X` have passed place `i`. -/
def passing (place : K → ℕ) (X : Finset K) (i : ℕ) (k : K) : ℕ := if k ∈ X then i + 1 else place k

lemma passing_mem {X : Finset K} {i : ℕ} {k : K} (h : k ∈ X) : passing place X i k = i + 1 :=
  if_pos h

lemma passing_notMem {X : Finset K} {i : ℕ} {k : K} (h : k ∉ X) : passing place X i k = place k :=
  if_neg h

/-- Keys pass a place at which another key stays. -/
theorem push (hc : Crowded hash place park A U) (hp : Parked hash park U m) {X : Finset K}
    {w : K} {i : ℕ} (hX : ∀ x ∈ X, x ∈ A ∧ place x = i) (hw : w ∈ A) (hwi : place w = i)
    (hwX : w ∉ X) : Crowded hash (passing place X i) park A U := by
  have hplace : ∀ {j k}, j ≠ i + 1 → (j ≤ passing place X i k ↔ j ≤ place k) := by
    intro j k hj
    by_cases hk : k ∈ X
    · rw [passing_mem hk, (hX k hk).2]
      omega
    · rw [passing_notMem hk]
  have hfrom : ∀ {k}, i + 1 ≤ passing place X i k → i ≤ place k := by
    intro k hle
    by_cases hk : k ∈ X
    · exact (hX k hk).2.ge
    · rw [passing_notMem hk] at hle
      omega
  refine ⟨hc.subset, fun k hk => ?_, fun j => ?_⟩
  · have hle := hc.hash_le k hk
    by_cases hkX : k ∈ X
    · rw [passing_mem hkX]
      have hi := (hX k hkX).2
      omega
    · rwa [passing_notMem hkX]
  by_cases hj : j = i + 1
  · -- the keys that are pushed over the place and the one that stays were all pushed to it
    subst hj
    have hstay : w ∉ crossing hash (passing place X i) A (i + 1) := by
      intro hmem
      have hle := (Finset.mem_filter.mp hmem).2.2
      rw [passing_notMem hwX, hwi] at hle
      omega
    have hsub : insert w (crossing hash (passing place X i) A (i + 1)) ⊆
        crossing hash place A i ∪ U.filter (fun k => i ≤ hash k ∧ hash k < i + 1) := by
      intro k hk
      have hcame : k ∈ A ∧ hash k < i + 1 ∧ i ≤ place k := by
        rcases Finset.mem_insert.mp hk with rfl | hk
        · have hle := hc.hash_le k hw
          exact ⟨hw, by omega, hwi.ge⟩
        · obtain ⟨hA, hlt, hle⟩ := Finset.mem_filter.mp hk
          exact ⟨hA, hlt, hfrom hle⟩
      rw [Finset.mem_union]
      rcases Nat.lt_or_ge (hash k) i with hlt | hge
      · exact Or.inl (Finset.mem_filter.mpr ⟨hcame.1, hlt, hcame.2.2⟩)
      · exact Or.inr (Finset.mem_filter.mpr ⟨hc.subset hcame.1, hge, hcame.2.1⟩)
    have hcard := (Finset.card_le_card hsub).trans (Finset.card_union_le _ _)
    rw [Finset.card_insert_of_notMem hstay] at hcard
    have hbase := hc.crossing_le i
    have hparked := hp.card_le (Nat.lt_add_one i)
    omega
  · -- no other boundary lies between the place and the next one
    refine (Finset.card_le_card ?_).trans (hc.crossing_le j)
    intro k hk
    obtain ⟨hA, hlt, hle⟩ := Finset.mem_filter.mp hk
    exact Finset.mem_filter.mpr ⟨hA, hlt, (hplace hj).mp hle⟩

end Crowded

/-! ## Tables -/

/-- The table holds the keys `L`. The keys `A`, these and the ones that look for a cell, have come to
a distance from their hash over which no cell is free, and the gap `e` is free. -/
structure Contended (M : ℕ) (hash : K → ℕ) (U : Finset K) (e : ℕ) (park : K → ℕ) (t : ℕ → Cell K)
    (L A : Finset K) (disp : K → ℕ) : Prop where
  gap : t e = .free
  subset : L ⊆ A
  live : ∀ k ∈ L, t ((hash k + disp k) % M) = .key k
  only : ∀ i, i < M → ∀ k, t i = .key k → k ∈ L ∧ (hash k + disp k) % M = i
  path : ∀ k ∈ A, ∀ i, i < disp k → t ((hash k + i) % M) ≠ .free
  crowded : Crowded (fun k => rel M e (hash k)) (fun k => rel M e (hash k) + disp k) park A U

variable {M e : ℕ} {t : ℕ → Cell K} {L : Finset K} {disp : K → ℕ} {p w : K}

lemma contended_free (M : ℕ) (hash : K → ℕ) (U : Finset K) (e : ℕ) (park disp : K → ℕ) :
    Contended M hash U e park (fun _ => Cell.free) ∅ ∅ disp where
  gap := rfl
  subset := Finset.empty_subset ∅
  live := fun _ h => absurd h (Finset.notMem_empty _)
  only := fun _ _ _ h => by cases h
  path := fun _ h => absurd h (Finset.notMem_empty _)
  crowded := .nobody

/-- The keys `X` have passed a cell. -/
def advanced [DecidableEq K] (disp : K → ℕ) (X : Finset K) (k : K) : ℕ :=
  if k ∈ X then disp k + 1 else disp k

namespace Contended

section

variable (hc : Contended M hash U e park t L A disp) (hg : Gap M hash U e park)
include hc hg

/-- A path that leads over no free cell does not lead over the gap. -/
lemma rel_path {d : ℕ} (h : ∀ i, i < d → t ((hash p + i) % M) ≠ .free) :
    rel M e (hash p + d) = rel M e (hash p) + d :=
  rel_add hg.lt (fun i hi heq => h i hi (heq ▸ hc.gap))

lemma rel_cell (hp : p ∈ A) : rel M e (hash p + disp p) = rel M e (hash p) + disp p :=
  hc.rel_path hg (hc.path p hp)

/-- The path is shorter than the circle. -/
lemma path_lt {d : ℕ} (h : ∀ i, i < d → t ((hash p + i) % M) ≠ .free) : d < M := by
  have hrel := hc.rel_path hg h
  have hlt := hg.lt
  have hlast : rel M e (hash p + d) < M := rel_lt (by omega) _
  omega

/-- No key comes to the gap. -/
lemma cell_ne_gap (hp : p ∈ A) : (hash p + disp p) % M ≠ e := by
  intro heq
  have hlt := hc.crowded.place_lt hg.parked hp
  rw [← hc.rel_cell hg hp, rel_congr (heq.trans (Nat.mod_eq_of_lt hg.lt).symm),
    rel_self hg.lt] at hlt
  exact lt_irrefl _ hlt

/-- Keys that have come to one cell have come to one place. -/
lemma place_eq (hp : p ∈ A) (hw : w ∈ A) (h : (hash w + disp w) % M = (hash p + disp p) % M) :
    rel M e (hash w) + disp w = rel M e (hash p) + disp p := by
  rw [← hc.rel_cell hg hw, ← hc.rel_cell hg hp, rel_congr h]

/-- On the path of a key, no other cell than its own holds it. -/
lemma disp_eq (hp : p ∈ A) {d : ℕ} (hd : ∀ i, i < d → t ((hash p + i) % M) ≠ .free)
    (h : (hash p + d) % M = (hash p + disp p) % M) : disp p = d := by
  have hrel := rel_congr (e := e) h
  rw [hc.rel_path hg hd, hc.rel_cell hg hp] at hrel
  omega

end

/-- A key in the table is not on its way. -/
lemma ne_key (hc : Contended M hash U e park t L A disp) (hM : 0 < M) (hp : p ∉ L) (x : ℕ) :
    t (x % M) ≠ .key p := fun h => hp (hc.only _ (Nat.mod_lt _ hM) p h).1

/-- Only the distances of the keys `A` matter. -/
lemma congr {disp' : K → ℕ} (hc : Contended M hash U e park t L A disp)
    (h : ∀ k ∈ A, disp' k = disp k) : Contended M hash U e park t L A disp' where
  gap := hc.gap
  subset := hc.subset
  live := fun k hk => by rw [h k (hc.subset hk), hc.live k hk]
  only := by
    intro i hi k hk
    obtain ⟨hL, hcell⟩ := hc.only i hi k hk
    exact ⟨hL, by rwa [h k (hc.subset hL)]⟩
  path := fun k hk i hi => hc.path k hk i (h k hk ▸ hi)
  crowded := hc.crowded.congr (fun k hk => by rw [h k hk])

variable [DecidableEq K]

/-- A key begins to look for a cell. -/
theorem arrive (hc : Contended M hash U e park t L A disp) (hp : p ∈ U) (hpA : p ∉ A) :
    Contended M hash U e park t L (insert p A) (Function.update disp p 0) := by
  have hself : Function.update disp p 0 p = 0 := Function.update_self ..
  have hold : Contended M hash U e park t L A (Function.update disp p 0) :=
    hc.congr (fun k hk => Function.update_of_ne (ne_of_mem_of_not_mem hk hpA) 0 disp)
  refine ⟨hc.gap, hc.subset.trans (Finset.subset_insert p A), hold.live, hold.only, ?_,
    hold.crowded.join hp (by rw [hself, Nat.add_zero])⟩
  intro k hk i hi
  rcases Finset.mem_insert.mp hk with rfl | hk
  · rw [hself] at hi
    omega
  · exact hold.path k hk i hi

/-- Keys pass a cell that is not free, and to which another key has come. -/
theorem advance (hc : Contended M hash U e park t L A disp) (hg : Gap M hash U e park)
    {X : Finset K} (hw : w ∈ A) (hwX : w ∉ X)
    (hX : ∀ x ∈ X, x ∈ A ∧ x ∉ L ∧ (hash x + disp x) % M = (hash w + disp w) % M)
    (hcell : t ((hash w + disp w) % M) ≠ .free) :
    Contended M hash U e park t L A (advanced disp X) := by
  have hlive : ∀ k ∈ L, advanced disp X k = disp k := fun k hk => if_neg (fun h => (hX k h).2.1 hk)
  refine ⟨hc.gap, hc.subset, fun k hk => by rw [hlive k hk, hc.live k hk], ?_, ?_, ?_⟩
  · intro i hi k hk
    obtain ⟨hL, hcell⟩ := hc.only i hi k hk
    exact ⟨hL, by rwa [hlive k hL]⟩
  · intro k hk i hi
    by_cases hkX : k ∈ X
    · rw [advanced, if_pos hkX] at hi
      rcases Nat.lt_succ_iff_lt_or_eq.mp hi with hlt | rfl
      · exact hc.path k hk i hlt
      · rw [(hX k hkX).2.2]
        exact hcell
    · rw [advanced, if_neg hkX] at hi
      exact hc.path k hk i hi
  · have hpush := hc.crowded.push hg.parked
      (fun x hx => ⟨(hX x hx).1, hc.place_eq hg hw (hX x hx).1 (hX x hx).2.2⟩) hw rfl hwX
    refine hpush.congr (fun k hk => ?_)
    by_cases hkX : k ∈ X
    · rw [advanced, if_pos hkX, Crowded.passing_mem hkX,
        ← hc.place_eq hg hw (hX k hkX).1 (hX k hkX).2.2, Nat.add_assoc]
    · rw [advanced, if_neg hkX, Crowded.passing_notMem hkX]

/-- A key takes the cell that it has come to, if it holds no other key. -/
theorem settle (hc : Contended M hash U e park t L A disp) (hg : Gap M hash U e park) (hp : p ∈ A)
    (hpL : p ∉ L) (hopen : ∀ q, t ((hash p + disp p) % M) ≠ .key q) :
    Contended M hash U e park (Function.update t ((hash p + disp p) % M) (.key p)) (insert p L) A
      disp := by
  refine ⟨?_, Finset.insert_subset hp hc.subset, ?_, ?_, ?_, hc.crowded⟩
  · rw [Function.update_of_ne (hc.cell_ne_gap hg hp).symm, hc.gap]
  · intro k hk
    rcases Finset.mem_insert.mp hk with rfl | hk
    · exact Function.update_self ..
    · rw [Function.update_of_ne, hc.live k hk]
      intro heq
      exact hopen k (heq ▸ hc.live k hk)
  · intro i hi k hk
    by_cases heq : i = (hash p + disp p) % M
    · subst heq
      rw [Function.update_self, Cell.key.injEq] at hk
      subst hk
      exact ⟨Finset.mem_insert_self p L, rfl⟩
    · rw [Function.update_of_ne heq] at hk
      obtain ⟨hL, hcell⟩ := hc.only i hi k hk
      exact ⟨Finset.mem_insert_of_mem hL, hcell⟩
  · intro k hk i hi
    by_cases heq : (hash k + i) % M = (hash p + disp p) % M
    · rw [heq, Function.update_self]
      exact fun h => by cases h
    · rw [Function.update_of_ne heq]
      exact hc.path k hk i hi

/-- A key of the table is deleted. -/
theorem delete (hc : Contended M hash U e park t L A disp) (hp : p ∈ L) :
    Contended M hash U e park (Function.update t ((hash p + disp p) % M) .deleted) (L.erase p)
      (A.erase p) disp := by
  have hlive := hc.live p hp
  refine ⟨?_, Finset.erase_subset_erase p hc.subset, ?_, ?_, ?_, hc.crowded.leave p⟩
  · rw [Function.update_of_ne, hc.gap]
    intro heq
    rw [← heq, hc.gap] at hlive
    cases hlive
  · intro k hk
    obtain ⟨hne, hL⟩ := Finset.mem_erase.mp hk
    rw [Function.update_of_ne, hc.live k hL]
    intro heq
    have hkcell := hc.live k hL
    rw [heq, hlive, Cell.key.injEq] at hkcell
    exact hne hkcell.symm
  · intro i hi k hk
    by_cases heq : i = (hash p + disp p) % M
    · subst heq
      rw [Function.update_self] at hk
      cases hk
    · rw [Function.update_of_ne heq] at hk
      obtain ⟨hL, hcell⟩ := hc.only i hi k hk
      refine ⟨Finset.mem_erase.mpr ⟨?_, hL⟩, hcell⟩
      rintro rfl
      exact heq hcell.symm
  · intro k hk i hi
    by_cases heq : (hash k + i) % M = (hash p + disp p) % M
    · rw [heq, Function.update_self]
      exact fun h => by cases h
    · rw [Function.update_of_ne heq]
      exact hc.path k (Finset.mem_of_mem_erase hk) i hi

end Contended

end Probing
end Lib
