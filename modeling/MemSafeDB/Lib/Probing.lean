import Mathlib.Data.Finset.Card
import Mathlib.Data.Finset.Union
import Mathlib.Order.Interval.Finset.Nat

/-!
# Linear probing with deletions

Keys of a finite universe live in a circle of cells. A key goes to the first cell from its hash
on that holds no key, and a cell whose key is deleted never becomes free again. When the universe
has fewer keys than the circle has cells, one cell stays free in every order of insertions and
deletions: it is a cell that stays free when the whole universe is inserted, and no key is ever
pushed over it.
-/

namespace Lib
namespace Probing

variable {K : Type}

/-! ## Keys on a line -/

/-- The keys with a hash before `j` and a place from `j` on. -/
def crossing (hash place : K → ℕ) (S : Finset K) (j : ℕ) : Finset K :=
  S.filter (fun k => hash k < j ∧ j ≤ place k)

/-- All keys of the universe have places of their own before `m`, none of them before its hash. -/
structure Parked (hash park : K → ℕ) (U : Finset K) (m : ℕ) : Prop where
  injOn : Set.InjOn park U
  hash_le : ∀ k ∈ U, hash k ≤ park k
  lt : ∀ k ∈ U, park k < m

/-- The keys `L` lie at `place`, and over no boundary more of them are pushed than in `park`. -/
structure Covered (hash place park : K → ℕ) (L U : Finset K) : Prop where
  subset : L ⊆ U
  injOn : Set.InjOn place L
  hash_le : ∀ k ∈ L, hash k ≤ place k
  crossing_le : ∀ j, (crossing hash place L j).card ≤ (crossing hash park U j).card

variable {hash place park : K → ℕ} {L U : Finset K} {m : ℕ}

lemma covered_empty : Covered hash place park ∅ U :=
  ⟨Finset.empty_subset U, fun _ h => absurd h (by simp), fun _ h => absurd h (by simp),
    fun j => by simp [crossing]⟩

/-- No key is pushed to `m`. -/
lemma Covered.place_lt (hc : Covered hash place park L U) (hp : Parked hash park U m) {k : K}
    (hk : k ∈ L) : place k < m := by
  by_contra hge
  have hmem : k ∈ crossing hash place L m := by
    have hhash := hp.hash_le k (hc.subset hk)
    have hpark := hp.lt k (hc.subset hk)
    exact Finset.mem_filter.mpr ⟨hk, by omega, by omega⟩
  have hnone : crossing hash park U m = ∅ := by
    refine Finset.filter_eq_empty_iff.mpr (fun q hq => ?_)
    have hpark := hp.lt q hq
    omega
  have hcard := hc.crossing_le m
  rw [hnone, Finset.card_empty, Nat.le_zero, Finset.card_eq_zero] at hcard
  rw [hcard] at hmem
  exact absurd hmem (Finset.notMem_empty k)

/-- The keys with a place from `h` on and before `j`. -/
def between (place : K → ℕ) (S : Finset K) (h j : ℕ) : Finset K :=
  S.filter (fun k => h ≤ place k ∧ place k < j)

lemma card_between_le (hinj : Set.InjOn place L) (h j : ℕ) : (between place L h j).card ≤ j - h := by
  have hsub : (between place L h j).image place ⊆ Finset.Ico h j := by
    intro x hx
    obtain ⟨k, hk, rfl⟩ := Finset.mem_image.mp hx
    exact Finset.mem_Ico.mpr (Finset.mem_filter.mp hk).2
  have hcard := Finset.card_le_card hsub
  have hinj' : Set.InjOn place (between place L h j) :=
    hinj.mono (fun k hk => (Finset.mem_filter.mp hk).1)
  rwa [Finset.card_image_of_injOn hinj', Nat.card_Ico] at hcard

lemma le_card_between {h j : ℕ} (hfull : ∀ i, h ≤ i → i < j → ∃ q ∈ L, place q = i) :
    j - h ≤ (between place L h j).card := by
  have hsub : Finset.Ico h j ⊆ (between place L h j).image place := by
    intro i hi
    obtain ⟨hle, hlt⟩ := Finset.mem_Ico.mp hi
    obtain ⟨q, hq, rfl⟩ := hfull i hle hlt
    exact Finset.mem_image.mpr ⟨q, Finset.mem_filter.mpr ⟨hq, hle, hlt⟩, rfl⟩
  have hcard := (Finset.card_le_card hsub).trans Finset.card_image_le
  rwa [Nat.card_Ico] at hcard

variable [DecidableEq K]

/-- Keys that are pushed over `j` in `park` or lie before it, counted from `h` on. -/
lemma Parked.card_le (hp : Parked hash park U m) {h j : ℕ} (hj : h < j) :
    (crossing hash park U h).card + (U.filter (fun k => h ≤ hash k ∧ hash k < j)).card ≤
      (crossing hash park U j).card + (j - h) := by
  have hdisj : Disjoint (crossing hash park U h) (U.filter (fun k => h ≤ hash k ∧ hash k < j)) := by
    rw [Finset.disjoint_left]
    intro k hk hk'
    have h1 := (Finset.mem_filter.mp hk).2
    have h2 := (Finset.mem_filter.mp hk').2
    omega
  have hsub : crossing hash park U h ∪ U.filter (fun k => h ≤ hash k ∧ hash k < j) ⊆
      crossing hash park U j ∪ between park U h j := by
    intro k hk
    have hmem : k ∈ U ∧ hash k < j ∧ h ≤ park k := by
      rcases Finset.mem_union.mp hk with hk | hk
      · obtain ⟨hU, h1⟩ := Finset.mem_filter.mp hk
        exact ⟨hU, by omega, h1.2⟩
      · obtain ⟨hU, h1⟩ := Finset.mem_filter.mp hk
        exact ⟨hU, h1.2, h1.1.trans (hp.hash_le k hU)⟩
    refine Finset.mem_union.mpr ?_
    rcases Nat.lt_or_ge (park k) j with hlt | hge
    · exact Or.inr (Finset.mem_filter.mpr ⟨hmem.1, hmem.2.2, hlt⟩)
    · exact Or.inl (Finset.mem_filter.mpr ⟨hmem.1, hmem.2.1, hge⟩)
  have hcard := (Finset.card_le_card hsub).trans (Finset.card_union_le _ _)
  rw [Finset.card_union_of_disjoint hdisj] at hcard
  have hbetween := card_between_le hp.injOn h j
  omega

/-- Keys stay covered when a new key goes to the first place from its hash on that is not taken. -/
lemma Covered.insertKey (hc : Covered hash place park L U) (hpark : Parked hash park U m) {p : K}
    (hp : p ∈ U) (hpL : p ∉ L) {s : ℕ} (hle : hash p ≤ s)
    (hfull : ∀ i, hash p ≤ i → i < s → ∃ q ∈ L, place q = i) (hfree : ∀ q ∈ L, place q ≠ s) :
    Covered hash (Function.update place p s) park (insert p L) U := by
  have hself : Function.update place p s p = s := Function.update_self ..
  have hold : ∀ q ∈ L, Function.update place p s q = place q := by
    intro q hq
    refine Function.update_of_ne ?_ s place
    rintro rfl
    exact hpL hq
  refine ⟨Finset.insert_subset hp hc.subset, ?_, ?_, fun j => ?_⟩
  · rw [Finset.coe_insert, Set.injOn_insert (by simpa using hpL)]
    refine ⟨fun a ha b hb hab => ?_, ?_⟩
    · rw [hold a ha, hold b hb] at hab
      exact hc.injOn ha hb hab
    · rintro ⟨q, hq, heq⟩
      rw [hself, hold q hq] at heq
      exact hfree q hq heq
  · intro k hk
    rcases Finset.mem_insert.mp hk with rfl | hk
    · rw [hself]
      exact hle
    · rw [hold k hk]
      exact hc.hash_le k hk
  · by_cases hj : hash p < j ∧ j ≤ s
    · -- the places from the hash to `j` are taken, by keys that compete with those pushed over `j`
      have hdisj : Disjoint (crossing hash (Function.update place p s) (insert p L) j)
          (between place L (hash p) j) := by
        rw [Finset.disjoint_left]
        intro k hk hk'
        obtain ⟨hkL, hb⟩ := Finset.mem_filter.mp hk'
        have h1 := (Finset.mem_filter.mp hk).2
        rw [hold k hkL] at h1
        omega
      have hsub : crossing hash (Function.update place p s) (insert p L) j ∪
          between place L (hash p) j ⊆ crossing hash place L (hash p) ∪
            U.filter (fun k => hash p ≤ hash k ∧ hash k < j) := by
        intro k hk
        rw [Finset.mem_union] at hk ⊢
        rcases hk with hk | hk
        · obtain ⟨hins, h1⟩ := Finset.mem_filter.mp hk
          rcases Finset.mem_insert.mp hins with rfl | hkL
          · exact Or.inr (Finset.mem_filter.mpr ⟨hp, le_rfl, h1.1⟩)
          · rw [hold k hkL] at h1
            rcases Nat.lt_or_ge (hash k) (hash p) with hlt | hge
            · exact Or.inl (Finset.mem_filter.mpr ⟨hkL, hlt, by omega⟩)
            · exact Or.inr (Finset.mem_filter.mpr ⟨hc.subset hkL, hge, h1.1⟩)
        · obtain ⟨hkL, h1⟩ := Finset.mem_filter.mp hk
          have hh := hc.hash_le k hkL
          rcases Nat.lt_or_ge (hash k) (hash p) with hlt | hge
          · exact Or.inl (Finset.mem_filter.mpr ⟨hkL, hlt, h1.1⟩)
          · exact Or.inr (Finset.mem_filter.mpr ⟨hc.subset hkL, hge, by omega⟩)
      have hcard := (Finset.card_le_card hsub).trans (Finset.card_union_le _ _)
      rw [Finset.card_union_of_disjoint hdisj] at hcard
      have hfullj : j - hash p ≤ (between place L (hash p) j).card :=
        le_card_between (fun i h1 h2 => hfull i h1 (by omega))
      have hbase := hc.crossing_le (hash p)
      have hparked := hpark.card_le hj.1
      omega
    · -- the new key is not pushed over `j`
      have hsub : crossing hash (Function.update place p s) (insert p L) j ⊆
          crossing hash place L j := by
        intro k hk
        obtain ⟨hins, h1⟩ := Finset.mem_filter.mp hk
        rcases Finset.mem_insert.mp hins with rfl | hkL
        · rw [hself] at h1
          exact absurd h1 hj
        · rw [hold k hkL] at h1
          exact Finset.mem_filter.mpr ⟨hkL, h1⟩
      exact (Finset.card_le_card hsub).trans (hc.crossing_le j)

lemma Covered.eraseKey (hc : Covered hash place park L U) (p : K) :
    Covered hash place park (L.erase p) U := by
  have hsub : L.erase p ⊆ L := Finset.erase_subset p L
  refine ⟨hsub.trans hc.subset, hc.injOn.mono hsub, fun k hk => hc.hash_le k (hsub hk), fun j => ?_⟩
  exact (Finset.card_le_card (Finset.filter_subset_filter _ hsub)).trans (hc.crossing_le j)

/-! ## The circle -/

/-- The distance of cell `x` from the cell behind `e`, in a circle of `M` cells. -/
def rel (M e x : ℕ) : ℕ := (x + (M - 1 - e)) % M

variable {M e : ℕ}

lemma rel_lt (hM : 0 < M) (x : ℕ) : rel M e x < M := Nat.mod_lt _ hM

lemma rel_mod (x : ℕ) : rel M e (x % M) = rel M e x := Nat.mod_add_mod _ _ _

lemma rel_congr {x y : ℕ} (h : x % M = y % M) : rel M e x = rel M e y := by
  rw [← rel_mod x, h, rel_mod]

/-- Only `e` itself lies at the end of the line. -/
lemma mod_eq_of_rel (he : e < M) {x : ℕ} (h : rel M e x = M - 1) : x % M = e := by
  have hx : x % M < M := Nat.mod_lt _ (by omega)
  rw [← rel_mod, rel] at h
  rcases Nat.lt_or_ge (x % M + (M - 1 - e)) M with hlt | hge
  · rw [Nat.mod_eq_of_lt hlt] at h
    omega
  · rw [Nat.mod_eq_sub_mod hge, Nat.mod_eq_of_lt (by omega)] at h
    omega

lemma rel_self (he : e < M) : rel M e e = M - 1 := by
  rw [rel, Nat.mod_eq_of_lt (by omega)]
  omega

/-- Walking on from the place on the line leads back to the cell. -/
lemma rel_add_succ (he : e < M) (x : ℕ) : (rel M e x + (e + 1)) % M = x % M := by
  have hsum : x + (M - 1 - e) + (e + 1) = x + M := by omega
  rw [rel, Nat.mod_add_mod, hsum, Nat.add_mod_right]

lemma rel_inj (he : e < M) {x y : ℕ} (h : rel M e x = rel M e y) : x % M = y % M := by
  rw [← rel_add_succ he x, h, rel_add_succ he]

lemma rel_succ (he : e < M) {x : ℕ} (h : x % M ≠ e) : rel M e (x + 1) = rel M e x + 1 := by
  have hlt : rel M e x < M := rel_lt (by omega) x
  have hne : rel M e x ≠ M - 1 := fun hlast => h (mod_eq_of_rel he hlast)
  have hstep : rel M e (x + 1) = (rel M e x + 1) % M := by
    rw [rel, rel, Nat.mod_add_mod]
    congr 1
    omega
  rw [hstep, Nat.mod_eq_of_lt (by omega)]

/-- A path that does not lead over `e` is a path on the line. -/
lemma rel_add (he : e < M) {x d : ℕ} (h : ∀ i, i < d → (x + i) % M ≠ e) :
    rel M e (x + d) = rel M e x + d := by
  induction d with
  | zero => rfl
  | succ d ih =>
    rw [← Nat.add_assoc, rel_succ he (h d (Nat.lt_succ_self d)),
      ih (fun i hi => h i (Nat.lt_succ_of_lt hi)), Nat.add_assoc]

/-- Every cell lies on the path from every other one. -/
lemma exists_offset (h : ℕ) {x : ℕ} (hx : x < M) : ∃ d, d < M ∧ (h + d) % M = x := by
  have hh : h % M < M := Nat.mod_lt _ (by omega)
  refine ⟨(x + (M - h % M)) % M, Nat.mod_lt _ (by omega), ?_⟩
  have hsum : h % M + (x + (M - h % M)) = x + M := by omega
  rw [Nat.add_mod_mod, ← Nat.mod_add_mod, hsum, Nat.add_mod_right, Nat.mod_eq_of_lt hx]

/-! ## A cell that stays free -/

/-- The whole universe can be inserted one key after the other. -/
lemma exists_displacement (hash : K → ℕ) (U : Finset K) (hcard : U.card ≤ M) :
    ∃ disp : K → ℕ, Set.InjOn (fun k => (hash k + disp k) % M) U ∧
      ∀ k ∈ U, ∀ i, i < disp k → ∃ q ∈ U, (hash q + disp q) % M = (hash k + i) % M := by
  induction U using Finset.induction_on with
  | empty => exact ⟨fun _ => 0, fun _ h => absurd h (by simp), fun _ h => absurd h (by simp)⟩
  | insert p U hp ih =>
    rw [Finset.card_insert_of_notMem hp] at hcard
    obtain ⟨disp, hinj, hpath⟩ := ih (by omega)
    set taken := U.image (fun k => (hash k + disp k) % M) with htaken
    have hexists : ∃ d, (hash p + d) % M ∉ taken := by
      have hlt : taken.card < (Finset.range M).card := by
        rw [Finset.card_range]
        exact Finset.card_image_le.trans_lt (by omega)
      obtain ⟨x, hx, hfree⟩ := Finset.exists_mem_notMem_of_card_lt_card hlt
      obtain ⟨d, -, hd⟩ := exists_offset (hash p) (Finset.mem_range.mp hx)
      exact ⟨d, hd ▸ hfree⟩
    classical
    set d := Nat.find hexists with hd
    have hold : ∀ q ∈ U, Function.update disp p d q = disp q := by
      intro q hq
      refine Function.update_of_ne ?_ d disp
      rintro rfl
      exact hp hq
    have hself : Function.update disp p d p = d := Function.update_self ..
    refine ⟨Function.update disp p d, ?_, ?_⟩
    · rw [Finset.coe_insert, Set.injOn_insert (by simpa using hp)]
      refine ⟨fun a ha b hb hab => ?_, ?_⟩
      · simp only [hold a ha, hold b hb] at hab
        exact hinj ha hb hab
      · rintro ⟨q, hq, heq⟩
        simp only [hself, hold q hq] at heq
        exact Nat.find_spec hexists (heq ▸ Finset.mem_image.mpr ⟨q, hq, rfl⟩)
    · intro k hk i hi
      rcases Finset.mem_insert.mp hk with rfl | hkU
      · rw [hself] at hi
        obtain ⟨q, hq, heq⟩ := Finset.mem_image.mp (not_not.mp (Nat.find_min hexists hi))
        exact ⟨q, Finset.mem_insert_of_mem hq, by rw [hold q hq]; exact heq⟩
      · rw [hold k hkU] at hi
        obtain ⟨q, hq, heq⟩ := hpath k hkU i hi
        exact ⟨q, Finset.mem_insert_of_mem hq, by rw [hold q hq]; exact heq⟩

/-- `e` stays free when the universe is inserted; `park` are the places on the line behind `e`. -/
structure Gap (M : ℕ) (hash : K → ℕ) (U : Finset K) (e : ℕ) (park : K → ℕ) : Prop where
  lt : e < M
  parked : Parked (fun k => rel M e (hash k)) park U (M - 1)

/-- A universe with fewer keys than cells leaves a gap. -/
theorem exists_gap (hash : K → ℕ) (U : Finset K) (hcard : U.card < M) :
    ∃ e park, Gap M hash U e park := by
  obtain ⟨disp, hinj, hpath⟩ := exists_displacement hash U hcard.le
  set cell := fun k => (hash k + disp k) % M with hcell
  have hlt : (U.image cell).card < (Finset.range M).card := by
    rw [Finset.card_range]
    exact Finset.card_image_le.trans_lt hcard
  obtain ⟨e, he, hfree⟩ := Finset.exists_mem_notMem_of_card_lt_card hlt
  have heM : e < M := Finset.mem_range.mp he
  have hne : ∀ q ∈ U, cell q ≠ e := fun q hq h => hfree (Finset.mem_image.mpr ⟨q, hq, h⟩)
  have hline : ∀ k ∈ U, rel M e (cell k) = rel M e (hash k) + disp k := by
    intro k hk
    rw [hcell, rel_mod]
    refine rel_add heM (fun i hi heq => ?_)
    obtain ⟨q, hq, hqe⟩ := hpath k hk i hi
    exact hne q hq (hqe.trans heq)
  refine ⟨e, fun k => rel M e (cell k), heM, ?_, ?_, ?_⟩
  · intro a ha b hb hab
    have hmod := rel_inj heM hab
    simp only [hcell, Nat.mod_mod] at hmod
    exact hinj ha hb hmod
  · intro k hk
    rw [hline k hk]
    omega
  · intro k hk
    have hbound : rel M e (cell k) < M := rel_lt (by omega) _
    have hlast : rel M e (cell k) ≠ M - 1 := by
      intro heq
      have hmod := mod_eq_of_rel heM heq
      rw [hcell, Nat.mod_mod] at hmod
      exact hne k hk hmod
    omega

/-! ## Tables -/

omit [DecidableEq K]

/-- What a cell holds. -/
inductive Cell (K : Type) where
  | free
  | deleted
  | key (k : K)

/-- The table holds the keys `L`, each of them at a distance from its hash over which no cell is
free, and the gap `e` is free. -/
structure Sound (M : ℕ) (hash : K → ℕ) (U : Finset K) (e : ℕ) (park : K → ℕ) (t : ℕ → Cell K)
    (L : Finset K) (disp : K → ℕ) : Prop where
  gap : t e = .free
  live : ∀ k ∈ L, t ((hash k + disp k) % M) = .key k
  only : ∀ i, i < M → ∀ k, t i = .key k → k ∈ L ∧ (hash k + disp k) % M = i
  path : ∀ k ∈ L, ∀ i, i < disp k → t ((hash k + i) % M) ≠ .free
  covered : Covered (fun k => rel M e (hash k)) (fun k => rel M e (hash k) + disp k) park L U

variable {t : ℕ → Cell K} {disp : K → ℕ} {p : K} {d : ℕ}

lemma sound_free (M : ℕ) (hash : K → ℕ) (U : Finset K) (e : ℕ) (park disp : K → ℕ) :
    Sound M hash U e park (fun _ => Cell.free) ∅ disp :=
  ⟨rfl, fun _ h => absurd h (Finset.notMem_empty _), fun _ _ _ h => (by cases h),
    fun _ h => absurd h (Finset.notMem_empty _), covered_empty⟩

namespace Sound

/-- The place of a key on the line belongs to its cell. -/
lemma rel_cell (hs : Sound M hash U e park t L disp) (he : e < M) {k : K} (hk : k ∈ L) :
    rel M e (hash k + disp k) = rel M e (hash k) + disp k :=
  rel_add he (fun i hi heq => hs.path k hk i hi (heq ▸ hs.gap))

section

variable [DecidableEq K]

/-- A key that is not in the table goes to the first cell from its hash on that holds no key. -/
theorem insertKey (hs : Sound M hash U e park t L disp) (hg : Gap M hash U e park) (hp : p ∈ U)
    (hpL : p ∉ L) (hkeys : ∀ i, i < d → ∃ q, t ((hash p + i) % M) = .key q)
    (hopen : ∀ q, t ((hash p + d) % M) ≠ .key q) :
    Sound M hash U e park (Function.update t ((hash p + d) % M) (.key p)) (insert p L)
      (Function.update disp p d) := by
  have he := hg.lt
  have hM : 0 < M := by omega
  have hcell : (hash p + d) % M < M := Nat.mod_lt _ hM
  have hself : Function.update disp p d p = d := Function.update_self ..
  have hold : ∀ q ∈ L, Function.update disp p d q = disp q := by
    intro q hq
    refine Function.update_of_ne ?_ d disp
    rintro rfl
    exact hpL hq
  have hpath : ∀ i, i < d → (hash p + i) % M ≠ e := by
    intro i hi heq
    obtain ⟨q, hq⟩ := hkeys i hi
    rw [heq, hs.gap] at hq
    cases hq
  have hline := rel_add he hpath
  have hplace : (fun k => rel M e (hash k) + Function.update disp p d k) =
      Function.update (fun k => rel M e (hash k) + disp k) p (rel M e (hash p) + d) := by
    funext k
    by_cases hk : k = p
    · subst hk
      rw [hself, Function.update_self]
    · rw [Function.update_of_ne hk, Function.update_of_ne hk]
  have hcovered : Covered (fun k => rel M e (hash k))
      (fun k => rel M e (hash k) + Function.update disp p d k) park (insert p L) U := by
    rw [hplace]
    refine hs.covered.insertKey hg.parked hp hpL (Nat.le_add_right _ _) ?_ ?_
    · intro i hle hlt
      obtain ⟨q, hq⟩ := hkeys (i - rel M e (hash p)) (by omega)
      obtain ⟨hqL, hqcell⟩ := hs.only _ (Nat.mod_lt _ hM) q hq
      refine ⟨q, hqL, ?_⟩
      rw [← hs.rel_cell he hqL, rel_congr hqcell, rel_add he (fun j hj => hpath j (by omega))]
      omega
    · intro q hq heq
      rw [← hs.rel_cell he hq, ← hline] at heq
      exact hopen q (rel_inj he heq ▸ hs.live q hq)
  have hgap : (hash p + d) % M ≠ e := by
    have hlt := hcovered.place_lt hg.parked (Finset.mem_insert_self p L)
    rw [hself, ← hline] at hlt
    intro heq
    rw [rel_congr (heq.trans (Nat.mod_eq_of_lt he).symm), rel_self he] at hlt
    exact lt_irrefl _ hlt
  refine ⟨?_, ?_, ?_, ?_, hcovered⟩
  · rw [Function.update_of_ne hgap.symm]
    exact hs.gap
  · intro k hk
    rcases Finset.mem_insert.mp hk with rfl | hkL
    · rw [hself, Function.update_self]
    · have hkcell := hs.live k hkL
      rw [hold k hkL, Function.update_of_ne]
      · exact hkcell
      · intro heq
        rw [heq] at hkcell
        exact hopen k hkcell
  · intro i hi k hk
    by_cases heq : i = (hash p + d) % M
    · subst heq
      rw [Function.update_self, Cell.key.injEq] at hk
      subst hk
      exact ⟨Finset.mem_insert_self p L, by rw [hself]⟩
    · rw [Function.update_of_ne heq] at hk
      obtain ⟨hkL, hkcell⟩ := hs.only i hi k hk
      exact ⟨Finset.mem_insert_of_mem hkL, by rw [hold k hkL]; exact hkcell⟩
  · intro k hk i hi
    by_cases heq : (hash k + i) % M = (hash p + d) % M
    · rw [heq, Function.update_self]
      exact fun h => by cases h
    · rw [Function.update_of_ne heq]
      rcases Finset.mem_insert.mp hk with rfl | hkL
      · rw [hself] at hi
        obtain ⟨q, hq⟩ := hkeys i hi
        rw [hq]
        exact fun h => by cases h
      · rw [hold k hkL] at hi
        exact hs.path k hkL i hi

/-- A key that is deleted leaves a cell that is not free. -/
theorem eraseKey (hs : Sound M hash U e park t L disp) (hp : p ∈ L) :
    Sound M hash U e park (Function.update t ((hash p + disp p) % M) .deleted) (L.erase p)
      disp := by
  have hlive := hs.live p hp
  have hother : ∀ k ∈ L.erase p, (hash k + disp k) % M ≠ (hash p + disp p) % M := by
    intro k hk heq
    obtain ⟨hne, hkL⟩ := Finset.mem_erase.mp hk
    have hkcell := hs.live k hkL
    rw [heq, hlive, Cell.key.injEq] at hkcell
    exact hne hkcell.symm
  refine ⟨?_, ?_, ?_, ?_, hs.covered.eraseKey p⟩
  · rw [Function.update_of_ne, hs.gap]
    intro heq
    rw [← heq, hs.gap] at hlive
    cases hlive
  · intro k hk
    rw [Function.update_of_ne (hother k hk)]
    exact hs.live k (Finset.mem_of_mem_erase hk)
  · intro i hi k hk
    by_cases heq : i = (hash p + disp p) % M
    · subst heq
      rw [Function.update_self] at hk
      cases hk
    · rw [Function.update_of_ne heq] at hk
      obtain ⟨hkL, hkcell⟩ := hs.only i hi k hk
      refine ⟨Finset.mem_erase.mpr ⟨?_, hkL⟩, hkcell⟩
      rintro rfl
      exact heq hkcell.symm
  · intro k hk i hi
    by_cases heq : (hash k + i) % M = (hash p + disp p) % M
    · rw [heq, Function.update_self]
      exact fun h => by cases h
    · rw [Function.update_of_ne heq]
      exact hs.path k (Finset.mem_of_mem_erase hk) i hi

end

/-- From every hash on, there is a first cell that holds no key. -/
lemma exists_open (hs : Sound M hash U e park t L disp) (he : e < M) (h : ℕ) :
    ∃ d, d < M ∧ (∀ i, i < d → ∃ q, t ((h + i) % M) = .key q) ∧
      ∀ q, t ((h + d) % M) ≠ .key q := by
  classical
  obtain ⟨d, hd, hde⟩ := exists_offset h he
  have hexists : ∃ d, ∀ q, t ((h + d) % M) ≠ .key q := by
    refine ⟨d, fun q hq => ?_⟩
    rw [hde, hs.gap] at hq
    cases hq
  have hle : Nat.find hexists ≤ d := by
    refine Nat.find_min' hexists (fun q hq => ?_)
    rw [hde, hs.gap] at hq
    cases hq
  refine ⟨Nat.find hexists, by omega, fun i hi => ?_, Nat.find_spec hexists⟩
  have hnot := Nat.find_min hexists hi
  simpa only [not_forall, not_not] using hnot

/-- From every hash on, there is a first free cell. -/
lemma exists_free (hs : Sound M hash U e park t L disp) (he : e < M) (h : ℕ) :
    ∃ d, d < M ∧ (∀ i, i < d → t ((h + i) % M) ≠ .free) ∧ t ((h + d) % M) = .free := by
  classical
  obtain ⟨d, hd, hde⟩ := exists_offset h he
  have hexists : ∃ d, t ((h + d) % M) = .free := ⟨d, by rw [hde, hs.gap]⟩
  have hle : Nat.find hexists ≤ d := Nat.find_min' hexists (by rw [hde, hs.gap])
  exact ⟨Nat.find hexists, by omega, fun i hi => Nat.find_min hexists hi, Nat.find_spec hexists⟩

/-- The path to a key leads neither over a free cell nor over the key itself. -/
lemma disp_first (hs : Sound M hash U e park t L disp) (he : e < M) (hp : p ∈ L) {i : ℕ}
    (hi : i < disp p) : t ((hash p + i) % M) ≠ .free ∧ t ((hash p + i) % M) ≠ .key p := by
  refine ⟨hs.path p hp i hi, fun heq => ?_⟩
  obtain ⟨-, hcell⟩ := hs.only _ (Nat.mod_lt _ (by omega)) p heq
  have hrel := rel_congr (e := e) hcell
  rw [hs.rel_cell he hp,
    rel_add he (fun j hj hje => hs.path p hp j (by omega) (hje ▸ hs.gap))] at hrel
  omega

end Sound

end Probing
end Lib
