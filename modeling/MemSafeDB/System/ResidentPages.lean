import MemSafeDB.BTree.Node
import MemSafeDB.Lib.Probing

/-!
# The set of resident pages

`ResidentPageSet` is an open-addressing hash table of page ids: `insert` takes the first slot from
the hash on that is empty or a tombstone, `remove` leaves a tombstone, and no tombstone becomes an
empty slot again. Page ids are below `physCount`, and the table has more slots than there are page
ids, so some slot stays empty whatever is inserted and removed.
-/

namespace MemSafeDB
open Lib Lib.Probing

/-- Multiplication of two `u64`. -/
def mul64 (a b : Nat) : Nat := a * b % 2 ^ 64

/-- `ht` and `mask` as `init` leaves them; the clock position plays no part in the operations. -/
structure ResidentPageSet where
  ht : Nat → PID
  count : Nat
  mask : Nat

namespace ResidentPageSet

def empty : PID := 2 ^ 64 - 1

def tombstone : PID := 2 ^ 64 - 2

/-- `__builtin_clzl`, for `x ≠ 0`. -/
def clzl (x : Nat) : Nat := 63 - Nat.log2 x

def nextPow2 (x : Nat) : Nat := 1 <<< (64 - clzl (x - 1))

def init (maxCount : Nat) : ResidentPageSet :=
  let count := nextPow2 (maxCount * 3 / 2)
  { ht := fun _ => empty, count := count, mask := count - 1 }

def hash (k : PID) : Nat :=
  let m := 0xc6a4a7935bd1e995
  let r := 47
  let h := 0x8445d61a4e774912 ^^^ mul64 8 m
  let k := mul64 k m
  let k := k ^^^ (k >>> r)
  let k := mul64 k m
  let h := h ^^^ k
  let h := mul64 h m
  let h := h ^^^ (h >>> r)
  let h := mul64 h m
  h ^^^ (h >>> r)

def store (s : ResidentPageSet) (pos : Nat) (pid : PID) : ResidentPageSet :=
  { s with ht := Function.update s.ht pos pid }

/-- The loop of `insert`, for at most `fuel` rounds. -/
def insertLoop (s : ResidentPageSet) (pid : PID) :
    Nat → Nat → Option (Except Fault ResidentPageSet)
  | 0, _ => none
  | fuel + 1, pos =>
    let curr := s.ht pos
    if curr = pid then some (.error (.assertion .residentFresh))
    else if curr = empty ∨ curr = tombstone then some (.ok (s.store pos pid))
    else s.insertLoop pid fuel ((pos + 1) &&& s.mask)

def insert (s : ResidentPageSet) (fuel : Nat) (pid : PID) :
    Option (Except Fault ResidentPageSet) :=
  s.insertLoop pid fuel (hash pid &&& s.mask)

/-- The loop of `remove`, for at most `fuel` rounds. -/
def removeLoop (s : ResidentPageSet) (pid : PID) :
    Nat → Nat → Option (Bool × ResidentPageSet)
  | 0, _ => none
  | fuel + 1, pos =>
    let curr := s.ht pos
    if curr = empty then some (false, s)
    else if curr = pid then some (true, s.store pos tombstone)
    else s.removeLoop pid fuel ((pos + 1) &&& s.mask)

def remove (s : ResidentPageSet) (fuel : Nat) (pid : PID) : Option (Bool × ResidentPageSet) :=
  s.removeLoop pid fuel (hash pid &&& s.mask)

/-! ## The size of the table -/

lemma nextPow2_eq {x : Nat} (hx : 2 ≤ x) (hmax : x ≤ 2 ^ 30) :
    nextPow2 x = 2 ^ (Nat.log2 (x - 1) + 1) := by
  have hlog : Nat.log2 (x - 1) < 30 := (Nat.log2_lt (by omega)).mpr (by omega)
  have hexp : 64 - clzl (x - 1) = Nat.log2 (x - 1) + 1 := by
    unfold clzl
    omega
  rw [nextPow2, Nat.one_shiftLeft, hexp]

lemma le_nextPow2 {x : Nat} (hx : 2 ≤ x) (hmax : x ≤ 2 ^ 30) : x ≤ nextPow2 x := by
  have hlt : x - 1 < 2 ^ (Nat.log2 (x - 1) + 1) := Nat.lt_log2_self
  rw [nextPow2_eq hx hmax]
  omega

/-! ## The probe loops -/

/-- Masking a position is taking it modulo the number of slots. -/
structure Circular (s : ResidentPageSet) : Prop where
  count_pos : 0 < s.count
  and_mask : ∀ x, x &&& s.mask = x % s.count

lemma circular_init {physCount : Nat} (hmin : 2 ≤ physCount)
    (hmax : physCount * 3 / 2 ≤ 2 ^ 30) : Circular (init physCount) := by
  have hcount : (init physCount).count = 2 ^ (Nat.log2 (physCount * 3 / 2 - 1) + 1) :=
    nextPow2_eq (by omega) hmax
  refine ⟨hcount ▸ Nat.two_pow_pos _, fun x => ?_⟩
  rw [hcount, ← Nat.and_two_pow_sub_one_eq_mod, ← hcount]
  rfl

lemma Circular.store {s : ResidentPageSet} (hs : Circular s) (pos : Nat) (pid : PID) :
    Circular (s.store pos pid) := ⟨hs.count_pos, hs.and_mask⟩

variable {s s' : ResidentPageSet} {pid : PID} {p fuel d pos : Nat}

/-- `insert` passes slots with other page ids up to the first slot that it can take. -/
lemma insertLoop_eq (hs : Circular s) (hother : ∀ i, i < d → s.ht ((pos + i) % s.count) ≠ pid ∧
      s.ht ((pos + i) % s.count) ≠ empty ∧ s.ht ((pos + i) % s.count) ≠ tombstone)
    (hne : s.ht ((pos + d) % s.count) ≠ pid)
    (hopen : s.ht ((pos + d) % s.count) = empty ∨ s.ht ((pos + d) % s.count) = tombstone)
    (fuel : Nat) :
    s.insertLoop pid fuel (pos % s.count) =
      if d < fuel then some (.ok (s.store ((pos + d) % s.count) pid)) else none := by
  induction d generalizing pos fuel with
  | zero =>
    cases fuel with
    | zero => rfl
    | succ fuel =>
      rw [Nat.add_zero] at hne hopen
      simp only [insertLoop, if_neg hne, if_pos hopen, Nat.add_zero, Nat.succ_pos, if_true]
  | succ d ih =>
    cases fuel with
    | zero => rfl
    | succ fuel =>
      obtain ⟨h1, h2, h3⟩ := hother 0 (Nat.succ_pos d)
      rw [Nat.add_zero] at h1 h2 h3
      have hstep : (pos % s.count + 1) &&& s.mask = (pos + 1) % s.count := by
        rw [hs.and_mask, Nat.mod_add_mod]
      have hshift : ∀ i, pos + 1 + i = pos + (i + 1) := fun i => by omega
      have hrest := @ih (pos + 1) (fun i hi => by
        rw [hshift]
        exact hother (i + 1) (Nat.succ_lt_succ hi)) (by rwa [hshift]) (by rwa [hshift]) fuel
      rw [hshift] at hrest
      simp only [insertLoop, if_neg h1, h2, h3, or_self, if_false, hstep, hrest,
        Nat.succ_lt_succ_iff]

/-- `remove` passes slots that are not empty up to the page id, or to the first empty slot. -/
lemma removeLoop_eq (hs : Circular s) (hother : ∀ i, i < d → s.ht ((pos + i) % s.count) ≠ empty ∧
      s.ht ((pos + i) % s.count) ≠ pid)
    (hend : s.ht ((pos + d) % s.count) = empty ∨ s.ht ((pos + d) % s.count) = pid)
    (fuel : Nat) :
    s.removeLoop pid fuel (pos % s.count) =
      if d < fuel then
        if s.ht ((pos + d) % s.count) = empty then some (false, s)
        else some (true, s.store ((pos + d) % s.count) tombstone)
      else none := by
  induction d generalizing pos fuel with
  | zero =>
    cases fuel with
    | zero => rfl
    | succ fuel =>
      rw [Nat.add_zero] at hend
      by_cases hempty : s.ht (pos % s.count) = empty
      · simp only [removeLoop, Nat.add_zero, if_pos hempty, Nat.succ_pos, if_true]
      · simp only [removeLoop, Nat.add_zero, if_neg hempty, if_pos (hend.resolve_left hempty),
          Nat.succ_pos, if_true]
  | succ d ih =>
    cases fuel with
    | zero => rfl
    | succ fuel =>
      obtain ⟨h1, h2⟩ := hother 0 (Nat.succ_pos d)
      rw [Nat.add_zero] at h1 h2
      have hstep : (pos % s.count + 1) &&& s.mask = (pos + 1) % s.count := by
        rw [hs.and_mask, Nat.mod_add_mod]
      have hshift : ∀ i, pos + 1 + i = pos + (i + 1) := fun i => by omega
      have hrest := @ih (pos + 1) (fun i hi => by
        rw [hshift]
        exact hother (i + 1) (Nat.succ_lt_succ hi)) (by rwa [hshift]) fuel
      rw [hshift] at hrest
      simp only [removeLoop, if_neg h1, if_neg h2, hstep, hrest, Nat.succ_lt_succ_iff]

/-! ## The table as a circle of cells -/

def cell (v : PID) : Cell PID :=
  if v = empty then .free else if v = tombstone then .deleted else .key v

def cells (s : ResidentPageSet) : Nat → Cell PID := fun i => cell (s.ht i)

lemma cell_free {v : PID} : cell v = .free ↔ v = empty := by
  unfold cell
  split
  · simp_all
  · split <;> simp_all

lemma cell_key {v q : PID} : cell v = .key q ↔ v = q ∧ v ≠ empty ∧ v ≠ tombstone := by
  unfold cell
  split
  · simp_all
  · split <;> simp_all

lemma cell_not_key {v : PID} (h : ∀ q, cell v ≠ .key q) : v = empty ∨ v = tombstone := by
  by_contra hne
  rw [not_or] at hne
  exact h v (cell_key.mpr ⟨rfl, hne⟩)

lemma cells_store (s : ResidentPageSet) (pos : Nat) (pid : PID) :
    (s.store pos pid).cells = Function.update s.cells pos (cell pid) :=
  Function.comp_update cell s.ht pos pid

lemma cell_tombstone : cell tombstone = .deleted := rfl

/-- The set holds the page ids `A`, all of them below `physCount`. -/
structure Holds (physCount : Nat) (s : ResidentPageSet) (A : Finset PID) : Prop where
  circular : Circular s
  sound : ∃ e park disp, Gap s.count hash (Finset.range physCount) e park ∧
    Sound s.count hash (Finset.range physCount) e park s.cells A disp

variable {physCount : Nat} {A : Finset PID}

lemma cell_of_lt (hmax : physCount * 3 / 2 ≤ 2 ^ 30) (hp : p < physCount) :
    cell p = .key p := by
  have hlt : p < 2 ^ 64 - 2 := by omega
  have htop : (2 : Nat) ^ 64 - 2 < 2 ^ 64 - 1 := by decide
  exact cell_key.mpr ⟨rfl, (hlt.trans htop).ne, hlt.ne⟩

lemma holds_init (hmin : 2 ≤ physCount) (hmax : physCount * 3 / 2 ≤ 2 ^ 30) :
    Holds physCount (init physCount) ∅ := by
  have hlarge : physCount * 3 / 2 ≤ (init physCount).count := le_nextPow2 (by omega) hmax
  obtain ⟨e, park, hgap⟩ := exists_gap (M := (init physCount).count) hash
    (Finset.range physCount) (by rw [Finset.card_range]; omega)
  exact ⟨circular_init hmin hmax, e, park, fun _ => 0, hgap, sound_free _ _ _ _ _ _⟩

/-- A page id that is not in the set is stored in a slot that held none. -/
lemma Holds.insert_eq (hh : Holds physCount s A) (hmax : physCount * 3 / 2 ≤ 2 ^ 30)
    (hp : p < physCount) (hpA : p ∉ A) :
    ∃ d, d < s.count ∧ Holds physCount (s.store ((hash p + d) % s.count) p) (Insert.insert p A) ∧
      ∀ fuel, s.insert fuel p =
        if d < fuel then some (.ok (s.store ((hash p + d) % s.count) p)) else none := by
  obtain ⟨hs, e, park, disp, hgap, hsound⟩ := hh
  obtain ⟨d, hd, hkeys, hopen⟩ := hsound.exists_open hgap.lt (hash p)
  have hlt : ∀ x, x % s.count < s.count := fun x => Nat.mod_lt x hs.count_pos
  have hne : ∀ x, s.ht (x % s.count) ≠ p := by
    intro x hx
    have hcell : s.cells (x % s.count) = .key p := by
      rw [cells, hx, cell_of_lt hmax hp]
    exact hpA (hsound.only _ (hlt x) p hcell).1
  refine ⟨d, hd, ⟨hs.store _ _, e, park, Function.update disp p d, hgap, ?_⟩, fun fuel => ?_⟩
  · rw [cells_store, cell_of_lt hmax hp]
    exact hsound.insertKey hgap (Finset.mem_range.mpr hp) hpA hkeys hopen
  · rw [ResidentPageSet.insert, hs.and_mask]
    refine insertLoop_eq hs (fun i hi => ?_) (hne _) (cell_not_key hopen) fuel
    obtain ⟨q, hq⟩ := hkeys i hi
    exact ⟨hne _, (cell_key.mp hq).2⟩

/-- A page id of the set is found and replaced by a tombstone. -/
lemma Holds.remove_mem (hh : Holds physCount s A) (hmax : physCount * 3 / 2 ≤ 2 ^ 30)
    (hp : p < physCount) (hpA : p ∈ A) :
    ∃ d, d < s.count ∧
      Holds physCount (s.store ((hash p + d) % s.count) tombstone) (A.erase p) ∧
      ∀ fuel, s.remove fuel p =
        if d < fuel then some (true, s.store ((hash p + d) % s.count) tombstone) else none := by
  obtain ⟨hs, e, park, disp, hgap, hsound⟩ := hh
  have hd : disp p < s.count := by
    have hline := hsound.rel_cell hgap.lt hpA
    have hlast : rel s.count e (hash p + disp p) < s.count := rel_lt hs.count_pos _
    omega
  obtain ⟨hlive, hnotEmpty, -⟩ := cell_key.mp (hsound.live p hpA)
  refine ⟨disp p, hd, ⟨hs.store _ _, e, park, disp, hgap, ?_⟩, fun fuel => ?_⟩
  · rw [cells_store, cell_tombstone]
    exact hsound.eraseKey hpA
  · rw [ResidentPageSet.remove, hs.and_mask,
      removeLoop_eq hs (fun i hi => ?_) (Or.inr hlive) fuel, if_neg hnotEmpty]
    obtain ⟨hfree, hkey⟩ := hsound.disp_first hgap.lt hpA hi
    refine ⟨fun h => hfree (cell_free.mpr h), fun h => hkey ?_⟩
    rw [cells, h, cell_of_lt hmax hp]

/-- The search for a page id that is not in the set ends at an empty slot. -/
lemma Holds.remove_notMem (hh : Holds physCount s A) (hmax : physCount * 3 / 2 ≤ 2 ^ 30)
    (hp : p < physCount) (hpA : p ∉ A) :
    ∃ d, d < s.count ∧ ∀ fuel, s.remove fuel p = if d < fuel then some (false, s) else none := by
  obtain ⟨hs, e, park, disp, hgap, hsound⟩ := hh
  obtain ⟨d, hd, hpath, hfree⟩ := hsound.exists_free hgap.lt (hash p)
  refine ⟨d, hd, fun fuel => ?_⟩
  have hother : ∀ i, i < d → s.ht ((hash p + i) % s.count) ≠ empty ∧
      s.ht ((hash p + i) % s.count) ≠ p := by
    intro i hi
    refine ⟨fun h => hpath i hi (cell_free.mpr h), fun h => hpA ?_⟩
    refine (hsound.only ((hash p + i) % s.count) (Nat.mod_lt _ hs.count_pos) p ?_).1
    rw [cells, h, cell_of_lt hmax hp]
  rw [ResidentPageSet.remove, hs.and_mask,
    removeLoop_eq hs hother (Or.inl (cell_free.mp hfree)) fuel, if_pos (cell_free.mp hfree)]

/-! ## Sequences of operations -/

/-- `s` is a state after a sequence of insertions and removals, `A` the page ids that were
inserted and not removed since. -/
inductive Reached (physCount : Nat) : Finset PID → ResidentPageSet → Prop
  | init : Reached physCount ∅ (init physCount)
  | insert {A : Finset PID} {s s' : ResidentPageSet} {p fuel : Nat} (h : Reached physCount A s)
      (hp : p < physCount) (hpA : p ∉ A) (hs : s.insert fuel p = some (.ok s')) :
      Reached physCount (Insert.insert p A) s'
  | remove {A : Finset PID} {s s' : ResidentPageSet} {p fuel : Nat} {b : Bool}
      (h : Reached physCount A s) (hp : p < physCount) (hs : s.remove fuel p = some (b, s')) :
      Reached physCount (A.erase p) s'

lemma Reached.holds (hmin : 2 ≤ physCount) (hmax : physCount * 3 / 2 ≤ 2 ^ 30)
    (h : Reached physCount A s) : Holds physCount s A := by
  induction h with
  | init => exact holds_init hmin hmax
  | @insert A s s' p fuel h hp hpA hs ih =>
    obtain ⟨d, -, hnext, heq⟩ := ih.insert_eq hmax hp hpA
    rw [heq] at hs
    split at hs
    · rw [Option.some_inj, Except.ok.injEq] at hs
      exact hs ▸ hnext
    · cases hs
  | @remove A s s' p fuel b h hp hs ih =>
    by_cases hpA : p ∈ A
    · obtain ⟨d, -, hnext, heq⟩ := ih.remove_mem hmax hp hpA
      rw [heq] at hs
      split at hs
      · cases hs
        exact hnext
      · cases hs
    · obtain ⟨d, -, heq⟩ := ih.remove_notMem hmax hp hpA
      rw [heq] at hs
      split at hs
      · cases hs
        rwa [Finset.erase_eq_of_notMem hpA]
      · cases hs

/-- What holds of the set when it stands for the page ids `A`. -/
structure WellProbed (physCount : Nat) (A : Finset PID) (s : ResidentPageSet) : Prop where
  exists_empty : ∃ i, i < s.count ∧ s.ht i = empty
  stored_once : ∀ i j, i < s.count → j < s.count → s.ht i = s.ht j → s.ht i ≠ empty →
    s.ht i ≠ tombstone → i = j
  stored : ∀ pid, pid ≠ empty → pid ≠ tombstone → ((∃ i, i < s.count ∧ s.ht i = pid) ↔ pid ∈ A)
  /-- `insert` ends within one round for every slot, and its assertion holds in every round -/
  insert_ends : ∀ p, p < physCount → p ∉ A →
    (∀ fuel, s.count ≤ fuel → ∃ s', s.insert fuel p = some (.ok s')) ∧
      ∀ fuel a, s.insert fuel p ≠ some (.error a)
  /-- `remove` ends within one round for every slot and tells whether the page id was there -/
  remove_ends : ∀ p, p < physCount → ∀ fuel, s.count ≤ fuel →
    ∃ s', s.remove fuel p = some (decide (p ∈ A), s')

lemma Holds.spec (hmax : physCount * 3 / 2 ≤ 2 ^ 30) (hh : Holds physCount s A) :
    WellProbed physCount A s := by
  obtain ⟨hs, e, park, disp, hgap, hsound⟩ := id hh
  refine ⟨⟨e, hgap.lt, cell_free.mp hsound.gap⟩, ?_, ?_, ?_, ?_⟩
  · intro i j hi hj heq hempty htomb
    have hcell : s.cells i = .key (s.ht i) := cell_key.mpr ⟨rfl, hempty, htomb⟩
    have hcell' : s.cells j = .key (s.ht i) := by rwa [cells, ← heq]
    rw [← (hsound.only i hi _ hcell).2, (hsound.only j hj _ hcell').2]
  · intro pid hempty htomb
    constructor
    · rintro ⟨i, hi, rfl⟩
      exact (hsound.only i hi _ (cell_key.mpr ⟨rfl, hempty, htomb⟩)).1
    · intro hpid
      exact ⟨_, Nat.mod_lt _ hs.count_pos, (cell_key.mp (hsound.live pid hpid)).1⟩
  · intro p hp hpA
    obtain ⟨d, hd, -, heq⟩ := hh.insert_eq hmax hp hpA
    refine ⟨fun fuel hfuel => ⟨_, (heq fuel).trans (if_pos (hd.trans_le hfuel))⟩, ?_⟩
    intro fuel a herr
    rw [heq] at herr
    split at herr
    · cases herr
    · cases herr
  · intro p hp fuel hfuel
    by_cases hpA : p ∈ A
    · obtain ⟨d, hd, -, heq⟩ := hh.remove_mem hmax hp hpA
      rw [decide_eq_true hpA, heq, if_pos (hd.trans_le hfuel)]
      exact ⟨_, rfl⟩
    · obtain ⟨d, hd, heq⟩ := hh.remove_notMem hmax hp hpA
      rw [decide_eq_false hpA, heq, if_pos (hd.trans_le hfuel)]
      exact ⟨_, rfl⟩

/-- After every sequence of insertions and removals of page ids below `physCount`, some slot is
empty, no page id is stored twice, the stored page ids are those of the sequence, and the probe
loops of both operations end as they should. -/
theorem Reached.wellProbed {physCount : Nat} {A : Finset PID} {s : ResidentPageSet}
    (hmin : 2 ≤ physCount) (hmax : physCount * 3 / 2 ≤ 2 ^ 30) (h : Reached physCount A s) :
    WellProbed physCount A s := (h.holds hmin hmax).spec hmax

/-- The search for the pages 0, 2 and 3 begins at one slot. -/
def threeStored : ResidentPageSet := (((init 4).store 2 0).store 3 2).store 4 1

/-- Page 3 takes the tombstone of page 0, in front of page 2. -/
theorem sharedSlot_wellProbed :
    threeStored.remove 8 0 = some (true, threeStored.store 2 tombstone) ∧
      (threeStored.store 2 tombstone).insert 8 3 =
        some (.ok ((threeStored.store 2 tombstone).store 2 3)) ∧
      WellProbed 4 {3, 1, 2} ((threeStored.store 2 tombstone).store 2 3) := by
  have hfirst : (init 4).insert 8 0 = some (.ok ((init 4).store 2 0)) := rfl
  have hsecond : ((init 4).store 2 0).insert 8 2 =
      some (.ok (((init 4).store 2 0).store 3 2)) := rfl
  have hthird : (((init 4).store 2 0).store 3 2).insert 8 1 = some (.ok threeStored) := rfl
  have hremove : threeStored.remove 8 0 = some (true, threeStored.store 2 tombstone) := rfl
  have hreuse : (threeStored.store 2 tombstone).insert 8 3 =
      some (.ok ((threeStored.store 2 tombstone).store 2 3)) := rfl
  have hstored : Reached 4 _ threeStored :=
    ((Reached.init.insert (by decide) (by decide) hfirst).insert (by decide) (by decide)
      hsecond).insert (by decide) (by decide) hthird
  have hreached := (hstored.remove (by decide) hremove).insert (by decide) (by decide) hreuse
  exact ⟨hremove, hreuse, Reached.wellProbed (by decide) (by decide) hreached⟩

end ResidentPageSet
end MemSafeDB
