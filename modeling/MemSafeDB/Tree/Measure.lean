import Mathlib.Algebra.BigOperators.Group.Finset.Basic
import Mathlib.Algebra.Order.BigOperators.Group.Finset
import Mathlib.Tactic.Linarith
import MemSafeDB.Tree.Paths

/-!
# Progress of splits

An insert splits pages on the path of its key until the entry fits. A split takes entries away
from one page of the path and gives one separator to the page above it, and a new root begins
empty. `potential` bounds how many splits can follow one another on a path: it goes down with
every split, although the path may become longer.
-/

namespace MemSafeDB
open Lib

namespace Tree

variable {T : Tree} {p q m : PID} {h l : Nat} {k sep : Key} {c : Nat → Nat}

/-- The numbers of entries on the path of a key, by height. -/
structure Counts (T : Tree) (k : Key) (l : Nat) (c : Nat → Nat) : Prop where
  root : T.level T.root = some l
  count : ∀ i p, T.level p = some i → T.Covers p k → (T.view p).entries.length = c i

lemma Inv.exists_counts (hT : T.Inv) (hl : T.level T.root = some l) (k : Key) :
    ∃ c, T.Counts k l c ∧ ∀ i, c i ≤ maxSlots := by
  classical
  refine ⟨fun i => if hp : ∃ p, T.level p = some i ∧ T.Covers p k
    then (T.view hp.choose).entries.length else 0, ⟨hl, ?_⟩, ?_⟩
  · intro i p hp hk
    have hex : ∃ p, T.level p = some i ∧ T.Covers p k := ⟨p, hp, hk⟩
    rw [dif_pos hex, hT.disjoint p _ i k hp hex.choose_spec.1 hk hex.choose_spec.2]
  · intro i
    dsimp only
    split
    · rename_i hex
      have hle := (hT.valid _ _ hex.choose_spec.1).count_le
      rwa [← BTreeNode.length_entries] at hle
    · exact Nat.zero_le _

/-- How many splits of the page of height `i` the pages up to it can cause. -/
def excess (c : Nat → Nat) : Nat → Nat
  | 0 => c 0 - 2
  | i + 1 => excess c i + c (i + 1) - 1

/-- Bound for the splits of the root and of the roots above it. -/
def rootExcess (c : Nat → Nat) (l : Nat) : Nat :=
  if l = 0 then excess c 0 else excess c l - 1

def potential (c : Nat → Nat) (l : Nat) : Nat :=
  ∑ i ∈ Finset.range l, excess c i + (rootExcess c l + rootExcess c l * rootExcess c l)

lemma excess_congr {c c' : Nat → Nat} {i : Nat} (hc : ∀ j ≤ i, c' j = c j) :
    excess c' i = excess c i := by
  induction i with
  | zero => rw [excess, excess, hc 0 le_rfl]
  | succ i ih =>
    rw [excess, excess, hc (i + 1) le_rfl, ih (fun j hj => hc j (by omega))]

lemma potential_congr {c c' : Nat → Nat} (hc : ∀ j ≤ l, c' j = c j) :
    potential c' l = potential c l := by
  have hroot : rootExcess c' l = rootExcess c l := by
    unfold rootExcess
    rw [excess_congr hc, excess_congr (fun j hj => hc j (hj.trans (Nat.zero_le l)))]
  unfold potential
  rw [hroot, Finset.sum_congr rfl (fun i hi => excess_congr (fun j hj => hc j ?_))]
  have := Finset.mem_range.mp hi
  omega

lemma excess_le {C : Nat} (hc : ∀ i, c i ≤ C) (i : Nat) : excess c i ≤ C * (i + 1) := by
  induction i with
  | zero =>
    have := hc 0
    rw [excess]
    omega
  | succ i ih =>
    have := hc (i + 1)
    rw [excess, Nat.mul_succ C (i + 1)]
    omega

/-- A bound for the potential of paths of some length whose pages have at most `C` entries. -/
def potentialBound (C l : Nat) : Nat :=
  l * (C * (l + 1)) + (C * (l + 1) + C * (l + 1) * (C * (l + 1)))

lemma potential_le {C n : Nat} (hc : ∀ i, c i ≤ C) (hn : l ≤ n) :
    potential c l ≤ potentialBound C n := by
  have hmono : ∀ i ≤ n, C * (i + 1) ≤ C * (n + 1) := fun i hi =>
    Nat.mul_le_mul_left C (by omega)
  have hsum : ∑ i ∈ Finset.range l, excess c i ≤ l * (C * (n + 1)) := by
    have hle := Finset.sum_le_card_nsmul (Finset.range l) (excess c) (C * (n + 1)) (fun i hi =>
      (excess_le hc i).trans (hmono i (by have := Finset.mem_range.mp hi; omega)))
    simpa using hle
  have hroot : rootExcess c l ≤ C * (n + 1) := by
    unfold rootExcess
    split
    · exact (excess_le hc 0).trans (hmono 0 (Nat.zero_le n))
    · exact (Nat.sub_le _ _).trans ((excess_le hc l).trans (hmono l hn))
  exact Nat.add_le_add (hsum.trans (Nat.mul_le_mul_right _ hn))
    (Nat.add_le_add hroot (Nat.mul_le_mul hroot hroot))

/-- The counts after a split of the page of height `h` that leaves `n` entries. -/
def splitCounts (c : Nat → Nat) (h n : Nat) : Nat → Nat :=
  Function.update (Function.update c (h + 1) (c (h + 1) + 1)) h n

lemma splitCounts_self (c : Nat → Nat) (h n : Nat) : splitCounts c h n h = n := by
  simp [splitCounts]

lemma splitCounts_parent (c : Nat → Nat) (h n : Nat) :
    splitCounts c h n (h + 1) = c (h + 1) + 1 := by
  simp [splitCounts]

lemma splitCounts_other (c : Nat → Nat) {h n i : Nat} (h1 : i ≠ h) (h2 : i ≠ h + 1) :
    splitCounts c h n i = c i := by
  simp [splitCounts, h1, h2]

/-- The page that is split has entries to spare. -/
def Splittable (c : Nat → Nat) (h n : Nat) : Prop :=
  n + 1 ≤ c h ∧ if h = 0 then 3 ≤ c h else 2 ≤ c h

lemma excess_split {n : Nat} (hn : Splittable c h n) :
    excess (splitCounts c h n) h + 1 ≤ excess c h := by
  obtain ⟨h1, h2⟩ := hn
  cases h with
  | zero =>
    rw [excess, excess, splitCounts_self]
    simp only [ite_true] at h2
    omega
  | succ h =>
    have hbelow : excess (splitCounts c (h + 1) n) h = excess c h :=
      excess_congr (fun j hj => splitCounts_other c (by omega) (by omega))
    rw [excess, excess, splitCounts_self, hbelow]
    simp only [Nat.add_one_ne_zero, ite_false] at h2
    omega

lemma excess_split_le {n : Nat} (hn : Splittable c h n) (i : Nat) :
    excess (splitCounts c h n) i ≤ excess c i := by
  rcases Nat.lt_trichotomy i h with hlt | heq | hgt
  · exact (excess_congr (fun j hj => splitCounts_other c (by omega) (by omega))).le
  · subst heq
    have := excess_split hn
    omega
  · induction i, hgt using Nat.le_induction with
    | base =>
      have hs := excess_split hn
      rw [excess, excess, splitCounts_parent]
      omega
    | succ i hi ih =>
      rw [excess, excess, splitCounts_other c (by omega) (by omega)]
      omega

/-- A split below the root lowers the potential. -/
lemma potential_split {n : Nat} (hn : Splittable c h n) (hl : h < l) :
    potential (splitCounts c h n) l < potential c l := by
  have hsum : ∑ i ∈ Finset.range l, excess (splitCounts c h n) i <
      ∑ i ∈ Finset.range l, excess c i :=
    Finset.sum_lt_sum (fun i _ => excess_split_le hn i)
      ⟨h, Finset.mem_range.mpr hl, excess_split hn⟩
  have hroot : rootExcess (splitCounts c h n) l ≤ rootExcess c l := by
    unfold rootExcess
    rw [if_neg (by omega), if_neg (by omega)]
    exact Nat.sub_le_sub_right (excess_split_le hn l) 1
  have hsq := Nat.mul_le_mul hroot hroot
  unfold potential
  omega

/-- So does a split of the root under a new root. -/
lemma potential_grow {n : Nat} (hn : Splittable c l n)
    (hroot : l ≠ 0 → n + 2 ≤ c l ∧ 3 ≤ c l) (hz : c (l + 1) = 0) :
    potential (splitCounts c l n) (l + 1) < potential c l := by
  have hsum : ∑ i ∈ Finset.range l, excess (splitCounts c l n) i =
      ∑ i ∈ Finset.range l, excess c i := by
    refine Finset.sum_congr rfl (fun i hi => excess_congr (fun j hj => ?_))
    have hil := Finset.mem_range.mp hi
    exact splitCounts_other c (by omega) (by omega)
  have hnew : rootExcess (splitCounts c l n) (l + 1) = excess (splitCounts c l n) l - 1 := by
    rw [rootExcess, if_neg (Nat.succ_ne_zero l), excess, splitCounts_parent, hz]
    omega
  have hold : excess (splitCounts c l n) l + 1 ≤ rootExcess c l := by
    cases l with
    | zero =>
      rw [rootExcess, if_pos rfl]
      exact excess_split hn
    | succ l =>
      obtain ⟨h1, h2⟩ := hroot (Nat.succ_ne_zero l)
      have hbelow : excess (splitCounts c (l + 1) n) l = excess c l :=
        excess_congr (fun j hj => splitCounts_other c (by omega) (by omega))
      rw [rootExcess, if_neg (Nat.succ_ne_zero l), excess, excess, splitCounts_self, hbelow]
      omega
  unfold potential
  rw [Finset.sum_range_succ, hsum, hnew]
  generalize excess (splitCounts c l n) l = a at hold
  generalize rootExcess c l = r at hold
  have hsq : (a - 1) * (a - 1) ≤ a * a := Nat.mul_le_mul (Nat.sub_le a 1) (Nat.sub_le a 1)
  have hsq' : (a + 1) * (a + 1) ≤ r * r := Nat.mul_le_mul hold hold
  have hexp : (a + 1) * (a + 1) = a * a + 2 * a + 1 := by ring
  omega

/-! ## Counts after the changes of a split -/

lemma Counts.growRoot (hc : T.Counts k l c) (hT : T.Inv) (hm : T.level m = none) :
    (T.growRoot m l).Counts k (l + 1) (Function.update c (l + 1) 0) := by
  obtain ⟨l', hl', hmax⟩ := hT.root
  have hll : l' = l := by
    rw [hc.root, Option.some.injEq] at hl'
    exact hl'.symm
  subst hll
  refine ⟨by simp [Tree.growRoot], ?_⟩
  intro i p hp hk
  by_cases h : p = m
  · subst h
    have hi : i = l' + 1 := by simpa [Tree.growRoot, eq_comm] using hp
    subst hi
    rw [Function.update_self]
    simp [view, Tree.growRoot, (new_valid false T.root).2]
  · have hp' : T.level p = some i := by simpa [Tree.growRoot, h] using hp
    have hv : (T.growRoot m l').view p = T.view p := by simp [view, Tree.growRoot, h]
    rw [Covers, hv] at hk
    have hle := hmax p i hp'
    rw [Function.update_of_ne (by omega), hv]
    exact hc.count i p hp' hk

variable {es fs : List (Key × Key)} {e : Key × Key} {a b n : BTreeNode}

lemma length_splitParent (v : View) (sep : Key) (left new : PID) :
    (v.splitParent sep left new).entries.length = v.entries.length + 1 := by
  have hhead : ∀ xs, (redirectHead new xs).length = xs.length := fun xs => by cases xs <;> rfl
  have hrank : rank v.keys sep ≤ v.entries.length := by simpa using rank_le_length v.keys sep
  simp only [View.splitParent, List.length_append, List.length_cons, List.length_take, hhead,
    List.length_drop]
  omega

/-- A split on the path of a key changes the counts of the split page and of its parent. -/
lemma SplitStep.counts (hs : T.SplitStep p m q h sep es e fs a b n) (hT : T.Inv)
    (hpk : T.Covers p k) (hqk : T.Covers q k) (hc : T.Counts k l c) :
    ∃ r, (T.splitPages p m q a b n).Counts k l (splitCounts c h r) ∧
      (r = ((T.view p).leftEntries es e).length ∨ r = fs.length) := by
  refine ⟨if k ≤ sep then ((T.view p).leftEntries es e).length else fs.length,
    ⟨hs.level_of_old hc.root, ?_⟩, by split <;> simp⟩
  intro i x hx hxk
  have horigin := hs.covers_origin hT hxk
  have hlevel := hs.level_origin hx
  by_cases hxm : x = m
  · subst hxm
    rw [SplitStep.origin, if_pos rfl, hs.node, Option.some.injEq] at hlevel
    subst hlevel
    have hlt := ((hs.cut hT k).2.mp hxk).2
    rw [splitCounts_self, if_neg (not_le.mpr hlt), hs.view_right]
    rfl
  · rw [SplitStep.origin, if_neg hxm] at horigin hlevel
    by_cases hxp : x = p
    · subst hxp
      rw [hs.node, Option.some.injEq] at hlevel
      subst hlevel
      rw [splitCounts_self, if_pos ((hs.cut hT k).1.mp hxk).2, hs.view_left]
      rfl
    · by_cases hxq : x = q
      · subst hxq
        rw [hs.parent, Option.some.injEq] at hlevel
        subst hlevel
        rw [splitCounts_parent, hs.view_parent, length_splitParent,
          hc.count _ _ hs.parent hqk]
      · have h1 : i ≠ h := by
          rintro rfl
          exact hxp (hT.disjoint x p i k hlevel hs.node horigin hpk)
        have h2 : i ≠ h + 1 := by
          rintro rfl
          exact hxq (hT.disjoint x q _ k hlevel hs.parent horigin hqk)
        rw [splitCounts_other c h1 h2, SplitStep.view_other hxp hxm hxq]
        exact hc.count i x hlevel horigin

/-- The half on the path of a key has fewer entries than the page had. -/
lemma splittable_of_separator {v : View} {info : BTreeNode.SeparatorInfo}
    (hs : Separator v info sep es e fs) (hpos : 0 < info.slot) (hleaf : v.isLeaf = decide (h = 0))
    (hc : v.entries.length = c h) {r : Nat}
    (hr : r = (v.leftEntries es e).length ∨ r = fs.length) : Splittable c h r := by
  have hlen : v.entries.length = es.length + 1 + fs.length := by
    rw [hs.entries, List.length_append, List.length_cons]
    omega
  rw [hs.slot] at hpos
  unfold Splittable
  cases h with
  | zero =>
    obtain ⟨f, gs, rfl, -⟩ := hs.leaf (by simpa using hleaf)
    rw [View.leftEntries, hleaf] at hr
    simp only [decide_true, ite_true, List.length_append, List.length_cons, List.length_nil]
      at hr hlen ⊢
    omega
  | succ h =>
    rw [View.leftEntries, hleaf] at hr
    simp only [Nat.add_one_ne_zero, decide_false, Bool.false_eq_true, ite_false] at hr ⊢
    omega

end Tree

end MemSafeDB
