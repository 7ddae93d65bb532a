import MemSafeDB.BTree.Accounting

/-!
# Maintenance of the hints

An insert updates the hints instead of computing them anew. `updateHintChecked` is `updateHint`
with its divisions and its reads of slots written out, so that a division by zero and a read
behind the last slot show.
-/

namespace MemSafeDB
open Lib

/-- What `updateHint` must not do. -/
inductive HintFault where
  | divideByZero
  | unusedSlot
  deriving DecidableEq

def divide (a b : Nat) : Except HintFault Nat :=
  if b = 0 then .error .divideByZero else .ok (a / b)

lemma divide_eq {a b : Nat} (hb : b ≠ 0) : divide a b = .ok (a / b) := if_neg hb

namespace BTreeNode

/-- The head of a slot that is in use. -/
def headOf (n : BTreeNode) (i : Nat) : Except HintFault Nat :=
  if i < n.count then .ok (n.slot i).head else .error .unusedSlot

/-- The loop over the hints: `left` hints from hint `i` on. -/
def sampleHints (dist : Nat) (n : BTreeNode) (i : Nat) : Nat → Except HintFault BTreeNode
  | 0 => pure n
  | left + 1 => do
    let h ← n.headOf (dist * (i + 1))
    sampleHints dist { n with hint := Function.update n.hint i h } (i + 1) left

/-- Where the update begins. -/
def hintBegin (n : BTreeNode) (slotId dist : Nat) : Except HintFault Nat :=
  if hintCount * 2 + 1 < n.count then do
    let before ← divide (n.count - 1) (hintCount + 1)
    if before = dist then do
      let q ← divide slotId dist
      if 1 < q then pure (q - 1) else pure 0
    else
      pure 0
  else
    pure 0

def updateHintChecked (n : BTreeNode) (slotId : Nat) : Except HintFault BTreeNode := do
  let dist ← divide n.count (hintCount + 1)
  let begin_ ← n.hintBegin slotId dist
  sampleHints dist n begin_ (hintCount - begin_)

/-- The hints are the ones that `makeHint` computes. -/
def ExactHints (n : BTreeNode) : Prop := n.hint = n.makeHint.hint

/-- The new slot with the slots behind it moved up. -/
def addSlot (n : BTreeNode) (slotId : Nat) (s : Slot) : BTreeNode :=
  { n with
    slot := Function.update (moveUp n.slot slotId n.count) slotId s
    count := n.count + 1 }

variable {n : BTreeNode} {slotId dist i left : Nat} {s : Slot}

lemma exactHints_makeHint (n : BTreeNode) : n.makeHint.ExactHints := by
  funext i
  by_cases hi : i < hintCount
  · simp only [makeHint, hi, ite_true]
  · simp only [makeHint, hi, ite_false]

/-! ## What is read -/

lemma sampleHints_eq (h : ∀ j, i ≤ j → j < i + left → dist * (j + 1) < n.count) :
    sampleHints dist n i left = .ok { n with hint := fun j =>
      if i ≤ j ∧ j < i + left then (n.slot (dist * (j + 1))).head else n.hint j } := by
  induction left generalizing n i with
  | zero =>
    have hnone : ∀ j, ¬(i ≤ j ∧ j < i + 0) := by
      intro j hj
      omega
    simp only [sampleHints, hnone, ite_false]
    rfl
  | succ left ih =>
    have hread : n.headOf (dist * (i + 1)) = .ok (n.slot (dist * (i + 1))).head :=
      if_pos (h i le_rfl (by omega))
    rw [sampleHints, hread]
    have hrest : ∀ j, i + 1 ≤ j → j < i + 1 + left → dist * (j + 1) < n.count :=
      fun j hj hlt => h j (by omega) (by omega)
    refine Eq.trans (ih (n := { n with hint := Function.update n.hint i _ }) hrest) ?_
    congr 2
    funext j
    by_cases hj : j = i
    · subst hj
      have h1 : ¬(j + 1 ≤ j ∧ j < j + 1 + left) := by omega
      have h2 : j ≤ j ∧ j < j + (left + 1) := by omega
      rw [if_neg h1, if_pos h2]
      exact Function.update_self _ _ _
    · have hiff : (i + 1 ≤ j ∧ j < i + 1 + left) ↔ (i ≤ j ∧ j < i + (left + 1)) := by omega
      simp only [hiff, Function.update_of_ne hj]

/-- The sampled slots lie before the last one. -/
lemma sample_lt (hc : 0 < n.count) (hi : i < hintCount) :
    n.count / (hintCount + 1) * (i + 1) < n.count := by
  have hmul := Nat.div_mul_le_self n.count (hintCount + 1)
  have hle : n.count / (hintCount + 1) * (i + 1) ≤ n.count / (hintCount + 1) * hintCount :=
    Nat.mul_le_mul_left _ hi
  rw [Nat.mul_succ] at hmul
  rcases Nat.eq_zero_or_pos (n.count / (hintCount + 1)) with hz | hpos
  · rw [hz, Nat.zero_mul]
    exact hc
  · omega

lemma hintBegin_eq : n.hintBegin slotId (n.count / (hintCount + 1)) = .ok
    (if hintCount * 2 + 1 < n.count ∧ (n.count - 1) / (hintCount + 1) = n.count / (hintCount + 1) ∧
      1 < slotId / (n.count / (hintCount + 1))
    then slotId / (n.count / (hintCount + 1)) - 1 else 0) := by
  unfold hintBegin
  by_cases hc : hintCount * 2 + 1 < n.count
  · have hdist : n.count / (hintCount + 1) ≠ 0 := by
      have hle : hintCount + 1 ≤ n.count := by omega
      exact (Nat.div_pos hle (Nat.succ_pos _)).ne'
    rw [if_pos hc, divide_eq (Nat.succ_ne_zero hintCount)]
    by_cases heq : (n.count - 1) / (hintCount + 1) = n.count / (hintCount + 1)
    · by_cases hq : 1 < slotId / (n.count / (hintCount + 1))
      · simp only [hc, heq, hq, divide_eq hdist, bind, Except.bind, ite_true, and_self]
        rfl
      · simp only [hc, heq, hq, divide_eq hdist, bind, Except.bind, ite_true, ite_false,
          and_false]
        rfl
    · simp only [heq, bind, Except.bind, ite_false, false_and, and_false]
      rfl
  · simp only [hc, ite_false, false_and]
    rfl

/-- On a page with slots, `updateHint` does not divide by zero and reads slots in use only. -/
lemma updateHintChecked_eq (hc : 0 < n.count) (slotId : Nat) :
    n.updateHintChecked slotId = .ok (n.updateHint slotId) := by
  unfold updateHintChecked
  rw [divide_eq (Nat.succ_ne_zero hintCount)]
  change (n.hintBegin slotId (n.count / (hintCount + 1)) >>= _) = _
  rw [hintBegin_eq]
  refine (sampleHints_eq (fun j _ hj => sample_lt hc (by omega))).trans ?_
  unfold updateHint
  congr 2
  funext j
  refine if_congr (and_congr_right fun hj => ?_) rfl rfl
  omega

/-! ## What is left out -/

lemma addSlot_before (hi : i < slotId) : (n.addSlot slotId s).slot i = n.slot i := by
  change Function.update (moveUp n.slot slotId n.count) slotId s i = n.slot i
  have hbefore : ¬(slotId < i ∧ i ≤ n.count) := fun h => absurd hi (not_lt.mpr h.1.le)
  rw [Function.update_of_ne hi.ne, moveUp, if_neg hbefore]

lemma ExactHints.hint_eq (h : n.ExactHints) (hi : i < hintCount) :
    n.hint i = (n.slot (n.count / (hintCount + 1) * (i + 1))).head :=
  (congrFun h i).trans (if_pos hi)

/-- The update computes the hints that `makeHint` would compute. -/
lemma ExactHints.updateHint_eq (h : n.ExactHints) (slotId : Nat) (s : Slot) :
    (n.addSlot slotId s).updateHint slotId = (n.addSlot slotId s).makeHint := by
  have hcount : (n.addSlot slotId s).count = n.count + 1 := rfl
  simp only [updateHint, makeHint, hcount, Nat.add_sub_cancel]
  congr 1
  funext i
  set dist := (n.count + 1) / (hintCount + 1) with hdist
  by_cases hi : i < hintCount
  · by_cases hb : hintCount * 2 + 1 < n.count + 1 ∧ n.count / (hintCount + 1) = dist ∧
        1 < slotId / dist
    · rw [if_pos hb]
      by_cases hge : slotId / dist - 1 ≤ i
      · rw [if_pos ⟨hge, hi⟩, if_pos hi]
      · -- the hint is left as it is, and so is the slot that it samples
        have hlt := sample_before hb.2.2 (not_le.mp hge)
        rw [if_neg (fun hc => hge hc.1), if_pos hi, addSlot_before hlt, ← hb.2.1]
        exact h.hint_eq hi
    · rw [if_neg hb, if_pos ⟨Nat.zero_le i, hi⟩, if_pos hi]
  · rw [if_neg (fun hc => hi hc.2), if_neg hi]

/-- An update after an insert leaves the hints that `makeHint` would compute; on its way it
divides by no zero and reads no slot that is not in use. -/
theorem ExactHints.updateHint_addSlot (h : n.ExactHints) (slotId : Nat) (s : Slot) :
    (n.addSlot slotId s).updateHintChecked slotId = .ok (n.addSlot slotId s).makeHint := by
  rw [updateHintChecked_eq (Nat.succ_pos n.count), h.updateHint_eq slotId s]

/-- A page with so many slots that their number does not change which ones are sampled. -/
def sampledPage : BTreeNode :=
  { new true with count := 35, slot := fun i => ⟨4092 - 4 * i, 2, 2, 2 * i⟩ }.makeHint

theorem sampledPage_updateHint : (sampledPage.addSlot 30 ⟨3950, 2, 2, 59⟩).hintBegin 30 2 = .ok 14 ∧
    (sampledPage.addSlot 30 ⟨3950, 2, 2, 59⟩).updateHintChecked 30 =
      .ok (sampledPage.addSlot 30 ⟨3950, 2, 2, 59⟩).makeHint := by
  have hexact : sampledPage.ExactHints := exactHints_makeHint _
  exact ⟨rfl, hexact.updateHint_addSlot 30 ⟨3950, 2, 2, 59⟩⟩

end BTreeNode

end MemSafeDB
