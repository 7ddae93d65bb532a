import MemSafeDB.Concurrent.Moments
import MemSafeDB.Sequential.Guarantees

/-!
# The invariant of all runs

At every point of a run the tree is in order, consists of pages that were given out, and holds what
the trace tells; the latch words follow the protocol. A legal operation keeps this, advances the
state and spares the other threads.
-/

namespace MemSafeDB
open Lib PageState

variable {τ : Type}

namespace Tree

/-- The page comes before the other one in the order in which the threads latch pages: the metadata
page, then the tree from the top down and from the left to the right. -/
def Before (T : Tree) (p q : PID) : Prop :=
  (p = metadataPageId ∧ ∃ l, T.level q = some l) ∨
    ∃ k l, T.level p = some k ∧ T.level q = some l ∧ (l < k ∨ (l = k ∧ T.LeafBefore p q))

end Tree

/-- What is assumed of the operations: no page is unlocked too often, no split writes over the
header, and only keys are inserted that are not stored. When the run is `steady`, no thread opens
an optimistic guard while it holds a shared latch. -/
def Sys.Assumed (steady : Prop) (t : τ) (s : Sys τ) : Op → Prop
  | .storeUnlocked p _ => version (s.word p) + 1 < 2 ^ 56
  | .splitNode p _ _ sepSlot sep => ((s.page p).leftView sepSlot sep).SparesHeader
  | .insertInPage _ key _ => contentsOf s.trace key = none
  | .load .init _ => steady → ∀ q < s.allocCount, t ∉ s.sHolders q
  | _ => True

instance Sys.Assumed.decidable [DecidableEq τ] (steady : Prop) [Decidable steady] (t : τ)
    (s : Sys τ) (o : Op) : Decidable (s.Assumed steady t o) :=
  match o with
  | .storeUnlocked p _ => (inferInstance : Decidable (version (s.word p) + 1 < 2 ^ 56))
  | .splitNode p _ _ sepSlot sep =>
    (inferInstance : Decidable ((s.page p).leftView sepSlot sep).SparesHeader)
  | .insertInPage _ key _ => (inferInstance : Decidable (contentsOf s.trace key = none))
  | .load .init _ => (inferInstance : Decidable (steady → ∀ q < s.allocCount, t ∉ s.sHolders q))
  | .load (.check _) _ | .load .other _ | .cas _ _ _ _ | .nextPid | .residentInsert _ | .peek _ _
  | .peekRoot | .view _ | .setSplitOrdered _ | .construct _ _ | .setUpperInnerNode _ _
  | .setRoot _ | .removeSlot _ _ | .updatePayload _ _ _ | .mergeNodes _ _ _ _
  | .splitOrdered _ | .yield _ | .attempt | .leave | .caught | .call _ | .ret _ | .crash _
  | .halt => .isTrue trivial

namespace Point

variable [DecidableEq τ]

/-- What holds at every point of a run. -/
structure Inv (m : Point τ) : Prop where
  crashed : m.now.crashed = none
  unlocks : ∀ p, m.now.unlocks p < 2 ^ 56
  protocol : ∃ ms, Protocol m.past ms m.now
  tree : m.now.tree.Inv
  given : ∀ p l, m.now.level p = some l → Given p m
  metadata : Given metadataPageId m
  contents : ∀ k v, m.now.tree.Holds k v ↔ contentsOf m.now.trace k = some v
  honest : Honest m.now.trace

/-- Every latch that thread `t` holds comes before the page. -/
def MayWait (t : τ) (m : Point τ) (p : PID) : Prop := ∀ q, Holds t q m → m.now.tree.Before q p

/-- What `splitNode` needs. -/
def MaySplit (m : Point τ) (p newPID parent : PID) (sepSlot : Nat) (sep : Key) : Prop :=
  ∃ key h info es e fs, m.now.tree.ChildOn key p parent h ∧
    Separator (m.now.tree.view p) info sep es e fs ∧ info.slot = sepSlot ∧ 0 < sepSlot ∧
    (m.now.page parent).hasSpaceFor sep.length 8 = true ∧ m.now.level newPID = none ∧
    (0 < newPID ∧ newPID < noNeighbour)

/-- The operations that may come next. When the run is `steady`, threads wait in order. -/
def Legal (steady : Prop) (t : τ) (m : Point τ) : Op → Prop
  | .cas .lockX p old _ => getState old = Evicted → m.now.word p = old → Drew m.past t p
  | .construct p _ => m.now.level p = none
  | .setUpperInnerNode p _ => m.now.level p = none
  | .setRoot p => t ∈ m.now.xHolders p ∧ m.now.level p = none ∧ (0 < p ∧ p < noNeighbour) ∧
      m.now.page p = { BTreeNode.new false with link := m.now.root }
  | .insertInPage p key payload => m.now.level p = some 0 ∧ m.now.tree.Covers p key ∧
      key.length + payload.length ≤ maxKVSize ∧
      (m.now.page p).hasSpaceFor key.length payload.length = true ∧
      Pending t (.insert key payload) m.now.trace
  | .removeSlot p slotId => m.now.level p = some 0 ∧ slotId < (m.now.page p).count ∧
      Pending t (.remove ((m.now.page p).fullKey slotId)) m.now.trace
  | .updatePayload p slotId fn => m.now.level p = some 0 ∧ slotId < (m.now.page p).count ∧
      Pending t (.updateInPlace ((m.now.page p).fullKey slotId) fn) m.now.trace
  | .mergeNodes p slotId parent right => m.now.level parent = some 1 ∧
      slotId + 1 < (m.now.page parent).count ∧ (m.now.page parent).getChild slotId = p ∧
      (m.now.page parent).getChild (slotId + 1) = right
  | .splitNode p newPID parent sepSlot sep => MaySplit m p newPID parent sepSlot sep
  | .call _ => Resting t m.now.trace
  | .ret a => ∃ c, Returned t a c m.now.trace
  | .crash f => Expected f
  | .yield (some (p, _)) => steady → MayWait t m p
  | _ => True

/-- How the threads rely on each other. -/
def alliance (steady : Prop) : Alliance signature (Point τ) τ where
  inv := Inv
  advance := Advance
  spare := Spare
  legal := Legal steady
  assumed := fun t m => m.now.Assumed steady t
  advance_refl := Advance.refl
  advance_trans := fun _ _ _ => Advance.trans
  spare_refl := Spare.refl
  spare_trans := fun _ _ _ _ => Spare.trans

end Point

/-! ## What an operation touches -/

/-- The pages of which an operation changes the sight. -/
def Op.touched : Op → List PID
  | .construct p _ => [p]
  | .setUpperInnerNode p _ => [p]
  | .setRoot p => [p, metadataPageId]
  | .insertInPage p _ _ => [p]
  | .removeSlot p _ => [p]
  | .updatePayload p _ _ => [p]
  | .mergeNodes p _ parent right => [p, parent, right]
  | .splitNode p newPID parent _ _ => [p, newPID, parent]
  | _ => []

variable [DecidableEq τ] {t : τ} {c : Choice} {o : Op} {s s' : Sys τ}

omit [DecidableEq τ] in
lemma Sys.sight_setPage {p q : PID} (h : q ≠ p) (s : Sys τ) (n : BTreeNode) :
    (s.setPage p n).sight q = s.sight q := by
  simp [sight, setPage, h]

omit [DecidableEq τ] in
lemma Sys.sight_setLevel {p q : PID} (h : q ≠ p) (s : Sys τ) (l : Option Nat) :
    (s.setLevel p l).sight q = s.sight q := by
  simp [sight, setLevel, h]

/-- The pages that an operation does not touch look the same. -/
lemma sight_perform {r : o.Res} (h : Sys.perform t c o s = some (r, s')) {q : PID}
    (hq : q ∉ o.touched) : s'.sight q = s.sight q := by
  cases o with
  | cas site p old new =>
    simp only [Sys.perform] at h
    split at h <;> (obtain ⟨-, rfl⟩ := Prod.mk.inj (Option.some.inj h); rfl)
  | residentInsert p =>
    obtain ⟨-, rfl⟩ := Prod.mk.inj (Option.some.inj h)
    unfold Sys.residentInsert
    split <;> rfl
  | construct p isLeaf =>
    obtain ⟨-, rfl⟩ := Prod.mk.inj (Option.some.inj h)
    exact Sys.sight_setPage (by simpa [Op.touched] using hq) _ _
  | setUpperInnerNode p r =>
    obtain ⟨-, rfl⟩ := Prod.mk.inj (Option.some.inj h)
    exact Sys.sight_setPage (by simpa [Op.touched] using hq) _ _
  | setRoot p =>
    obtain ⟨-, rfl⟩ := Prod.mk.inj (Option.some.inj h)
    simp only [Op.touched, List.mem_cons, List.not_mem_nil, or_false, not_or] at hq
    change (({ s with root := p } : Sys τ).setLevel p _).sight q = _
    rw [Sys.sight_setLevel hq.1]
    simp [Sys.sight, hq.2]
  | insertInPage p key payload =>
    obtain ⟨-, rfl⟩ := Prod.mk.inj (Option.some.inj h)
    unfold Sys.insertInPage
    split
    · exact Sys.sight_setPage (by simpa [Op.touched] using hq) _ _
    · rfl
  | removeSlot p slotId =>
    obtain ⟨-, rfl⟩ := Prod.mk.inj (Option.some.inj h)
    exact Sys.sight_setPage (by simpa [Op.touched] using hq) _ _
  | updatePayload p slotId fn =>
    obtain ⟨-, rfl⟩ := Prod.mk.inj (Option.some.inj h)
    unfold Sys.updatePayload
    split
    · exact Sys.sight_setPage (by simpa [Op.touched] using hq) _ _
    · rfl
  | mergeNodes p slotId parent right =>
    obtain ⟨-, rfl⟩ := Prod.mk.inj (Option.some.inj h)
    simp only [Op.touched, List.mem_cons, List.not_mem_nil, or_false, not_or] at hq
    split
    · exact (Sys.sight_setLevel hq.2.2 _ _).trans ((Sys.sight_setPage hq.2.1 _ _).trans
        (Sys.sight_setPage hq.1 _ _))
    · rfl
    · rfl
  | splitNode p newPID parent sepSlot sep =>
    obtain ⟨-, rfl⟩ := Prod.mk.inj (Option.some.inj h)
    simp only [Op.touched, List.mem_cons, List.not_mem_nil, or_false, not_or] at hq
    unfold Sys.splitNode
    split
    · exact (Sys.sight_setLevel hq.2.1 _ _).trans ((Sys.sight_setPage hq.2.2 _ _).trans
        ((Sys.sight_setPage hq.2.1 _ _).trans (Sys.sight_setPage hq.1 _ _)))
    · rfl
  | halt => cases h
  | _ => obtain ⟨-, rfl⟩ := Prod.mk.inj (Option.some.inj h); rfl

/-- The events that an operation adds to the trace. -/
lemma trace_perform {r : o.Res} (h : Sys.perform t c o s = some (r, s')) :
    ∃ es, s'.trace = s.trace ++ es ∧ ∀ e ∈ es, e.thread = t := by
  have hsame : s'.trace = s.trace → ∃ es, s'.trace = s.trace ++ es ∧ ∀ e ∈ es, e.thread = t :=
    fun heq => ⟨[], by rw [heq, List.append_nil], fun e he => by cases he⟩
  have hone : ∀ e : Event τ, e.thread = t → s'.trace = s.trace ++ [e] →
      ∃ es, s'.trace = s.trace ++ es ∧ ∀ e ∈ es, e.thread = t := by
    refine fun e he heq => ⟨[e], heq, fun e' he' => ?_⟩
    rw [List.mem_singleton.mp he']
    exact he
  cases o with
  | cas site p old new =>
    simp only [Sys.perform] at h
    split at h <;> (obtain ⟨-, rfl⟩ := Prod.mk.inj (Option.some.inj h); exact hsame rfl)
  | residentInsert p =>
    obtain ⟨-, rfl⟩ := Prod.mk.inj (Option.some.inj h)
    refine hsame ?_
    unfold Sys.residentInsert
    split <;> rfl
  | insertInPage p key payload =>
    obtain ⟨-, rfl⟩ := Prod.mk.inj (Option.some.inj h)
    unfold Sys.insertInPage at hsame hone ⊢
    split
    · rename_i n hn
      rw [hn] at hone
      exact hone (.effect t _) rfl rfl
    · rename_i f hf
      rw [hf] at hsame
      exact hsame rfl
  | removeSlot p slotId =>
    obtain ⟨-, rfl⟩ := Prod.mk.inj (Option.some.inj h)
    exact hone (.effect t _) rfl rfl
  | updatePayload p slotId fn =>
    obtain ⟨-, rfl⟩ := Prod.mk.inj (Option.some.inj h)
    unfold Sys.updatePayload at hsame hone ⊢
    split
    · rename_i n hn
      rw [hn] at hone
      exact hone (.effect t _) rfl rfl
    · rename_i f hf
      rw [hf] at hsame
      exact hsame rfl
  | mergeNodes p slotId parent right =>
    obtain ⟨-, rfl⟩ := Prod.mk.inj (Option.some.inj h)
    refine hsame ?_
    split <;> rfl
  | splitNode p newPID parent sepSlot sep =>
    obtain ⟨-, rfl⟩ := Prod.mk.inj (Option.some.inj h)
    refine hsame ?_
    unfold Sys.splitNode
    split <;> rfl
  | call cl => obtain ⟨-, rfl⟩ := Prod.mk.inj (Option.some.inj h); exact hone (.call t cl) rfl rfl
  | ret a => obtain ⟨-, rfl⟩ := Prod.mk.inj (Option.some.inj h); exact hone (.ret t a) rfl rfl
  | halt => cases h
  | _ => obtain ⟨-, rfl⟩ := Prod.mk.inj (Option.some.inj h); exact hsame rfl

end MemSafeDB
