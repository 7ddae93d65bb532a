import MemSafeDB.QueueBench.Threads
import Mathlib.Algebra.BigOperators.Fin
import Mathlib.Algebra.Order.Ring.Int
import Mathlib.Algebra.Order.BigOperators.Group.Finset
import Mathlib.Data.Multiset.Count

/-!
# No item is lost

When `done` is set, all producers have been joined, so nothing is pushed any more, and a consumer
that then finds the queue empty leaves it empty. The counters have 32 bits: each is the number of
items that its thread has moved in this arithmetic.
-/

namespace MemSafeDB.QueueBench
open Lib

variable {Q : BoundedQueue (BitVec 64)} {n : Nat} {iterations : BitVec 64}

/-! ## What holds in every state -/

/-- A producer that stands at `pc` has counted `count`, and pushed `k` items. -/
def ProducerAt (iterations : BitVec 64) (count : BitVec 32) (k : Nat) : ProducerPc → Prop
  | .unborn => count = 0 ∧ k = 0
  | .loop i => count = i ∧ i.toNat = k ∧ k ≤ iterations.toNat
  | .pushing i _ => count = i + 1 ∧ i.toNat = k ∧ k < iterations.toNat
  | .finished => count = BitVec.ofNat 32 k ∧ k = iterations.toNat

/-- The items that a consumer has popped and not counted yet. -/
def ConsumerPc.owed : ConsumerPc → BitVec 32
  | .counting | .drainCounting => 1
  | _ => 0

/-- A consumer behind its loop. -/
def ConsumerPc.Leaving (pc : ConsumerPc) : Prop :=
  pc = .draining ∨ pc = .drainCounting ∨ pc = .finished

/-- What the place of the main thread says about the others. -/
def MainAt (producer : Fin n → ProducerPc) (consumer : Fin n → ConsumerPc) (done : Bool) :
    MainPc → Prop
  | .startConsumer i => (∀ id, producer id = .unborn) ∧ ∀ id : Fin n, i ≤ id → consumer id = .unborn
  | .startProducer i => ∀ id : Fin n, i ≤ id → producer id = .unborn
  | .joinProducer i => ∀ id : Fin n, id < i → producer id = .finished
  | .storeDone => ∀ id, producer id = .finished
  | .joinConsumer i => done = true ∧ ∀ id : Fin n, id < i → consumer id = .finished
  | .finished => done = true ∧ ∀ id, consumer id = .finished

structure Inv (iterations : BitVec 64) (s : State Q n) : Prop where
  /-- the items are popped in the order in which they were pushed -/
  fifo : s.pushed.map Prod.snd = s.popped.map Prod.snd ++ Q.contents s.queue
  producer : ∀ id, ProducerAt iterations (s.producerCounts id) (s.pushedBy id) (s.producer id)
  consumer : ∀ id, s.consumerCounts id + (s.consumer id).owed = BitVec.ofNat 32 (s.poppedBy id)
  done : s.done = true → ∀ id, s.producer id = .finished
  leaving : ∀ id, (s.consumer id).Leaving → s.done = true
  empty : ∀ id, s.consumer id = .finished → Q.contents s.queue = []
  main : MainAt s.producer s.consumer s.done s.main

lemma inv_start : Inv iterations (start Q n) where
  fifo := Q.contents_empty.symm
  producer _ := ⟨rfl, rfl⟩
  consumer _ := rfl
  done h := by cases h
  leaving id h := by rcases h with h | h | h <;> cases h
  empty id h := by cases h
  main := ⟨fun _ => rfl, fun _ _ => rfl⟩

/-! ## Steps of a producer -/

section Moves

variable {producer : Fin n → ProducerPc} {consumer : Fin n → ConsumerPc} {done : Bool} {main : MainPc}
  {id : Fin n}

/-- A producer that is running may go anywhere. -/
lemma MainAt.producer_moves (h : MainAt producer consumer done main) (hborn : producer id ≠ .unborn)
    (hrun : producer id ≠ .finished) (pc : ProducerPc) :
    MainAt (Function.update producer id pc) consumer done main := by
  have hne : ∀ {pc' id'}, producer id ≠ pc' → producer id' = pc' →
      Function.update producer id pc id' = pc' := by
    intro pc' id' hid hid'
    rw [Function.update_of_ne (fun heq : id' = id => hid (heq ▸ hid')), hid']
  cases main with
  | startConsumer i => exact absurd (h.1 id) hborn
  | startProducer i => exact fun id' hle => hne hborn (h id' hle)
  | joinProducer i => exact fun id' hlt => hne hrun (h id' hlt)
  | storeDone => exact absurd (h id) hrun
  | joinConsumer i => exact h
  | finished => exact h

/-- A consumer that is running may go anywhere. -/
lemma MainAt.consumer_moves (h : MainAt producer consumer done main) (hborn : consumer id ≠ .unborn)
    (hrun : consumer id ≠ .finished) (pc : ConsumerPc) :
    MainAt producer (Function.update consumer id pc) done main := by
  have hne : ∀ {pc' id'}, consumer id ≠ pc' → consumer id' = pc' →
      Function.update consumer id pc id' = pc' := by
    intro pc' id' hid hid'
    rw [Function.update_of_ne (fun heq : id' = id => hid (heq ▸ hid')), hid']
  cases main with
  | startConsumer i => exact ⟨h.1, fun id' hle => hne hborn (h.2 id' hle)⟩
  | startProducer i => exact h
  | joinProducer i => exact h
  | storeDone => exact h
  | joinConsumer i => exact ⟨h.1, fun id' hlt => hne hrun (h.2 id' hlt)⟩
  | finished => exact absurd (h.2 id) hrun

end Moves

lemma signExtend_eq_iff {i : BitVec 32} (hi : i.toNat < 2 ^ 31) :
    i.signExtend 64 = iterations ↔ i.toNat = iterations.toNat := by
  have hmsb : i.msb = false := by
    rw [BitVec.msb_eq_false_iff_two_mul_lt]
    omega
  rw [BitVec.signExtend_eq_setWidth_of_msb_false hmsb, ← BitVec.toNat_inj, BitVec.toNat_setWidth,
    Nat.mod_eq_of_lt (by omega)]

variable {s s' : State Q n} {id : Fin n}

lemma Inv.not_done (h : Inv iterations s) (hid : s.producer id ≠ .finished) : s.done = false := by
  rw [← Bool.not_eq_true]
  exact fun hdone => hid (h.done hdone id)

lemma pushedBy_recordPush (s : State Q n) (id id' : Fin n) (v : BitVec 64) (q : Q.State) :
    (s.recordPush id v q).pushedBy id' = s.pushedBy id' + if id = id' then 1 else 0 := by
  simp [State.recordPush, State.pushedBy, List.count_append, List.count_singleton]

lemma poppedBy_recordPop (s : State Q n) (id id' : Fin n) (v : BitVec 64) (q : Q.State) :
    (s.recordPop id v q).poppedBy id' = s.poppedBy id' + if id = id' then 1 else 0 := by
  simp [State.recordPop, State.poppedBy, List.count_append, List.count_singleton]

lemma Inv.loop (h : Inv iterations s) (hi : iterations.toNat < 2 ^ 31) {i : BitVec 32}
    (hpc : s.producer id = .loop i) (hne : i.signExtend 64 ≠ iterations) :
    Inv iterations ((s.countProduced id).setProducer id (.pushing i (s.producerCounts id + 1))) := by
  have hat := h.producer id
  rw [hpc] at hat
  obtain ⟨hcount, hk, hle⟩ := hat
  have hne' : i.toNat ≠ iterations.toNat :=
    fun heq => hne ((signExtend_eq_iff (by omega)).mpr heq)
  refine { h with producer := fun id' => ?_, done := fun hdone => ?_, main := ?_ }
  · by_cases hid : id' = id
    · subst hid
      simp only [State.setProducer, State.countProduced, Function.update_self]
      exact ⟨by rw [hcount], hk, by change s.pushedBy id' < _; omega⟩
    · simp only [State.setProducer, State.countProduced, Function.update_of_ne hid]
      exact h.producer id'
  · have hrun : s.producer id ≠ .finished := by simp [hpc]
    have hfalse := h.not_done hrun
    exact absurd hdone (Bool.eq_false_iff.mp hfalse)
  · exact h.main.producer_moves (by simp [hpc]) (by simp [hpc]) _

lemma Inv.leave (h : Inv iterations s) (hi : iterations.toNat < 2 ^ 31) {i : BitVec 32}
    (hpc : s.producer id = .loop i) (heq : i.signExtend 64 = iterations) :
    Inv iterations (s.setProducer id .finished) := by
  have hat := h.producer id
  rw [hpc] at hat
  obtain ⟨hcount, hk, hle⟩ := hat
  have heq' : i.toNat = iterations.toNat := (signExtend_eq_iff (by omega)).mp heq
  refine { h with producer := fun id' => ?_, done := fun hdone => ?_, main := ?_ }
  · by_cases hid : id' = id
    · subst hid
      simp only [State.setProducer, Function.update_self]
      refine ⟨?_, by change s.pushedBy id' = _; omega⟩
      change s.producerCounts id' = BitVec.ofNat 32 (s.pushedBy id')
      rw [hcount, ← hk, BitVec.ofNat_toNat, BitVec.setWidth_eq]
    · simp only [State.setProducer, Function.update_of_ne hid]
      exact h.producer id'
  · have hrun : s.producer id ≠ .finished := by simp [hpc]
    have hfalse := h.not_done hrun
    exact absurd hdone (Bool.eq_false_iff.mp hfalse)
  · exact h.main.producer_moves (by simp [hpc]) (by simp [hpc]) _

lemma Inv.push (h : Inv iterations s) (hi : iterations.toNat < 2 ^ 31) {i value : BitVec 32}
    {v : BitVec 64} {q : Q.State} (hpc : s.producer id = .pushing i value)
    (hpush : Q.push v s.queue = some q) :
    Inv iterations ((s.recordPush id v q).setProducer id (.loop (i + 1))) := by
  have hat := h.producer id
  rw [hpc] at hat
  obtain ⟨hcount, hk, hlt⟩ := hat
  have hrun : s.producer id ≠ .finished := by simp [hpc]
  have hnot := h.not_done hrun
  have hpushed : ∀ id', ((s.recordPush id v q).setProducer id (.loop (i + 1))).pushedBy id' =
      s.pushedBy id' + if id = id' then 1 else 0 := fun id' => pushedBy_recordPush s id id' v q
  refine { h with fifo := ?_, producer := fun id' => ?_, done := ?_, empty := fun id' hid' => ?_,
                  main := ?_ }
  · have hcontents := Q.push_some hpush
    simp only [State.setProducer, State.recordPush, List.map_append, List.map_cons, List.map_nil,
      hcontents, h.fifo, List.append_assoc]
  · rw [hpushed]
    by_cases hid : id' = id
    · subst hid
      simp only [State.setProducer, State.recordPush, Function.update_self, if_true]
      refine ⟨hcount, ?_, by omega⟩
      rw [BitVec.toNat_add, hk]
      exact Nat.mod_eq_of_lt (by simp; omega)
    · rw [if_neg (Ne.symm hid), add_zero]
      simp only [State.setProducer, State.recordPush, Function.update_of_ne hid]
      exact h.producer id'
  · intro hdone
    exact absurd hdone (Bool.eq_false_iff.mp hnot)
  · -- no consumer is finished before `done` is set
    exact absurd (h.leaving id' (Or.inr (Or.inr hid'))) (Bool.eq_false_iff.mp hnot)
  · exact h.main.producer_moves (by simp [hpc]) (by simp [hpc]) _

lemma Inv.producerStep (h : Inv iterations s) (hi : iterations.toNat < 2 ^ 31)
    (hs : producerStep iterations id s = some s') : Inv iterations s' := by
  rw [QueueBench.producerStep] at hs
  cases hpc : s.producer id with
  | unborn => simp [hpc] at hs
  | finished => simp [hpc] at hs
  | loop i =>
    simp only [hpc] at hs
    split_ifs at hs with hne
    · obtain rfl := Option.some.inj hs
      exact h.loop hi hpc hne
    · obtain rfl := Option.some.inj hs
      exact h.leave hi hpc (not_not.mp hne)
  | pushing i value =>
    simp only [hpc] at hs
    cases hpush : Q.push (value.signExtend 64) s.queue with
    | some q =>
      rw [hpush] at hs
      obtain rfl := Option.some.inj hs
      exact h.push hi hpc hpush
    | none =>
      rw [hpush] at hs
      obtain rfl := Option.some.inj hs
      exact h

/-! ## Steps of a consumer -/

/-- A consumer takes a step that leaves the queue and what was popped as they are. -/
lemma Inv.consumer_moves (h : Inv iterations s) {pc : ConsumerPc} {counts : Fin n → BitVec 32}
    (hborn : s.consumer id ≠ .unborn) (hrun : s.consumer id ≠ .finished)
    (hother : ∀ id', id' ≠ id → counts id' = s.consumerCounts id')
    (hcount : counts id + pc.owed = s.consumerCounts id + (s.consumer id).owed)
    (hleaving : pc.Leaving → s.done = true)
    (hempty : pc = .finished → Q.contents s.queue = []) :
    Inv iterations ({ s with consumerCounts := counts }.setConsumer id pc) := by
  refine { h with consumer := fun id' => ?_, leaving := fun id' hid' => ?_,
                  empty := fun id' hid' => ?_, main := h.main.consumer_moves hborn hrun pc }
  · by_cases hid : id' = id
    · subst hid
      simp only [State.setConsumer, Function.update_self]
      exact hcount.trans (h.consumer id')
    · simp only [State.setConsumer, Function.update_of_ne hid, hother id' hid]
      exact h.consumer id'
  · by_cases hid : id' = id
    · subst hid
      simp only [State.setConsumer, Function.update_self] at hid'
      exact hleaving hid'
    · simp only [State.setConsumer, Function.update_of_ne hid] at hid'
      exact h.leaving id' hid'
  · by_cases hid : id' = id
    · subst hid
      simp only [State.setConsumer, Function.update_self] at hid'
      exact hempty hid'
    · simp only [State.setConsumer, Function.update_of_ne hid] at hid'
      exact h.empty id' hid'

/-- A consumer pops an item, which it then owes. -/
lemma Inv.pop (h : Inv iterations s) {pc : ConsumerPc} {v : BitVec 64} {q : Q.State}
    (hborn : s.consumer id ≠ .unborn) (hrun : s.consumer id ≠ .finished)
    (hpop : Q.pop s.queue = some (v, q)) (hold : (s.consumer id).owed = 0) (hnew : pc.owed = 1)
    (hleaving : pc.Leaving → s.done = true) (hpc : pc ≠ .finished) :
    Inv iterations ((s.recordPop id v q).setConsumer id pc) := by
  have hcontents := Q.pop_some hpop
  have hpopped : ∀ id', ((s.recordPop id v q).setConsumer id pc).poppedBy id' =
      s.poppedBy id' + if id = id' then 1 else 0 := fun id' => poppedBy_recordPop s id id' v q
  refine { h with fifo := ?_, consumer := fun id' => ?_, leaving := fun id' hid' => ?_,
                  empty := fun id' hid' => ?_, main := h.main.consumer_moves hborn hrun pc }
  · simp only [State.setConsumer, State.recordPop, List.map_append, List.map_cons, List.map_nil,
      h.fifo, hcontents, List.append_assoc, List.singleton_append]
  · have hcount := h.consumer id'
    rw [hpopped]
    by_cases hid : id' = id
    · subst hid
      rw [hold, show (0 : BitVec 32) = 0#32 from rfl, BitVec.add_zero] at hcount
      simp only [State.setConsumer, State.recordPop, Function.update_self, if_true, hnew, hcount]
      exact (BitVec.ofNat_add _ _).symm
    · rw [if_neg (Ne.symm hid), add_zero]
      simp only [State.setConsumer, State.recordPop, Function.update_of_ne hid]
      exact hcount
  · by_cases hid : id' = id
    · subst hid
      simp only [State.setConsumer, State.recordPop, Function.update_self] at hid'
      exact hleaving hid'
    · simp only [State.setConsumer, State.recordPop, Function.update_of_ne hid] at hid'
      exact h.leaving id' hid'
  · -- a finished consumer has left the queue empty, so nothing could be popped
    by_cases hid : id' = id
    · subst hid
      simp only [State.setConsumer, State.recordPop, Function.update_self] at hid'
      exact absurd hid' hpc
    · simp only [State.setConsumer, State.recordPop, Function.update_of_ne hid] at hid'
      have hnil := h.empty id' hid'
      rw [hcontents] at hnil
      cases hnil

lemma Inv.consumerStep (h : Inv iterations s) (hs : consumerStep id s = some s') :
    Inv iterations s' := by
  rw [QueueBench.consumerStep] at hs
  cases hpc : s.consumer id with
  | unborn => simp [hpc] at hs
  | finished => simp [hpc] at hs
  | check =>
    simp only [hpc] at hs
    obtain rfl := Option.some.inj hs
    apply h.consumer_moves (by simp [hpc]) (by simp [hpc]) (fun _ _ => rfl)
    · rw [hpc]
      split_ifs <;> rfl
    · intro hleaving
      split_ifs at hleaving with hdone
      · exact hdone
      · rcases hleaving with hl | hl | hl <;> cases hl
    · intro hfin
      split_ifs at hfin
  | popping =>
    simp only [hpc] at hs
    cases hpop : Q.pop s.queue with
    | some r =>
      rw [hpop] at hs
      obtain rfl := Option.some.inj hs
      apply h.pop (by simp [hpc]) (by simp [hpc]) hpop (by rw [hpc]; rfl) rfl
      · intro hleaving
        rcases hleaving with hl | hl | hl <;> cases hl
      · simp
    | none =>
      rw [hpop] at hs
      obtain rfl := Option.some.inj hs
      apply h.consumer_moves (by simp [hpc]) (by simp [hpc]) (fun _ _ => rfl)
      · rw [hpc]
        rfl
      · intro hleaving
        rcases hleaving with hl | hl | hl <;> cases hl
      · intro hfin
        cases hfin
  | counting =>
    simp only [hpc] at hs
    obtain rfl := Option.some.inj hs
    apply h.consumer_moves (by simp [hpc]) (by simp [hpc])
      (fun _ hid => Function.update_of_ne hid _ _)
    · rw [Function.update_self, hpc]
      exact BitVec.add_zero _
    · intro hleaving
      rcases hleaving with hl | hl | hl <;> cases hl
    · intro hfin
      cases hfin
  | draining =>
    have hdone : s.done = true := h.leaving id (Or.inl hpc)
    simp only [hpc] at hs
    cases hpop : Q.pop s.queue with
    | some r =>
      rw [hpop] at hs
      obtain rfl := Option.some.inj hs
      exact h.pop (by simp [hpc]) (by simp [hpc]) hpop (by rw [hpc]; rfl) rfl (fun _ => hdone)
        (by simp)
    | none =>
      rw [hpop] at hs
      obtain rfl := Option.some.inj hs
      apply h.consumer_moves (by simp [hpc]) (by simp [hpc]) (fun _ _ => rfl)
      · rw [hpc]
        rfl
      · exact fun _ => hdone
      · exact fun _ => Q.pop_none hpop
  | drainCounting =>
    have hdone : s.done = true := h.leaving id (Or.inr (Or.inl hpc))
    simp only [hpc] at hs
    obtain rfl := Option.some.inj hs
    apply h.consumer_moves (by simp [hpc]) (by simp [hpc])
      (fun _ hid => Function.update_of_ne hid _ _)
    · rw [Function.update_self, hpc]
      exact BitVec.add_zero _
    · exact fun _ => hdone
    · intro hfin
      cases hfin

/-! ## Steps of the main thread -/

lemma Inv.startConsumer (h : Inv iterations s) {i : Nat} (hpc : s.main = .startConsumer i)
    (hi : i < n) :
    Inv iterations ((s.setConsumer ⟨i, hi⟩ .check).setMain (.startConsumer (i + 1))) := by
  have hmain := h.main
  rw [hpc] at hmain
  obtain ⟨hproducer, hconsumer⟩ := hmain
  have hborn : s.consumer ⟨i, hi⟩ = .unborn := hconsumer _ le_rfl
  refine { h with consumer := fun id => ?_, leaving := fun id hid => ?_,
                  empty := fun id hid => ?_, main := ⟨hproducer, fun id hle => ?_⟩ }
  · have hcount := h.consumer id
    by_cases hid : id = ⟨i, hi⟩
    · subst hid
      rw [hborn] at hcount
      simp only [State.setMain, State.setConsumer, Function.update_self]
      exact hcount
    · simp only [State.setMain, State.setConsumer, Function.update_of_ne hid]
      exact hcount
  · by_cases hid' : id = ⟨i, hi⟩
    · subst hid'
      simp only [State.setMain, State.setConsumer, Function.update_self] at hid
      rcases hid with hid | hid | hid <;> cases hid
    · simp only [State.setMain, State.setConsumer, Function.update_of_ne hid'] at hid
      exact h.leaving id hid
  · by_cases hid' : id = ⟨i, hi⟩
    · subst hid'
      simp only [State.setMain, State.setConsumer, Function.update_self] at hid
      cases hid
    · simp only [State.setMain, State.setConsumer, Function.update_of_ne hid'] at hid
      exact h.empty id hid
  · have hid : id ≠ ⟨i, hi⟩ := by
      rintro rfl
      exact absurd hle (Nat.not_succ_le_self i)
    simp only [State.setMain, State.setConsumer, Function.update_of_ne hid]
    exact hconsumer id (Nat.le_of_succ_le hle)

lemma Inv.startProducer (h : Inv iterations s) {i : Nat} (hpc : s.main = .startProducer i)
    (hi : i < n) :
    Inv iterations ((s.setProducer ⟨i, hi⟩ (.loop 0)).setMain (.startProducer (i + 1))) := by
  have hmain := h.main
  rw [hpc] at hmain
  have hborn : s.producer ⟨i, hi⟩ = .unborn := hmain _ le_rfl
  refine { h with producer := fun id => ?_, done := fun hdone => ?_, main := fun id hle => ?_ }
  · have hat := h.producer id
    by_cases hid : id = ⟨i, hi⟩
    · subst hid
      rw [hborn] at hat
      simp only [State.setMain, State.setProducer, Function.update_self]
      exact ⟨hat.1, hat.2.symm, hat.2.le.trans (Nat.zero_le _)⟩
    · simp only [State.setMain, State.setProducer, Function.update_of_ne hid]
      exact hat
  · have hfin := h.done hdone ⟨i, hi⟩
    rw [hborn] at hfin
    cases hfin
  · have hid : id ≠ ⟨i, hi⟩ := by
      rintro rfl
      exact absurd hle (Nat.not_succ_le_self i)
    simp only [State.setMain, State.setProducer, Function.update_of_ne hid]
    exact hmain id (Nat.le_of_succ_le hle)

/-- The main thread goes on and leaves all else as it is. -/
lemma Inv.setMain (h : Inv iterations s) {pc : MainPc}
    (hmain : MainAt s.producer s.consumer s.done pc) : Inv iterations (s.setMain pc) :=
  { h with main := hmain }

/-- A thread that was joined is finished, and so are those before it. -/
lemma forall_lt_succ {p : Fin n → Prop} {i : Nat} (hi : i < n) (h : ∀ id : Fin n, id < i → p id)
    (hp : p ⟨i, hi⟩) : ∀ id : Fin n, id < i + 1 → p id := by
  intro id hid
  rcases Nat.lt_succ_iff_lt_or_eq.mp hid with hlt | heq
  · exact h id hlt
  · obtain rfl : id = ⟨i, hi⟩ := Fin.ext heq
    exact hp

lemma Inv.mainStep (h : Inv iterations s) (hs : mainStep s = some s') : Inv iterations s' := by
  have hmain := h.main
  rw [QueueBench.mainStep] at hs
  cases hpc : s.main with
  | startConsumer i =>
    simp only [hpc] at hs hmain
    split_ifs at hs with hi
    · obtain rfl := Option.some.inj hs
      exact h.startConsumer hpc hi
    · obtain rfl := Option.some.inj hs
      exact h.setMain (fun id _ => hmain.1 id)
  | startProducer i =>
    simp only [hpc] at hs hmain
    split_ifs at hs with hi
    · obtain rfl := Option.some.inj hs
      exact h.startProducer hpc hi
    · obtain rfl := Option.some.inj hs
      exact h.setMain (fun id hid => absurd hid (Nat.not_lt_zero _))
  | joinProducer i =>
    simp only [hpc] at hs hmain
    split_ifs at hs with hi hfin
    · obtain rfl := Option.some.inj hs
      exact h.setMain (forall_lt_succ hi hmain hfin)
    · obtain rfl := Option.some.inj hs
      exact h.setMain (fun id => hmain id (by omega))
  | storeDone =>
    simp only [hpc] at hs hmain
    obtain rfl := Option.some.inj hs
    exact { h with
      done := fun _ => hmain
      leaving := fun _ _ => rfl
      main := ⟨rfl, fun id hid => absurd hid (Nat.not_lt_zero _)⟩ }
  | joinConsumer i =>
    simp only [hpc] at hs hmain
    split_ifs at hs with hi hfin
    · obtain rfl := Option.some.inj hs
      exact h.setMain ⟨hmain.1, forall_lt_succ hi hmain.2 hfin⟩
    · obtain rfl := Option.some.inj hs
      exact h.setMain ⟨hmain.1, fun id => hmain.2 id (by omega)⟩
  | finished => simp [hpc] at hs

/-! ## Runs -/

lemma Inv.step (h : Inv iterations s) (hi : iterations.toNat < 2 ^ 31)
    (hs : Step iterations s s') : Inv iterations s' := by
  obtain ⟨t, ht⟩ := hs
  cases t with
  | main => exact h.mainStep ht
  | producer id => exact h.producerStep hi ht
  | consumer id => exact h.consumerStep ht

/-- The invariant holds in every state that a run of the threads reaches. -/
theorem Inv.reach (h : Inv iterations s) (hi : iterations.toNat < 2 ^ 31)
    (hs : Reach iterations s s') : Inv iterations s' := by
  induction hs with
  | refl => exact h
  | tail _ hstep ih => exact ih.step hi hstep

/-! ## After the last join -/

/-- Every item has an owner. -/
lemma sum_count_fst (l : List (Fin n × BitVec 64)) :
    ∑ id, (l.map Prod.fst).count id = l.length := by
  have hsum := Multiset.sum_count_eq_card (s := Finset.univ) (m := (l.map Prod.fst : Multiset (Fin n)))
    (fun id _ => Finset.mem_univ id)
  simpa using hsum

lemma sum_pushedBy (s : State Q n) : ∑ id, s.pushedBy id = s.pushed.length := sum_count_fst _

lemma sum_poppedBy (s : State Q n) : ∑ id, s.poppedBy id = s.popped.length := sum_count_fst _

lemma toInt_ofNat_le (k : Nat) : (BitVec.ofNat 32 k).toInt ≤ k := by
  rw [BitVec.toInt_eq_toNat_cond, BitVec.toNat_ofNat]
  have hmod := Nat.mod_le k (2 ^ 32)
  split_ifs <;> omega

lemma toInt_ofNat_eq_iff (k : Nat) : (BitVec.ofNat 32 k).toInt = k ↔ k < 2 ^ 31 := by
  rw [BitVec.toInt_eq_toNat_cond, BitVec.toNat_ofNat]
  have hmod := Nat.mod_le k (2 ^ 32)
  constructor
  · intro h
    split_ifs at h <;> omega
  · intro h
    rw [Nat.mod_eq_of_lt (by omega), if_pos (by omega)]

/-- What the main thread can rely on when it has joined all others. -/
structure NothingLost (iterations : BitVec 64) (s : State Q n) : Prop where
  emptied : Q.contents s.queue = []
  /-- the items that were popped, each by the consumer that stands beside it, are those that were
  pushed -/
  once : s.popped.map Prod.snd = s.pushed.map Prod.snd
  pushed : ∀ id, s.pushedBy id = iterations.toNat
  reported : (reported iterations n).toNat = s.popped.length
  produced : ∑ id, (s.producerCounts id).toInt = iterations.toNat * n
  counted : ∀ id, s.consumerCounts id = BitVec.ofNat 32 (s.poppedBy id)
  /-- the counters of the consumers add up, unless one of them has overflowed -/
  consumed : ∑ id, (s.consumerCounts id).toInt = iterations.toNat * n ↔
    ∀ id, s.poppedBy id < 2 ^ 31

theorem nothingLost (hn : 0 < n) (hthreads : n < 2 ^ 31) (hi : iterations.toNat < 2 ^ 31)
    (hreach : Reach iterations (start Q n) s) (hend : s.main = .finished) :
    NothingLost iterations s := by
  have h : Inv iterations s := inv_start.reach hi hreach
  have hmain := h.main
  rw [hend] at hmain
  obtain ⟨hdone, hconsumer⟩ := hmain
  have hproducer := h.done hdone
  have hat : ∀ id, s.producerCounts id = BitVec.ofNat 32 (s.pushedBy id) ∧
      s.pushedBy id = iterations.toNat := by
    intro id
    have hid := h.producer id
    rw [hproducer id] at hid
    exact hid
  have hcount : ∀ id, s.consumerCounts id = BitVec.ofNat 32 (s.poppedBy id) := by
    intro id
    have hid := h.consumer id
    rw [hconsumer id] at hid
    exact (BitVec.add_zero _).symm.trans hid
  have hempty : Q.contents s.queue = [] := h.empty ⟨0, hn⟩ (hconsumer _)
  have honce : s.popped.map Prod.snd = s.pushed.map Prod.snd := by
    rw [h.fifo, hempty, List.append_nil]
  have hlength : s.popped.length = iterations.toNat * n := by
    have hlen := congrArg List.length honce
    rw [List.length_map, List.length_map, ← sum_pushedBy s] at hlen
    rw [hlen, Finset.sum_congr rfl (fun id _ => (hat id).2), Finset.sum_const, Finset.card_univ,
      Fintype.card_fin, smul_eq_mul, mul_comm]
  refine ⟨hempty, honce, fun id => (hat id).2, ?_, ?_, hcount, ?_⟩
  · have hlt : iterations.toNat * n < 2 ^ 64 :=
      lt_of_le_of_lt (Nat.mul_le_mul hi.le hthreads.le) (by decide)
    rw [QueueBench.reported, BitVec.toNat_mul, BitVec.toNat_ofNat, Nat.mod_eq_of_lt (show n < 2 ^ 64 by omega),
      Nat.mod_eq_of_lt hlt, hlength]
  · have hone : ∀ id, (s.producerCounts id).toInt = iterations.toNat := by
      intro id
      rw [(hat id).1, (hat id).2, (toInt_ofNat_eq_iff _).mpr hi]
    rw [Finset.sum_congr rfl (fun id _ => hone id), Finset.sum_const, Finset.card_univ,
      Fintype.card_fin, nsmul_eq_mul, mul_comm]
  · have hsum : ∑ id, (s.poppedBy id : Int) = iterations.toNat * n := by
      rw [← Nat.cast_sum, ← Nat.cast_mul, ← hlength]
      exact congrArg Nat.cast (sum_poppedBy s)
    rw [← hsum, Finset.sum_eq_sum_iff_of_le]
    · simp only [Finset.mem_univ, true_implies, hcount, toInt_ofNat_eq_iff]
    · intro id _
      rw [hcount]
      exact toInt_ofNat_le _

/-! ## One consumer pops all items -/

/-- The threads take steps in this order. -/
def play (iterations : BitVec 64) : List (Thread n) → State Q n → Option (State Q n)
  | [], s => some s
  | t :: ts, s => (step iterations t s).bind (play iterations ts)

lemma reach_of_play (ts : List (Thread n)) (h : play iterations ts s = some s') :
    Reach iterations s s' := by
  induction ts generalizing s with
  | nil =>
    obtain rfl := Option.some.inj h
    exact Relation.ReflTransGen.refl
  | cons t ts ih =>
    obtain ⟨s'', ht, hts⟩ := Option.bind_eq_some_iff.mp h
    exact Relation.ReflTransGen.head ⟨t, ht⟩ (ih hts)

/-- `queue_test`, as a list -/
def queueTest : BoundedQueue (BitVec 64) := BoundedQueue.ofList (BitVec 64) 65534

/-- Both consumers pop an item in the loop, one pops a second there and the other behind it. -/
def twoEach : List (Thread 2) :=
  [.main, .main, .main, .main, .main, .main, .consumer 0, .consumer 0, .producer 0, .producer 0,
    .producer 1, .producer 1, .consumer 1, .consumer 1, .consumer 1, .consumer 0, .consumer 0,
    .consumer 0, .consumer 0, .producer 0, .producer 0, .producer 0, .producer 1, .producer 1,
    .producer 1, .consumer 1, .main, .main, .main, .main, .consumer 0, .consumer 0, .consumer 0,
    .consumer 0, .consumer 1, .consumer 1, .consumer 1, .consumer 1, .main, .main, .main]

theorem nothingLost_twoEach : ∃ s : State queueTest 2, Reach 2 (start queueTest 2) s ∧
    s.main = .finished ∧ s.popped.map Prod.fst = [1, 0, 1, 0] ∧ NothingLost 2 s := by
  have hplay : (play 2 twoEach (start queueTest 2)).map
      (fun s => (s.main, s.popped.map Prod.fst)) = some (.finished, [1, 0, 1, 0]) := by
    decide +kernel
  obtain ⟨s, hs, hends⟩ := Option.map_eq_some_iff.mp hplay
  obtain ⟨hend, hpopped⟩ := Prod.mk.inj hends
  have hreach := reach_of_play _ hs
  exact ⟨s, hreach, hend, hpopped,
    nothingLost (by decide) (by decide) (by decide) hreach hend⟩

section OneConsumer

variable {p c : Fin n}

lemma Reach.head {t : Thread n} {s'' : State Q n} (h : step iterations t s = some s')
    (hr : Reach iterations s' s'') : Reach iterations s s'' :=
  Relation.ReflTransGen.head ⟨t, h⟩ hr

lemma step_loop {i : BitVec 32} (hp : s.producer p = .loop i) (hi : i.signExtend 64 ≠ iterations) :
    step iterations (.producer p) s =
      some ((s.countProduced p).setProducer p (.pushing i (s.producerCounts p + 1))) := by
  simp only [step, producerStep, hp]
  exact if_pos hi

lemma step_pushing {i value : BitVec 32} {q : Q.State} (hp : s.producer p = .pushing i value)
    (hq : Q.push (value.signExtend 64) s.queue = some q) :
    step iterations (.producer p) s =
      some ((s.recordPush p (value.signExtend 64) q).setProducer p (.loop (i + 1))) := by
  simp only [step, producerStep, hp, hq]

lemma step_popping {v : BitVec 64} {q : Q.State} (hc : s.consumer c = .popping)
    (hq : Q.pop s.queue = some (v, q)) :
    step iterations (.consumer c) s = some ((s.recordPop c v q).setConsumer c .counting) := by
  simp only [step, consumerStep, hc, hq]

lemma step_counting (hc : s.consumer c = .counting) :
    step iterations (.consumer c) s = some ((s.countConsumed c).setConsumer c .popping) := by
  simp only [step, consumerStep, hc]

/-- While the queue is empty between its items, `c` pops all that `p` pushes. -/
structure Serves (c : Fin n) (s s' : State Q n) : Prop where
  main : s'.main = s.main
  done : s'.done = s.done
  consumer : s'.consumer = s.consumer
  contents : Q.contents s'.queue = []
  popped : ∀ id ≠ c, s'.poppedBy id = s.poppedBy id

/-- The producer `p` pushes one item and the consumer `c` pops it. -/
lemma exists_item {i : BitVec 32} (hcap : 0 < Q.capacity) (hp : s.producer p = .loop i)
    (hi : i.signExtend 64 ≠ iterations) (hc : s.consumer c = .popping)
    (hempty : Q.contents s.queue = []) :
    ∃ s', Reach iterations s s' ∧ Serves c s s' ∧
      s'.producer = Function.update s.producer p (.loop (i + 1)) := by
  obtain ⟨q, q', hpush, hpop, hempty'⟩ :=
    Q.push_pop hempty hcap ((s.producerCounts p + 1).signExtend 64)
  have hpushing : ((s.countProduced p).setProducer p
      (.pushing i (s.producerCounts p + 1))).producer p = .pushing i (s.producerCounts p + 1) :=
    Function.update_self _ _ _
  refine ⟨_, Reach.head (step_loop hp hi) (Reach.head (step_pushing hpushing hpush)
    (Reach.head (step_popping hc hpop) (Reach.head (step_counting (c := c)
      (Function.update_self _ _ _)) Relation.ReflTransGen.refl))),
    ⟨rfl, rfl, ?_, hempty', fun id hid => ?_⟩, ?_⟩
  · simp [State.setConsumer, State.setProducer, State.countProduced, State.recordPush,
      State.recordPop, State.countConsumed, ← hc]
  · exact (poppedBy_recordPop _ c id _ q').trans (by rw [if_neg (Ne.symm hid)]; rfl)
  · simp [State.setConsumer, State.setProducer, State.countProduced, State.recordPush,
      State.recordPop, State.countConsumed]

lemma Serves.trans {s'' : State Q n} (h : Serves c s s') (h' : Serves c s' s'') : Serves c s s'' where
  main := h'.main.trans h.main
  done := h'.done.trans h.done
  consumer := h'.consumer.trans h.consumer
  contents := h'.contents
  popped id hid := (h'.popped id hid).trans (h.popped id hid)

/-- The producer `p` pushes all its items and the consumer `c` pops them. -/
lemma exists_items {i : BitVec 32} {k : Nat} (hcap : 0 < Q.capacity)
    (hlt : iterations.toNat < 2 ^ 31) (hp : s.producer p = .loop i)
    (hk : i.toNat + k = iterations.toNat) (hc : s.consumer c = .popping)
    (hempty : Q.contents s.queue = []) :
    ∃ s', Reach iterations s s' ∧ Serves c s s' ∧
      s'.producer = Function.update s.producer p .finished := by
  induction k generalizing s i with
  | zero =>
    have heq : i.signExtend 64 = iterations := (signExtend_eq_iff (by omega)).mpr hk
    have hstep : step iterations (.producer p) s = some (s.setProducer p .finished) := by
      simp only [step, producerStep, hp]
      exact if_neg (not_not.mpr heq)
    exact ⟨_, Reach.head hstep Relation.ReflTransGen.refl, ⟨rfl, rfl, rfl, hempty, fun _ _ => rfl⟩,
      rfl⟩
  | succ k ih =>
    have hne : i.signExtend 64 ≠ iterations := by
      intro heq
      have heq' := (signExtend_eq_iff (by omega)).mp heq
      omega
    obtain ⟨s', hreach, hserves, hproducer⟩ := exists_item hcap hp hne hc hempty
    have hnext : (i + 1).toNat = i.toNat + 1 := by
      rw [BitVec.toNat_add]
      exact Nat.mod_eq_of_lt (by simp; omega)
    obtain ⟨s'', hreach', hserves', hproducer'⟩ := ih (s := s') (i := i + 1)
      (by rw [hproducer, Function.update_self]) (by omega) (by rw [hserves.consumer, hc])
      hserves.contents
    refine ⟨s'', Relation.ReflTransGen.trans hreach hreach', hserves.trans hserves', ?_⟩
    rw [hproducer', hproducer, Function.update_idem]

@[simp] lemma setConsumer_setConsumer (s : State Q n) (c : Fin n) (pc pc' : ConsumerPc) :
    (s.setConsumer c pc).setConsumer c pc' = s.setConsumer c pc' := by
  simp [State.setConsumer]

lemma reach_noItem (hc : s.consumer c = .popping) (hempty : Q.contents s.queue = []) :
    Reach iterations s (s.setConsumer c .check) := by
  apply Relation.ReflTransGen.single
  exact ⟨.consumer c, by simp only [step, consumerStep, hc, Q.pop_eq_none hempty]⟩

/-- A consumer that sees `done` and an empty queue comes to its end. -/
lemma reach_drained (hc : s.consumer c = .check) (hdone : s.done = true)
    (hempty : Q.contents s.queue = []) : Reach iterations s (s.setConsumer c .finished) := by
  have hcheck : step iterations (.consumer c) s = some (s.setConsumer c .draining) := by
    simp [step, consumerStep, hc, hdone]
  have hdraining : (s.setConsumer c .draining).consumer c = .draining := Function.update_self _ _ _
  have hempty' : Q.pop (s.setConsumer c .draining).queue = none := Q.pop_eq_none hempty
  have hdrained : step iterations (.consumer c) (s.setConsumer c .draining) =
      some (s.setConsumer c .finished) := by
    simp only [step, consumerStep, hdraining, hempty', setConsumer_setConsumer]
  exact Reach.head hcheck (Reach.head hdrained Relation.ReflTransGen.refl)

lemma reach_main (h : mainStep s = some s') : Reach iterations s s' :=
  Relation.ReflTransGen.single ⟨.main, h⟩

end OneConsumer

/-- When both producers are finished and the queue is empty, all threads come to their end. -/
lemma exists_end (iterations : BitVec 64) {s : State Q 2} (hmain : s.main = .joinProducer 0)
    (hproducer : ∀ id, s.producer id = .finished) (hc0 : s.consumer 0 = .popping)
    (hc1 : s.consumer 1 = .check) (hempty : Q.contents s.queue = []) :
    ∃ s', Reach iterations s s' ∧ s'.main = .finished ∧ s'.popped = s.popped := by
  have hjoin : Reach iterations s ({ s with done := true }.setMain (.joinConsumer 0)) := by
    have h0 : mainStep s = some (s.setMain (.joinProducer 1)) := by
      simp [mainStep, hmain, hproducer]
    have h1 : mainStep (s.setMain (.joinProducer 1)) = some (s.setMain (.joinProducer 2)) := by
      simp [mainStep, State.setMain, hproducer]
    have h2 : mainStep (s.setMain (.joinProducer 2)) = some (s.setMain .storeDone) := by
      simp [mainStep, State.setMain]
    exact (reach_main h0).trans ((reach_main h1).trans ((reach_main h2).trans (reach_main rfl)))
  generalize hs1 : { s with done := true }.setMain (.joinConsumer 0) = s1 at hjoin
  have hdrain : Reach iterations s1 ((s1.setConsumer 0 .finished).setConsumer 1 .finished) := by
    have hcheck : Reach iterations s1 (s1.setConsumer 0 .check) := by
      apply reach_noItem
      · rw [← hs1]
        exact hc0
      · rw [← hs1]
        exact hempty
    have hend0 : Reach iterations (s1.setConsumer 0 .check) (s1.setConsumer 0 .finished) := by
      rw [← setConsumer_setConsumer s1 0 .check .finished]
      apply reach_drained
      · exact Function.update_self 0 ConsumerPc.check s1.consumer
      · rw [← hs1]
        rfl
      · rw [← hs1]
        exact hempty
    have hend1 : Reach iterations (s1.setConsumer 0 .finished)
        ((s1.setConsumer 0 .finished).setConsumer 1 .finished) := by
      apply reach_drained
      · rw [← hs1]
        exact hc1
      · rw [← hs1]
        rfl
      · rw [← hs1]
        exact hempty
    exact hcheck.trans (hend0.trans hend1)
  generalize hs2 : (s1.setConsumer 0 .finished).setConsumer 1 .finished = s2 at hdrain
  have hmain2 : s2.main = .joinConsumer 0 := by
    rw [← hs2, ← hs1]
    rfl
  have hconsumer : ∀ id, s2.consumer id = .finished := by
    rw [← hs2]
    exact Fin.forall_fin_two.mpr ⟨rfl, rfl⟩
  have h0 : mainStep s2 = some (s2.setMain (.joinConsumer 1)) := by
    simp [mainStep, hmain2, hconsumer]
  have h1 : mainStep (s2.setMain (.joinConsumer 1)) = some (s2.setMain (.joinConsumer 2)) := by
    simp [mainStep, State.setMain, hconsumer]
  have h2 : mainStep (s2.setMain (.joinConsumer 2)) = some (s2.setMain .finished) := by
    simp [mainStep, State.setMain]
  refine ⟨_, hjoin.trans (hdrain.trans ((reach_main h0).trans ((reach_main h1).trans
    (reach_main h2)))), rfl, ?_⟩
  rw [← hs2, ← hs1]
  rfl

/-- One consumer may pop all items, and then its counter overflows. -/
theorem consumer_overflows : ∃ s : State queueTest 2, Reach 0x40000000#64 (start queueTest 2) s ∧
    s.main = .finished ∧ ∑ id, (s.consumerCounts id).toInt ≠ (0x40000000#64).toNat * 2 := by
  have hplay : ∃ s : State queueTest 2, Reach 0x40000000#64 (start queueTest 2) s ∧
      s.main = .joinProducer 0 ∧ (∀ id, s.producer id = .loop 0) ∧ s.consumer 0 = .popping ∧
      s.consumer 1 = .check ∧ queueTest.contents s.queue = [] ∧ s.popped = [] :=
    ⟨_, reach_of_play [.main, .main, .main, .main, .main, .main, .consumer 0] rfl, rfl,
      Fin.forall_fin_two.mpr ⟨rfl, rfl⟩, rfl, rfl, rfl, rfl⟩
  obtain ⟨s, hstart, hmain, hproducer, hc0, hc1, hempty, hpopped⟩ := hplay
  have hcap : 0 < queueTest.capacity := by decide
  have hlt : (0x40000000#64).toNat < 2 ^ 31 := by decide
  obtain ⟨s', hreach, hserves, hp0⟩ := exists_items (k := 2 ^ 30) hcap hlt (hproducer 0) rfl hc0 hempty
  have hp1 : s'.producer 1 = .loop 0 := by
    rw [hp0]
    exact hproducer 1
  obtain ⟨s'', hreach', hserves', hp1⟩ := exists_items (k := 2 ^ 30) hcap hlt hp1 rfl
    (by rw [hserves.consumer, hc0]) hserves.contents
  have hboth := hserves.trans hserves'
  have hfin : ∀ id, s''.producer id = .finished := by
    rw [hp1, hp0]
    exact Fin.forall_fin_two.mpr ⟨rfl, rfl⟩
  obtain ⟨t, hend, htmain, htpopped⟩ := exists_end 0x40000000#64 (hboth.main.trans hmain)
    hfin (by rw [hboth.consumer, hc0]) (by rw [hboth.consumer, hc1]) hboth.contents
  have hrun := hstart.trans (hreach.trans (hreach'.trans hend))
  have hlost : NothingLost 0x40000000#64 t := nothingLost (by decide) (by decide) hlt hrun htmain
  have hone : t.poppedBy 1 = 0 := by
    have hsame := hboth.popped 1 (by decide)
    rw [State.poppedBy, State.poppedBy, hpopped] at hsame
    rw [State.poppedBy, htpopped]
    exact hsame
  have hall : t.poppedBy 0 + t.poppedBy 1 = 2 ^ 31 := by
    have hsum := sum_poppedBy t
    rw [Fin.sum_univ_two, ← hlost.reported] at hsum
    rw [hsum]
    decide
  refine ⟨t, hrun, htmain, fun hsum => ?_⟩
  have hfew := hlost.consumed.mp hsum 0
  omega

end MemSafeDB.QueueBench
