import MemSafeDB.Lib.BoundedQueue
import Mathlib.Data.List.Count
import Mathlib.Logic.Function.Basic
import Mathlib.Logic.Relation

/-!
# The queue benchmark

As many producers as consumers share a queue. A producer pushes a given number of items, a
consumer pops items until it sees `done` and finds the queue empty after that, and the main thread
starts them all, joins the producers, stores `done` and joins the consumers. A step of a thread is
one access to what the threads share.
-/

namespace MemSafeDB.QueueBench
open Lib

/-- Where a producer stands. -/
inductive ProducerPc where
  | unborn
  /-- before the test `i != iterations` -/
  | loop (i : BitVec 32)
  /-- before an attempt to push -/
  | pushing (i value : BitVec 32)
  | finished
  deriving DecidableEq

/-- Where a consumer stands. -/
inductive ConsumerPc where
  | unborn
  /-- before the test `!done` -/
  | check
  /-- before a pop in the loop -/
  | popping
  /-- before `++(consumer_counts[id].cnt)` in the loop -/
  | counting
  /-- before a pop behind the loop -/
  | draining
  /-- before `++(consumer_counts[id].cnt)` behind the loop -/
  | drainCounting
  | finished
  deriving DecidableEq

/-- Where the main thread stands. -/
inductive MainPc where
  | startConsumer (i : Nat)
  | startProducer (i : Nat)
  | joinProducer (i : Nat)
  | storeDone
  | joinConsumer (i : Nat)
  | finished
  deriving DecidableEq

inductive Thread (n : Nat) where
  | main
  | producer (id : Fin n)
  | consumer (id : Fin n)
  deriving DecidableEq

variable (Q : BoundedQueue (BitVec 64)) (n : Nat)

structure State where
  main : MainPc
  producer : Fin n → ProducerPc
  consumer : Fin n → ConsumerPc
  /-- `queue_test` -/
  queue : Q.State
  done : Bool
  producerCounts : Fin n → BitVec 32
  consumerCounts : Fin n → BitVec 32
  /-- what was pushed so far and by which producer, the first push first; no thread reads it -/
  pushed : List (Fin n × BitVec 64)
  /-- what was popped so far and by which consumer, the first pop first; no thread reads it -/
  popped : List (Fin n × BitVec 64)

/-- Before the main thread starts any other. -/
def start : State Q n where
  main := .startConsumer 0
  producer _ := .unborn
  consumer _ := .unborn
  queue := Q.empty
  done := false
  producerCounts _ := 0
  consumerCounts _ := 0
  pushed := []
  popped := []

variable {Q n}

namespace State

def setMain (s : State Q n) (pc : MainPc) : State Q n := { s with main := pc }

def setProducer (s : State Q n) (id : Fin n) (pc : ProducerPc) : State Q n :=
  { s with producer := Function.update s.producer id pc }

def setConsumer (s : State Q n) (id : Fin n) (pc : ConsumerPc) : State Q n :=
  { s with consumer := Function.update s.consumer id pc }

/-- `++(producer_counts[id].cnt)` -/
def countProduced (s : State Q n) (id : Fin n) : State Q n :=
  { s with producerCounts := Function.update s.producerCounts id (s.producerCounts id + 1) }

/-- `++(consumer_counts[id].cnt)` -/
def countConsumed (s : State Q n) (id : Fin n) : State Q n :=
  { s with consumerCounts := Function.update s.consumerCounts id (s.consumerCounts id + 1) }

/-- A push that succeeds. -/
def recordPush (s : State Q n) (id : Fin n) (v : BitVec 64) (q : Q.State) : State Q n :=
  { s with queue := q, pushed := s.pushed ++ [(id, v)] }

/-- A pop that succeeds. -/
def recordPop (s : State Q n) (id : Fin n) (v : BitVec 64) (q : Q.State) : State Q n :=
  { s with queue := q, popped := s.popped ++ [(id, v)] }

/-- How many items a producer has pushed. -/
def pushedBy (s : State Q n) (id : Fin n) : Nat := (s.pushed.map Prod.fst).count id

/-- How many items a consumer has popped. -/
def poppedBy (s : State Q n) (id : Fin n) : Nat := (s.popped.map Prod.fst).count id

end State

/-- `producer`; both sides of `i != iterations` have 64 bits. -/
def producerStep (iterations : BitVec 64) (id : Fin n) (s : State Q n) : Option (State Q n) :=
  match s.producer id with
  | .unborn | .finished => none
  | .loop i =>
    if i.signExtend 64 ≠ iterations then
      some ((s.countProduced id).setProducer id (.pushing i (s.producerCounts id + 1)))
    else some (s.setProducer id .finished)
  | .pushing i value =>
    match Q.push (value.signExtend 64) s.queue with
    | some q => some ((s.recordPush id (value.signExtend 64) q).setProducer id (.loop (i + 1)))
    | none => some s

/-- `consumer` -/
def consumerStep (id : Fin n) (s : State Q n) : Option (State Q n) :=
  match s.consumer id with
  | .unborn | .finished => none
  | .check => some (s.setConsumer id (if s.done then .draining else .popping))
  | .popping =>
    match Q.pop s.queue with
    | some (v, q) => some ((s.recordPop id v q).setConsumer id .counting)
    | none => some (s.setConsumer id .check)
  | .counting => some ((s.countConsumed id).setConsumer id .popping)
  | .draining =>
    match Q.pop s.queue with
    | some (v, q) => some ((s.recordPop id v q).setConsumer id .drainCounting)
    | none => some (s.setConsumer id .finished)
  | .drainCounting => some ((s.countConsumed id).setConsumer id .draining)

/-- `main`; a join waits until the thread is finished. -/
def mainStep (s : State Q n) : Option (State Q n) :=
  match s.main with
  | .startConsumer i =>
    if h : i < n then some ((s.setConsumer ⟨i, h⟩ .check).setMain (.startConsumer (i + 1)))
    else some (s.setMain (.startProducer 0))
  | .startProducer i =>
    if h : i < n then some ((s.setProducer ⟨i, h⟩ (.loop 0)).setMain (.startProducer (i + 1)))
    else some (s.setMain (.joinProducer 0))
  | .joinProducer i =>
    if h : i < n then
      if s.producer ⟨i, h⟩ = .finished then some (s.setMain (.joinProducer (i + 1))) else none
    else some (s.setMain .storeDone)
  | .storeDone => some ({ s with done := true }.setMain (.joinConsumer 0))
  | .joinConsumer i =>
    if h : i < n then
      if s.consumer ⟨i, h⟩ = .finished then some (s.setMain (.joinConsumer (i + 1))) else none
    else some (s.setMain .finished)
  | .finished => none

def step (iterations : BitVec 64) : Thread n → State Q n → Option (State Q n)
  | .main => mainStep
  | .producer id => producerStep iterations id
  | .consumer id => consumerStep id

/-- Some thread takes a step. -/
def Step (iterations : BitVec 64) (s s' : State Q n) : Prop := ∃ t, step iterations t s = some s'

/-- Any number of steps of any threads. -/
def Reach (iterations : BitVec 64) : State Q n → State Q n → Prop :=
  Relation.ReflTransGen (Step iterations)

/-- `iterations*producer_thread_count`, which the main thread prints at its end. -/
def reported (iterations : BitVec 64) (n : Nat) : BitVec 64 := iterations * BitVec.ofNat 64 n

end MemSafeDB.QueueBench
