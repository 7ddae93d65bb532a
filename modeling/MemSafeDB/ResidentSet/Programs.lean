import MemSafeDB.Lib.History
import MemSafeDB.System.ResidentPages

/-!
# The set of resident pages among threads

The slots of `ResidentPageSet` and its clock position are atomics. Any number of threads insert
page ids, remove them and let the clock pass over a batch of slots; each of their loads and
compare-exchanges is one step. The loops have a bound on their rounds, so that a program is a finite
tree; the loop that moves the clock has one of its own.

The monitor of a thread knows how far its operation has come. It depends on the answers to its own
loads and compare-exchanges alone.
-/

namespace MemSafeDB.ResidentSet
open Lib ResidentPageSet

inductive Call where
  | insert (pid : PID)
  | remove (pid : PID)
  | iterateClockBatch (batch : Nat)

inductive Answer where
  | unit
  | bool (b : Bool)

inductive Op where
  | load (pos : Nat)
  | cas (pos : Nat) (curr new : PID)
  | loadClock
  | casClock (pos newPos : Nat)
  /-- the function that `iterateClockBatch` is given -/
  | fn (pid : PID)
  | call (c : Call)
  | ret (a : Answer)
  | crash (f : Fault)
  /-- a loop goes on beyond its bound -/
  | halt

def Op.Res : Op → Type
  | load _ => PID
  | cas _ _ _ => Bool
  | loadClock => Nat
  | casClock _ _ => Bool
  | crash _ => Empty
  | halt => Empty
  | _ => Unit

abbrev signature : Signature := ⟨Op, Op.Res⟩

abbrev Prog (α : Type) := Program signature Empty α

/-- The memory that the threads share; `count` and `mask` of the set do not change. -/
structure Table where
  set : ResidentPageSet
  clockPos : Nat

def Table.init (maxCount : Nat) : Table := ⟨.init maxCount, 0⟩

def Table.perform (s : Table) (o : Op) : Option (o.Res × Table) :=
  match o with
  | .load pos => some (s.set.ht pos, s)
  | .cas pos curr new =>
    if s.set.ht pos = curr then some (true, { s with set := s.set.store pos new })
    else some (false, s)
  | .loadClock => some (s.clockPos, s)
  | .casClock pos newPos =>
    if s.clockPos = pos then some (true, { s with clockPos := newPos }) else some (false, s)
  | .fn _ => some ((), s)
  | .call _ => some ((), s)
  | .ret _ => some ((), s)
  | .crash _ => none
  | .halt => none

def exec {τ : Type} : Exec signature Table τ Unit := fun _ _ o s => s.perform o

/-! ## The operations -/

section Operations

def load (pos : Nat) : Prog PID := Program.op (S := signature) (.load pos)

def cas (pos : Nat) (curr new : PID) : Prog Bool := Program.op (S := signature) (.cas pos curr new)

def loadClock : Prog Nat := Program.op (S := signature) .loadClock

def casClock (pos newPos : Nat) : Prog Bool := Program.op (S := signature) (.casClock pos newPos)

def fn (pid : PID) : Prog Unit := Program.op (S := signature) (.fn pid)

def halt {α : Type} : Prog α := Program.step (S := signature) .halt Empty.elim

def assert (a : Assertion) (p : Prop) [Decidable p] : Prog Unit :=
  if p then pure () else Program.step (S := signature) (.crash (.assertion a)) Empty.elim

variable (count mask : Nat)

def insertLoop (pid : PID) : Nat → Nat → Prog Unit
  | 0, _ => halt
  | rounds + 1, pos => do
    let curr ← load pos
    assert .residentFresh (curr ≠ pid)
    if curr = empty ∨ curr = tombstone then
      let ok ← cas pos curr pid
      if ok then pure () else insertLoop pid rounds ((pos + 1) &&& mask)
    else
      insertLoop pid rounds ((pos + 1) &&& mask)

def removeLoop (pid : PID) : Nat → Nat → Prog Bool
  | 0, _ => halt
  | rounds + 1, pos => do
    let curr ← load pos
    if curr = empty then
      pure false
    else if curr = pid then
      let ok ← cas pos curr tombstone
      if ok then pure true else removeLoop pid rounds ((pos + 1) &&& mask)
    else
      removeLoop pid rounds ((pos + 1) &&& mask)

/-- The loop in which `iterateClockBatch` moves the clock on. -/
def moveClock (batch : Nat) : Nat → Prog Nat
  | 0 => halt
  | rounds + 1 => do
    let pos ← loadClock
    let newPos := (pos + batch) % 2 ^ 64 % count
    let ok ← casClock pos newPos
    if ok then pure pos else moveClock batch rounds

/-- The loop in which it passes over the batch. -/
def passBatch : Nat → Nat → Prog Unit
  | 0, _ => pure ()
  | rest + 1, pos => do
    let curr ← load pos
    if curr ≠ tombstone ∧ curr ≠ empty then
      fn curr
      passBatch rest ((pos + 1) &&& mask)
    else
      passBatch rest ((pos + 1) &&& mask)

/-- The call, with loops of so many rounds. -/
def Call.run (rounds clockRounds : Nat) : Call → Prog Answer
  | .insert pid => do
    insertLoop mask pid rounds (ResidentPageSet.hash pid &&& mask)
    pure .unit
  | .remove pid => do
    let b ← removeLoop mask pid rounds (ResidentPageSet.hash pid &&& mask)
    pure (.bool b)
  | .iterateClockBatch batch => do
    let pos ← moveClock count batch clockRounds
    passBatch mask batch pos
    pure .unit

def Call.perform (rounds clockRounds : Nat) (c : Call) : Prog Unit := do
  Program.op (S := signature) (.call c)
  let a ← c.run count mask rounds clockRounds
  Program.op (S := signature) (.ret a)

def thread (rounds clockRounds : Nat) : List Call → Prog Unit
  | [] => pure ()
  | c :: cs => do
    c.perform count mask rounds clockRounds
    thread rounds clockRounds cs

end Operations

/-! ## What a thread knows -/

/-- How far the operation of a thread has come. -/
inductive Doing where
  | idle
  /-- the slots at the first `d` positions from the hash on are passed; the slot at the next one, if
  it is loaded, can be taken -/
  | inserting (pid : PID) (d : Nat) (loaded : Option PID)
  /-- `found` when the slot at the next position is loaded and holds the page id -/
  | removing (pid : PID) (d : Nat) (found : Bool)
  | moving (batch : Nat) (loaded : Option Nat)
  /-- `i` slots of the batch from `pos` on are passed; `seen` is to be given to the function -/
  | passing (pos batch i : Nat) (seen : Option PID)
  | returning (a : Answer)
  | stopped

/-- The position at this distance from the hash. -/
def position (count : Nat) (pid : PID) (d : Nat) : Nat := (ResidentPageSet.hash pid + d) % count

/-- The slot can be taken by `insert`. -/
def Open (v : PID) : Prop := v = empty ∨ v = tombstone

instance (v : PID) : Decidable (Open v) :=
  (inferInstance : Decidable (v = empty ∨ v = tombstone))

namespace Doing

variable (count : Nat)

def Legal : Doing → Op → Prop
  | idle, .call _ => True
  | inserting pid d none, .load pos => pos = position count pid d
  | inserting pid d (some v), .cas pos curr new => pos = position count pid d ∧ curr = v ∧ new = pid
  | removing pid d false, .load pos => pos = position count pid d
  | removing pid d true, .cas pos curr new =>
    pos = position count pid d ∧ curr = pid ∧ new = tombstone
  | moving _ none, .loadClock => True
  | moving batch (some pos), .casClock pos' newPos =>
    pos' = pos ∧ newPos = (pos + batch) % count
  | moving _ _, .halt => True
  | passing pos batch i none, .load pos' => i < batch ∧ pos' = (pos + i) % count
  | passing _ _ _ (some pid), .fn pid' => pid' = pid
  | returning a, .ret a' => a' = a
  | _, _ => False

/-- What the load of a slot tells. -/
def Loads : Doing → PID → Prop
  | inserting pid d none, v => v ≠ pid ∧ (¬Open v → d + 1 < count)
  | removing pid d false, v => v ≠ empty → v ≠ pid → d + 1 < count
  | _, _ => True

/-- What it tells that a compare-exchange fails. -/
def Fails : Doing → Prop
  | inserting _ d (some _) => d + 1 < count
  | removing _ d true => d + 1 < count
  | _ => True

def Answers (m : Doing) : (o : Op) → o.Res → Prop
  | .load _, v => m.Loads count v
  | .cas _ _ _, ok => ok = false → m.Fails count
  | .loadClock, pos => Nat.lt pos count
  | _, _ => True

/-- The beginning of a call. -/
def begin : Call → Doing
  | .insert pid => inserting pid 0 none
  | .remove pid => removing pid 0 false
  | .iterateClockBatch batch => moving batch none

/-- The state of the pass when it has come to slot `i`. -/
def atSlot (pos batch i : Nat) : Doing :=
  if i < batch then passing pos batch i none else returning .unit

def afterLoad : Doing → PID → Doing
  | inserting pid d none, v =>
    if Open v then inserting pid d (some v) else inserting pid (d + 1) none
  | removing pid d false, v =>
    if v = empty then returning (.bool false)
    else if v = pid then removing pid d true else removing pid (d + 1) false
  | passing pos batch i none, v =>
    if Open v then atSlot pos batch (i + 1) else passing pos batch i (some v)
  | _, _ => stopped

def afterCas : Doing → Bool → Doing
  | inserting pid d (some _), ok => if ok then returning .unit else inserting pid (d + 1) none
  | removing pid d true, ok => if ok then returning (.bool true) else removing pid (d + 1) false
  | _, _ => stopped

def afterCasClock : Doing → Bool → Doing
  | moving batch (some pos), ok => if ok then atSlot pos batch 0 else moving batch none
  | _, _ => stopped

def next : Doing → (o : Op) → o.Res → Doing
  | m, .load _, v => m.afterLoad v
  | m, .cas _ _ _, ok => m.afterCas ok
  | moving batch none, .loadClock, pos => moving batch (some pos)
  | m, .casClock _ _, ok => m.afterCasClock ok
  | passing pos batch i (some _), .fn _, _ => atSlot pos batch (i + 1)
  | _, .call c, _ => begin c
  | returning _, .ret _, _ => idle
  | _, _, _ => stopped

lemma next_load (m : Doing) (pos : Nat) (v : PID) : m.next (.load pos) v = m.afterLoad v := by
  cases m <;> rfl

end Doing

def monitor (count : Nat) : Monitor signature Doing where
  legal := Doing.Legal count
  answer := Doing.Answers count
  next := Doing.next

/-! ## The programs obey the monitor -/

/-- How the constants of a table belong together. -/
structure Geometry (count mask : Nat) : Prop where
  pos : 0 < count
  and_mask : ∀ x, x &&& mask = x % count
  dvd : count ∣ 2 ^ 64

/-- The program obeys the monitor and ends so. -/
def Does {α : Type} (count : Nat) (p : Prog α) (m : Doing) (Q : α → Doing → Prop) : Prop :=
  p.Obeys (monitor count) Q (fun _ _ => True) m

namespace Does

variable {count : Nat} {α β : Type} {m : Doing} {Q : α → Doing → Prop} {pos newPos : Nat}

lemma load {k : PID → Prog α} (hlegal : m.Legal count (.load pos))
    (h : ∀ v, m.Loads count v → Does count (k v) (m.afterLoad v) Q) :
    Does count (ResidentSet.load pos >>= k) m Q := ⟨hlegal, h⟩

lemma cas {curr new : PID} {k : Bool → Prog α} (hlegal : m.Legal count (.cas pos curr new))
    (htrue : Does count (k true) (m.afterCas true) Q)
    (hfalse : m.Fails count → Does count (k false) (m.afterCas false) Q) :
    Does count (ResidentSet.cas pos curr new >>= k) m Q := by
  refine ⟨hlegal, fun (ok : Bool) hok => ?_⟩
  cases ok with
  | true => exact htrue
  | false => exact hfalse (hok rfl)

lemma casClock {k : Bool → Prog α} (hlegal : m.Legal count (.casClock pos newPos))
    (h : ∀ ok, Does count (k ok) (m.afterCasClock ok) Q) :
    Does count (ResidentSet.casClock pos newPos >>= k) m Q := ⟨hlegal, fun ok _ => h ok⟩

lemma bind {Q' : β → Doing → Prop} {p : Prog α} {k : α → Prog β} (h : Does count p m Q)
    (hk : ∀ a m', Q a m' → Does count (k a) m' Q') : Does count (p >>= k) m Q' :=
  Program.Obeys.bind h hk

end Does

namespace Geometry

variable {count mask : Nat} (hg : Geometry count mask) {pid : PID} {d rounds batch pos i : Nat}
  {clockRounds : Nat}
include hg

lemma next_position : (position count pid d + 1) &&& mask = position count pid (d + 1) := by
  rw [hg.and_mask, position, Nat.mod_add_mod, Nat.add_assoc, position]

lemma first_position : ResidentPageSet.hash pid &&& mask = position count pid 0 := by
  rw [hg.and_mask, position, Nat.add_zero]

lemma does_insertLoop (hd : d < count) (hrounds : count ≤ d + rounds) :
    Does count (insertLoop mask pid rounds (position count pid d)) (.inserting pid d none)
      (fun _ m => m = .returning .unit) := by
  induction rounds generalizing d with
  | zero => omega
  | succ rounds ih =>
    have hnext : ∀ h : d + 1 < count, Does count
        (insertLoop mask pid rounds ((position count pid d + 1) &&& mask))
        (.inserting pid (d + 1) none) (fun _ m => m = .returning .unit) := by
      intro h
      rw [hg.next_position]
      exact ih h (by omega)
    refine Does.load rfl (fun v hv => ?_)
    obtain ⟨hne, hpass⟩ := hv
    rw [assert, if_pos hne]
    change Does count (if Open v then _ else _) _ _
    by_cases hopen : Open v
    · rw [Doing.afterLoad, if_pos hopen, if_pos hopen]
      exact Does.cas ⟨rfl, rfl, rfl⟩ rfl hnext
    · rw [Doing.afterLoad, if_neg hopen, if_neg hopen]
      exact hnext (hpass hopen)

lemma does_removeLoop (hd : d < count) (hrounds : count ≤ d + rounds) :
    Does count (removeLoop mask pid rounds (position count pid d)) (.removing pid d false)
      (fun b m => m = .returning (.bool b)) := by
  induction rounds generalizing d with
  | zero => omega
  | succ rounds ih =>
    have hnext : ∀ h : d + 1 < count, Does count
        (removeLoop mask pid rounds ((position count pid d + 1) &&& mask))
        (.removing pid (d + 1) false) (fun b m => m = .returning (.bool b)) := by
      intro h
      rw [hg.next_position]
      exact ih h (by omega)
    refine Does.load rfl (fun v hv => ?_)
    by_cases hempty : v = empty
    · rw [Doing.afterLoad, if_pos hempty, if_pos hempty]
      exact rfl
    rw [Doing.afterLoad, if_neg hempty, if_neg hempty]
    by_cases hpid : v = pid
    · rw [if_pos hpid, if_pos hpid]
      exact Does.cas ⟨rfl, hpid, rfl⟩ rfl hnext
    · rw [if_neg hpid, if_neg hpid]
      exact hnext (hv hempty hpid)

lemma does_moveClock : Does count (moveClock count batch rounds) (.moving batch none)
    (fun pos m => pos < count ∧ m = .atSlot pos batch 0) := by
  induction rounds with
  | zero => exact ⟨trivial, fun r => r.elim⟩
  | succ rounds ih =>
    refine ⟨trivial, fun (pos : Nat) (hpos : pos < count) => ?_⟩
    refine Does.casClock ⟨rfl, Nat.mod_mod_of_dvd _ hg.dvd⟩ (fun ok => ?_)
    cases ok with
    | true => exact ⟨hpos, rfl⟩
    | false => exact ih

lemma does_passBatch {rest : Nat} (hrest : i + rest = batch) :
    Does count (passBatch mask rest ((pos + i) % count)) (.atSlot pos batch i)
      (fun _ m => m = .returning .unit) := by
  induction rest generalizing i with
  | zero =>
    rw [Doing.atSlot, if_neg (by omega)]
    exact rfl
  | succ rest ih =>
    have hnext : Does count (passBatch mask rest (((pos + i) % count + 1) &&& mask))
        (.atSlot pos batch (i + 1)) (fun _ m => m = .returning .unit) := by
      rw [hg.and_mask, Nat.mod_add_mod, Nat.add_assoc]
      exact ih (by omega)
    have hlt : i < batch := by omega
    rw [Doing.atSlot, if_pos hlt]
    refine Does.load ⟨hlt, rfl⟩ (fun v _ => ?_)
    by_cases hopen : Open v
    · rw [Doing.afterLoad, if_pos hopen, if_neg (fun h => hopen.elim h.2 h.1)]
      exact hnext
    · rw [Doing.afterLoad, if_neg hopen, if_pos (not_or.mp hopen).symm]
      exact ⟨rfl, fun _ _ => hnext⟩

lemma does_run (hrounds : count ≤ rounds) (c : Call) :
    Does count (c.run count mask rounds clockRounds) (.begin c) (fun a m => m = .returning a) := by
  cases c with
  | insert pid =>
    have hloop := @does_insertLoop _ _ hg pid 0 rounds hg.pos (by omega)
    rw [← hg.first_position] at hloop
    exact hloop.bind (fun _ _ h => h)
  | remove pid =>
    have hloop := @does_removeLoop _ _ hg pid 0 rounds hg.pos (by omega)
    rw [← hg.first_position] at hloop
    exact hloop.bind (fun _ _ h => h)
  | iterateClockBatch batch =>
    refine hg.does_moveClock.bind ?_
    rintro pos _ ⟨hpos, rfl⟩
    have hpass := @does_passBatch _ _ hg batch pos 0 batch (Nat.zero_add batch)
    rw [Nat.add_zero, Nat.mod_eq_of_lt hpos] at hpass
    exact hpass.bind (fun _ _ h => h)

lemma does_thread (hrounds : count ≤ rounds) (cs : List Call) :
    Does count (thread count mask rounds clockRounds cs) .idle (fun _ _ => True) := by
  induction cs with
  | nil => exact trivial
  | cons c cs ih =>
    refine Does.bind (Q := fun _ m => m = .idle) ⟨trivial, fun _ _ => ?_⟩ ?_
    · refine (hg.does_run hrounds c).bind ?_
      rintro a _ rfl
      exact ⟨rfl, fun _ _ => rfl⟩
    · rintro _ _ rfl
      exact ih

end Geometry

end MemSafeDB.ResidentSet
