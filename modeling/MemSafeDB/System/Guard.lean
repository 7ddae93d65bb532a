import MemSafeDB.System.State

/-!
# The buffer manager and the guards

Programs for the functions of `PageState`, `BufferManager` and the guards. A guard is a value;
constructors and destructors are written out where the code runs them, and what unwinding runs
after an exception stands in `onThrow`. Destructors of guards that have been moved from do
nothing and are left out. Loops have a bound on their rounds and stop for good when it is used
up, so that a program is a finite tree; every finite run fits below some bound.
-/

namespace MemSafeDB
open Lib

/-- The constants of a run. -/
structure Env where
  /-- the 64-bit argument of `init` -/
  memsize : Nat
  memsize_lt : memsize < 2 ^ 64
  fuel : Nat

def Env.virtCount (env : Env) : Nat := env.memsize / pageSize

/-! ## Single operations -/

def load (site : LoadSite) (p : PID) : Prog Word := Program.op (S := signature) (.load site p)

def cas (site : CasSite) (p : PID) (old new : Word) : Prog Bool :=
  Program.op (S := signature) (.cas site p old new)

def storeUnlocked (p : PID) (v : Word) : Prog Unit :=
  Program.op (S := signature) (.storeUnlocked p v)

def nextPid : Prog PID := Program.op (S := signature) .nextPid

def residentInsert (p : PID) : Prog Unit := Program.op (S := signature) (.residentInsert p)

def peekRoot : Prog PID := Program.op (S := signature) .peekRoot

def view (p : PID) : Prog BTreeNode := Program.op (S := signature) (.view p)

def yield (wait : Option (PID × LatchMode)) : Prog Unit :=
  Program.op (S := signature) (.yield wait)

def halt {α : Type} : Prog α := Program.step (S := signature) .halt Empty.elim

def crash {α : Type} (f : Fault) : Prog α := Program.step (S := signature) (.crash f) (fun _ => halt)

def restart {α : Type} : Prog α := Program.throw .exception

def assert (a : Assertion) (p : Prop) [Decidable p] : Prog Unit :=
  if p then pure () else crash (.assertion a)

def liftFault {α : Type} : Except Fault α → Prog α
  | .ok a => pure a
  | .error f => crash f

/-- Reads a page without a latch, or under one. -/
def readPage {α : Type} (p : PID) (r : PageRead α) : Prog α :=
  r.translate (fun l => Program.op (S := signature) (.peek p l))

/-! ## PageState -/

namespace PageState

def tryLockX (p : PID) (oldStateAndVersion : Word) : Prog Bool :=
  cas .lockX p oldStateAndVersion (sameVersion oldStateAndVersion Locked)

def unlockX (p : PID) : Prog Unit := do
  let v ← load .other p
  assert .locked (getState v = Locked)
  let w ← load .other p
  storeUnlocked p (nextVersion w Unlocked)

def tryLockS (p : PID) (oldStateAndVersion : Word) : Prog Bool :=
  if getState oldStateAndVersion < MaxShared then
    cas .lockS p oldStateAndVersion
      (sameVersion oldStateAndVersion (getState oldStateAndVersion + 1))
  else if getState oldStateAndVersion = Marked then
    cas .lockS p oldStateAndVersion (sameVersion oldStateAndVersion 1)
  else
    pure false

def unlockS (p : PID) : Nat → Prog Unit
  | 0 => halt
  | fuel + 1 => do
    let v ← load .other p
    assert .sharedState (0 < getState v ∧ getState v ≤ MaxShared)
    let ok ← cas .unlockS p v (sameVersion v (getState v - 1))
    if ok then pure () else unlockS p fuel

end PageState

/-! ## BufferManager -/

namespace BufferManager
open PageState

variable (env : Env)

def unfixX (p : PID) : Prog Unit := unlockX p

def unfixS (p : PID) : Prog Unit := unlockS p env.fuel

def handleFault (p : PID) : Prog Unit := residentInsert p

def allocPage : Prog PID := do
  let pid ← nextPid
  if env.virtCount ≤ pid then
    crash .outOfPages
  else
    let v ← load .other pid
    let ok ← tryLockX pid v
    assert .lockFresh (ok = true)
    residentInsert pid
    pure pid

def fixXLoop (p : PID) : Nat → Prog PID
  | 0 => halt
  | fuel + 1 => do
    let v ← load .other p
    if getState v = Evicted then
      let ok ← tryLockX p v
      if ok then
        handleFault p
        pure p
      else
        yield (some (p, .exclusive))
        fixXLoop p fuel
    else if getState v = Marked ∨ getState v = Unlocked then
      let ok ← tryLockX p v
      if ok then
        pure p
      else
        yield (some (p, .exclusive))
        fixXLoop p fuel
    else
      yield (some (p, .exclusive))
      fixXLoop p fuel

def fixX (p : PID) : Prog PID := fixXLoop p env.fuel

/-- Takes an evicted page in, unless another thread does so first. -/
def faultIn (p : PID) (v : Word) : Prog Unit := do
  let ok ← tryLockX p v
  if ok then
    handleFault p
    unfixX p
  else
    pure ()

def fixSLoop (p : PID) : Nat → Prog PID
  | 0 => halt
  | fuel + 1 => do
    let v ← load .other p
    if getState v = Locked then
      yield (some (p, .shared))
      fixSLoop p fuel
    else if getState v = Evicted then
      faultIn p v
      yield (some (p, .shared))
      fixSLoop p fuel
    else
      let ok ← tryLockS p v
      if ok then
        pure p
      else
        yield (some (p, .shared))
        fixSLoop p fuel

def fixS (p : PID) : Prog PID := fixSLoop p env.fuel

end BufferManager

/-! ## Optimistic guards -/

structure GuardO where
  pid : PID
  version : Word

namespace GuardO
open PageState BufferManager

variable (env : Env)

/-- `GuardO::init`; returns the recorded version. -/
def init (p : PID) : Nat → Prog Word
  | 0 => halt
  | fuel + 1 => do
    let v ← load .init p
    if getState v = Marked then
      let ok ← cas .unmark p v (sameVersion v Unlocked)
      if ok then
        pure (sameVersion v Unlocked)
      else
        yield (some (p, .optimistic))
        init p fuel
    else if getState v = Locked then
      yield (some (p, .optimistic))
      init p fuel
    else if getState v = Evicted then
      faultIn p v
      yield (some (p, .optimistic))
      init p fuel
    else
      pure v

/-- The throw of `checkVersionAndRestart`, which does not happen during unwinding. -/
def restartUnless (unwinding : Bool) : Prog Unit := if unwinding then pure () else restart

def checkVersionAndRestart (g : GuardO) (unwinding : Bool) : Prog Unit := do
  let v ← load (.check g.version) g.pid
  if g.version = v then
    pure ()
  else if versionEq v g.version then
    if getState v ≤ MaxShared then
      pure () -- ignore shared locks
    else if getState v = Marked then
      let ok ← cas .unmark g.pid v (sameVersion v Unlocked)
      if ok then pure () else restartUnless unwinding
    else
      restartUnless unwinding
  else
    restartUnless unwinding

/-- The destructor on the normal way out of a scope, and `release`. -/
def leave (g : GuardO) : Prog Unit := g.checkVersionAndRestart false

/-- The destructor during unwinding. -/
def unwind (g : GuardO) : Prog Unit := g.checkVersionAndRestart true

/-- `GuardO(pid)` -/
def ofPid (p : PID) : Prog GuardO := do
  let v ← init p env.fuel
  pure ⟨p, v⟩

/-- `GuardO(pid, parent)` -/
def ofParent (p : PID) (parent : GuardO) : Prog GuardO :=
  if env.virtCount ≤ p then
    restart
  else do
    parent.checkVersionAndRestart false
    ofPid env p

end GuardO

/-! ## Latches -/

namespace GuardX
open PageState BufferManager

/-- The loop of `GuardX(GuardO&&)`; returns the latched page. -/
def upgrade (other : GuardO) : Nat → Prog PID
  | 0 => halt
  | fuel + 1 => do
    let v ← load .other other.pid
    if versionEq v other.version then
      if getState v = Unlocked ∨ getState v = Marked then
        let ok ← tryLockX other.pid v
        if ok then
          pure other.pid
        else
          yield (some (other.pid, .exclusive))
          upgrade other fuel
      else
        yield (some (other.pid, .exclusive))
        upgrade other fuel
    else
      restart

def ofGuardO (env : Env) (other : GuardO) : Prog PID := upgrade other env.fuel

/-- The destructor of a guard, which may have been released. -/
def destroy : Option PID → Prog Unit
  | none => pure ()
  | some p => unfixX p

end GuardX

/-- `AllocGuard(isLeaf)` -/
def allocGuard (env : Env) (isLeaf : Bool) : Prog PID := do
  let pid ← BufferManager.allocPage env
  Program.op (S := signature) (.construct pid isLeaf)
  pure pid

/-- `GuardS(GuardO&&)` -/
def GuardS.ofGuardO (other : GuardO) : Prog PID := do
  let ok ← PageState.tryLockS other.pid other.version
  if ok then pure other.pid else restart

end MemSafeDB
