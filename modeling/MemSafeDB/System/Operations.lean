import MemSafeDB.System.Guard

/-!
# The operations of the tree

The retry loops of `BTree`. An attempt of a loop is a program that may throw; `retry` repeats it.
`trySplit` and `ensureSpace` call each other, so `trySplit` takes `ensureSpace` as an argument
and `ensureSpace` spends its bound on both its own rounds and the nested call.
-/

namespace MemSafeDB
open Lib BufferManager

/-- A retry loop: an attempt that ends in an exception is caught and repeated, and so is one
that ends with `none`. -/
def retry {α : Type} (attempt : Prog (Option α)) : Nat → Prog α
  | 0 => halt
  | fuel + 1 => do
    let outcome ← Program.tryCatch
      (do
        Program.op (S := signature) .attempt
        let r ← attempt
        Program.op (S := signature) .leave
        pure (some r))
      (fun _ => do
        Program.op (S := signature) .caught
        pure none)
    match outcome with
    | some (some a) => pure a
    | some none => retry attempt fuel
    | none =>
      yield none
      retry attempt fuel

/-- Throws away the result of an attempt that always returns. -/
def once {α : Type} (p : Prog α) : Prog (Option α) := do
  let a ← p
  pure (some a)

/-- The slot and the child that `remove` goes on with; it does not call `lookupInner`. -/
def PageRead.removeChild (key : Key) : PageRead (Nat × PID) := do
  let (pos, _) ← PageRead.lowerBound key
  let count ← PageRead.fetch .count
  let nextPage ← if pos = count then PageRead.fetch .link else PageRead.getChild pos
  pure (pos, nextPage)

namespace BTree

variable (env : Env)

/-- `init`: the metadata page and an empty leaf as the root. -/
def init : Prog Unit := do
  let page ← fixX env metadataPageId
  let rootNode ← allocGuard env true
  Program.op (S := signature) (.setRoot rootNode)
  unfixX rootNode
  unfixX page

/-! ## Searching -/

/-- The loop of `findLeafO`. -/
def descend (key : Key) (node : GuardO) : Nat → Prog GuardO
  | 0 => halt
  | fuel + 1 => do
    let inner ← readPage node.pid PageRead.isInner
    if inner then
      let child ← Program.onThrow
        (do
          let pid ← readPage node.pid (PageRead.lookupInner key)
          GuardO.ofParent env pid node)
        node.unwind
      -- the move assignment checks the old node
      Program.onThrow node.leave (do child.unwind; node.unwind)
      descend key child fuel
    else
      pure node

def findLeafO (key : Key) : Prog GuardO := do
  let metaData ← GuardO.ofPid env metadataPageId
  let node ← Program.onThrow
    (do
      let root ← peekRoot
      GuardO.ofParent env root metaData)
    metaData.unwind
  Program.onThrow metaData.leave (do node.unwind; metaData.unwind)
  descend env key node env.fuel

/-- One attempt of `lookup`; `none` stands for -1. -/
def lookupAttempt (key : Key) (payloadOutSize : Nat) : Prog (Option (List Byte × Nat)) := do
  let node ← findLeafO env key
  let result ← Program.onThrow
    (do
      let (pos, found) ← readPage node.pid (PageRead.lowerBound key)
      if found then
        let r ← readPage node.pid (PageRead.copyPayload pos payloadOutSize)
        pure (some r)
      else
        pure none)
    node.unwind
  node.leave
  pure result

def lookup (key : Key) (payloadOutSize : Nat) : Prog (Option (List Byte × Nat)) :=
  retry (once (lookupAttempt env key payloadOutSize)) env.fuel

def updateAttempt (key : Key) (fn : PayloadUpdate) : Prog Bool := do
  let node ← findLeafO env key
  let (pos, found) ← Program.onThrow (readPage node.pid (PageRead.lowerBound key)) node.unwind
  if found then
    let nodeLocked ← Program.onThrow (GuardX.ofGuardO env node) node.unwind
    Program.op (S := signature) (.updatePayload nodeLocked pos fn)
    unfixX nodeLocked
    pure true
  else
    node.leave
    pure false

def updateInPlace (key : Key) (fn : PayloadUpdate) : Prog Bool :=
  retry (once (updateAttempt env key fn)) env.fuel

/-! ## Splitting -/

/-- The new root of `trySplit`: `parent`, the guard of the metadata page, moves on to it. -/
def growRoot (node : PID) : Prog PID := do
  let newRoot ← allocGuard env false
  Program.op (S := signature) (.setUpperInnerNode newRoot node)
  Program.op (S := signature) (.setRoot newRoot)
  unfixX metadataPageId
  pure newRoot

/-- `splitNode` with its allocation of the right half. -/
def splitNode (node parent : PID) (sepSlot : Nat) (sep : Key) : Prog Unit := do
  assert .sepSlotPositive (0 < sepSlot)
  assert .sepSlotBound (sepSlot < pageSize / 8)
  let n ← view node
  let newNode ← allocGuard env n.isLeaf
  Program.op (S := signature) (.splitNode node newNode parent sepSlot sep)
  unfixX newNode

/-- The parent that `trySplit` works on. -/
def parentOrNewRoot (node parent : PID) : Prog PID :=
  if parent = metadataPageId then growRoot env node else pure parent

/-- `trySplit` below the parent that it works on. Returns what its caller's guards of the node
and the parent hold afterwards. -/
def splitBelow (ensureSpace : PID → Key → Nat → Prog Unit) (node parent : PID) :
    Prog (Option PID × Option PID) := do
  let n ← view node
  let ordered ← Program.op (S := signature) (.splitOrdered node)
  let sepInfo ← liftFault (n.findSeparator ordered)
  let q ← view parent
  if q.hasSpaceFor sepInfo.len 8 then
    splitNode env node parent sepInfo.slot (n.getSep sepInfo)
    pure (some node, some parent)
  else
    -- must split parent to make space for separator
    unfixX node
    unfixX parent
    ensureSpace parent (n.getSep sepInfo) 8
    pure (none, none)

/-- Splits the latched node, or makes space in its parent first. -/
def trySplit (ensureSpace : PID → Key → Nat → Prog Unit) (node parent : PID) :
    Prog (Option PID × Option PID) := do
  let parent ← parentOrNewRoot env node parent
  splitBelow env ensureSpace node parent

/-- The loop that descends with the parent in a second guard and stops at `toSplit`, if given. -/
def descendWithParent (key : Key) (toSplit : Option PID) (parent node : GuardO) :
    Nat → Prog (GuardO × GuardO)
  | 0 => halt
  | fuel + 1 => do
    let inner ← readPage node.pid PageRead.isInner
    if inner = true ∧ toSplit ≠ some node.pid then
      -- parent = std::move(node)
      Program.onThrow parent.leave (do node.unwind; parent.unwind)
      let child ← Program.onThrow
        (do
          let pid ← readPage node.pid (PageRead.lookupInner key)
          GuardO.ofParent env pid node)
        node.unwind
      descendWithParent key toSplit node child fuel
    else
      pure (parent, node)

/-- The guards of the metadata page and the root. -/
def openRoot : Prog (GuardO × GuardO) := do
  let parent ← GuardO.ofPid env metadataPageId
  let node ← Program.onThrow
    (do
      let root ← peekRoot
      GuardO.ofParent env root parent)
    parent.unwind
  pure (parent, node)

/-- Locks parent and node, splits the node and releases what is still held. -/
def lockAndSplit (ensureSpace : PID → Key → Nat → Prog Unit) (parent node : GuardO) :
    Prog Unit := do
  let parentLocked ← Program.onThrow (GuardX.ofGuardO env parent)
    (do node.unwind; parent.unwind)
  let nodeLocked ← Program.onThrow (GuardX.ofGuardO env node)
    (do unfixX parentLocked; node.unwind)
  let (nodeLocked, parentLocked) ← trySplit env ensureSpace nodeLocked parentLocked
  GuardX.destroy nodeLocked
  GuardX.destroy parentLocked

/-- The destructors of two guards on the normal way out. -/
def leaveBoth (parent node : GuardO) : Prog Unit := do
  Program.onThrow node.leave parent.unwind
  parent.leave

def ensureSpaceAttempt (ensureSpace : PID → Key → Nat → Prog Unit) (toSplit : PID) (key : Key)
    (payloadLen : Nat) : Prog Unit := do
  let (parent, node) ← openRoot env
  let (parent, node) ← descendWithParent env key (some toSplit) parent node env.fuel
  if node.pid = toSplit then
    let enough ← readPage node.pid (PageRead.hasSpaceFor key.length payloadLen)
    if enough then
      leaveBoth parent node -- someone else did split concurrently
    else
      lockAndSplit env ensureSpace parent node
  else
    leaveBoth parent node

def ensureSpace : Nat → PID → Key → Nat → Prog Unit
  | 0, _, _, _ => halt
  | fuel + 1, toSplit, key, payloadLen =>
    retry (once (ensureSpaceAttempt env (ensureSpace fuel) toSplit key payloadLen)) env.fuel

/-! ## Changing the contents -/

/-- One attempt of `insert`; `none` when the leaf had to be split first. -/
def insertAttempt (key payload : Key) : Prog (Option Unit) := do
  let (parent, node) ← openRoot env
  let (parent, node) ← descendWithParent env key none parent node env.fuel
  let enough ← readPage node.pid (PageRead.hasSpaceFor key.length payload.length)
  if enough then
    -- only lock leaf
    let nodeLocked ← Program.onThrow (GuardX.ofGuardO env node)
      (do node.unwind; parent.unwind)
    Program.onThrow parent.leave (do unfixX nodeLocked; parent.unwind)
    Program.op (S := signature) (.insertInPage nodeLocked key payload)
    unfixX nodeLocked
    pure (some ())
  else
    -- lock parent and leaf
    lockAndSplit env (ensureSpace env env.fuel) parent node
    pure none

def insert (key payload : Key) : Prog Unit := do
  assert .insertSize (key.length + payload.length ≤ maxKVSize)
  retry (insertAttempt env key payload) env.fuel

/-- The loop of `remove`, which also keeps the slot in the parent. -/
def descendWithSlot (key : Key) (parent node : GuardO) (pos : Nat) :
    Nat → Prog (GuardO × GuardO × Nat)
  | 0 => halt
  | fuel + 1 => do
    let inner ← readPage node.pid PageRead.isInner
    if inner then
      let (pos, nextPage) ← Program.onThrow
        (readPage node.pid (PageRead.removeChild key)) (do node.unwind; parent.unwind)
      -- parent = std::move(node)
      Program.onThrow parent.leave (do node.unwind; parent.unwind)
      let child ← Program.onThrow (GuardO.ofParent env nextPage node) node.unwind
      descendWithSlot key node child pos fuel
    else
      pure (parent, node, pos)

/-- Whether `remove` takes the way with the merge, read without latches. -/
def underfull (parent node : GuardO) (pos slotId : Nat) : Prog Bool := do
  let sizeEntry ← readPage node.pid (do
    let keyLen ← PageRead.fetch (.slotKeyLen slotId)
    let payloadLen ← PageRead.fetch (.slotPayloadLen slotId)
    pure (keyLen + payloadLen))
  let free ← readPage node.pid PageRead.freeSpaceAfterCompaction
  if underFullSize ≤ u32 (free + sizeEntry) ∧ parent.pid ≠ metadataPageId then
    readPage parent.pid (do
      let count ← PageRead.fetch .count
      if 2 ≤ count then
        let count ← PageRead.fetch .count
        pure (decide (pos + 1 < count))
      else
        pure false)
  else
    pure false

/-- The way of `remove` with the merge. -/
def removeAndMerge (parent node : GuardO) (pos slotId : Nat) : Prog Unit := do
  let parentLocked ← Program.onThrow (GuardX.ofGuardO env parent)
    (do node.unwind; parent.unwind)
  let nodeLocked ← Program.onThrow (GuardX.ofGuardO env node)
    (do unfixX parentLocked; node.unwind)
  let q ← view parentLocked
  let rightLocked ← fixX env (q.getChild (pos + 1))
  Program.op (S := signature) (.removeSlot nodeLocked slotId)
  let right ← view rightLocked
  if pageSize - underFullSize ≤ right.freeSpaceAfterCompaction then
    let _ ← Program.op (S := signature) (.mergeNodes nodeLocked pos parentLocked rightLocked)
  else
    pure ()
  unfixX rightLocked
  unfixX nodeLocked
  unfixX parentLocked

/-- The way of `remove` without a merge. -/
def removeOnly (parent node : GuardO) (slotId : Nat) : Prog Unit := do
  let nodeLocked ← Program.onThrow (GuardX.ofGuardO env node)
    (do node.unwind; parent.unwind)
  Program.onThrow parent.leave (do unfixX nodeLocked; parent.unwind)
  Program.op (S := signature) (.removeSlot nodeLocked slotId)
  unfixX nodeLocked

def removeAttempt (key : Key) : Prog Bool := do
  let (parent, node) ← openRoot env
  let (parent, node, pos) ← descendWithSlot env key parent node 0 env.fuel
  let (slotId, found) ← Program.onThrow (readPage node.pid (PageRead.lowerBound key))
    (do node.unwind; parent.unwind)
  if found then
    let merge ← underfull parent node pos slotId
    if merge then
      removeAndMerge env parent node pos slotId
    else
      removeOnly env parent node slotId
    pure true
  else
    leaveBoth parent node
    pure false

def remove (key : Key) : Prog Bool := retry (once (removeAttempt env key)) env.fuel

/-! ## Scans -/

def findLeafS (key : Key) : Prog PID :=
  retry (once (do
    let node ← findLeafO env key
    Program.onThrow (GuardS.ofGuardO node) node.unwind)) env.fuel

/-- The loop of `scanAsc`; `fn` sees the entries reported so far. -/
def scanAscLoop (fn : List (Key × Key) → Bool) (node : PID) (pos : Nat)
    (acc : List (Key × Key)) : Nat → Prog (List (Key × Key))
  | 0 => halt
  | fuel + 1 => do
    let n ← view node
    if pos < n.count then
      let acc := acc ++ [(n.fullKey pos, n.getPayload pos)]
      if fn acc then
        scanAscLoop fn node (pos + 1) acc fuel
      else
        unfixS env node
        pure acc
    else if n.link = noNeighbour then
      unfixS env node
      pure acc
    else
      let next ← fixS env n.link
      unfixS env node
      scanAscLoop fn next 0 acc fuel

def scanAsc (key : Key) (fn : List (Key × Key) → Bool) : Prog (List (Key × Key)) := do
  let node ← findLeafS env key
  let n ← view node
  let (pos, _) ← liftFault (n.lowerBound key)
  scanAscLoop env fn node pos [] env.fuel

/-- The loop of `scanDesc`; `left` is `pos + 1`. -/
def scanDescLoop (fn : Bool → List (Key × Key) → Bool) (exactMatch : Bool) (node : PID)
    (left : Nat) (acc : List (Key × Key)) : Nat → Prog (List (Key × Key))
  | 0 => halt
  | fuel + 1 => do
    let n ← view node
    match left with
    | pos + 1 =>
      let acc := acc ++ [(n.fullKey pos, n.getPayload pos)]
      if fn exactMatch acc then
        scanDescLoop fn exactMatch node pos acc fuel
      else
        unfixS env node
        pure acc
    | 0 =>
      if n.lowerFence.len = 0 then
        unfixS env node
        pure acc
      else
        -- the new leaf is latched before the old one is released
        let next ← findLeafS env n.getLowerFence
        unfixS env node
        let m ← view next
        scanDescLoop fn exactMatch next m.count acc fuel

def scanDesc (key : Key) (fn : Bool → List (Key × Key) → Bool) : Prog (List (Key × Key)) := do
  let node ← findLeafS env key
  let n ← view node
  let (pos, exactMatch) ← liftFault (n.lowerBound key)
  if pos = n.count then
    scanDescLoop env fn true node pos [] env.fuel
  else
    scanDescLoop env fn exactMatch node (pos + 1) [] env.fuel

end BTree

/-! ## Threads -/

def Call.run (env : Env) : Call → Prog Answer
  | .lookup key size => do
    let r ← BTree.lookup env key size
    pure (.lookup r)
  | .insert key payload => do
    BTree.insert env key payload
    pure .unit
  | .remove key => do
    let b ← BTree.remove env key
    pure (.bool b)
  | .updateInPlace key fn => do
    let b ← BTree.updateInPlace env key fn
    pure (.bool b)
  | .scanAsc key fn => do
    let l ← BTree.scanAsc env key fn
    pure (.scan l)
  | .scanDesc key fn => do
    let l ← BTree.scanDesc env key fn
    pure (.scan l)
  | .setSplitOrdered b => do
    Program.op (S := signature) (.setSplitOrdered b)
    pure .unit

/-- A call with the events of its beginning and its end. -/
def Call.perform (env : Env) (c : Call) : Prog Answer := do
  Program.op (S := signature) (.call c)
  let a ← c.run env
  Program.op (S := signature) (.ret a)
  pure a

/-- A thread that makes some calls one after the other. -/
def session (env : Env) : List Call → Prog (List Answer)
  | [] => pure []
  | c :: cs => do
    let a ← c.perform env
    let as ← session env cs
    pure (a :: as)

def thread (env : Env) (cs : List Call) : Prog Unit := do
  let _ ← session env cs
  pure ()

end MemSafeDB
