import MemSafeDB.BTree.Page

/-!
# Operations on latched pages

The operations that change a page run under an exclusive latch. They are functions on page
images. A failed assertion ends the program; so does a copy to bytes that are not in the heap
of the page (`overflow`), after which the program has no defined behaviour.
-/

namespace MemSafeDB
open Lib

/-- The assertions of the page operations. -/
inductive Assertion where
  | insertSize
  | insertInPage
  | compactify
  | mergeRightLeaf
  | mergeParentInner
  | storeKeyValue
  | copyKeyValueRange
  | insertFence
  | sepSlotPositive
  | sepSlotBound
  | parentUpper
  | parentChild
  | commonPrefixSlot
  | separatorCount
  | locked
  | sharedState
  | lockFresh
  | residentFresh
  deriving DecidableEq

/-- Why an operation does not end normally. -/
inductive Fault where
  | restart
  | assertion (a : Assertion)
  | overflow
  | outOfPages
  deriving DecidableEq

def check (a : Assertion) (p : Prop) [Decidable p] : Except Fault Unit :=
  if p then .ok () else .error (.assertion a)

def liftRead {α : Type} : Except OLCRestart α → Except Fault α
  | .ok a => .ok a
  | .error _ => .error .restart

namespace BTreeNode

/-- The constructor. Members without an initialiser hold zeros. -/
def new (isLeaf : Bool) : BTreeNode where
  link := noNeighbour
  lowerFence := ⟨0, 0⟩
  upperFence := ⟨0, 0⟩
  count := 0
  isLeaf := isLeaf
  spaceUsed := 0
  dataOffset := pageSize
  prefixLen := 0
  hint := fun _ => 0
  slot := fun _ => ⟨0, 0, 0, 0⟩
  bytes := fun _ => zeroByte

def isInner (n : BTreeNode) : Bool := !n.isLeaf

def getLowerFence (n : BTreeNode) : Key := n.bytes.read n.lowerFence.offset n.lowerFence.len

def getUpperFence (n : BTreeNode) : Key := n.bytes.read n.upperFence.offset n.upperFence.len

/-- The first `prefixLen` bytes at `getPrefix()`. -/
def getPrefix (n : BTreeNode) : Key := n.bytes.read n.lowerFence.offset n.prefixLen

/-- The stored part of the key, without the prefix. -/
def getKey (n : BTreeNode) (i : Nat) : Key := n.bytes.read (n.slot i).offset (n.slot i).keyLen

def payloadOffset (n : BTreeNode) (i : Nat) : Nat := (n.slot i).offset + (n.slot i).keyLen

def getPayload (n : BTreeNode) (i : Nat) : List Byte :=
  n.bytes.read (n.payloadOffset i) (n.slot i).payloadLen

def getChild (n : BTreeNode) (i : Nat) : PID := loadPID (n.bytes.read (n.payloadOffset i) 8)

def freeSpace (n : BTreeNode) : Nat := u32 (n.dataOffset - slotPos n.count)

def freeSpaceAfterCompaction (n : BTreeNode) : Nat :=
  u32 (pageSize - slotPos n.count - n.spaceUsed)

def spaceNeeded (n : BTreeNode) (keyLen payloadLen : Nat) : Nat :=
  u32 (slotSize + (keyLen - n.prefixLen) + payloadLen)

def hasSpaceFor (n : BTreeNode) (keyLen payloadLen : Nat) : Bool :=
  decide (n.spaceNeeded keyLen payloadLen ≤ n.freeSpaceAfterCompaction)

def lowerBound (n : BTreeNode) (key : Key) : Except Fault (Nat × Bool) :=
  liftRead (n.read (PageRead.lowerBound key))

/-- `memcpy` to offset `off` of the page, as long as the target lies in the page. Bytes that run
into the slots or the header are left to the assertion that follows the copy. -/
def storeBytes (n : BTreeNode) (off : Nat) (bs : List Byte) : Except Fault BTreeNode :=
  if off + bs.length ≤ pageSize then
    .ok { n with bytes := n.bytes.write off bs }
  else
    .error .overflow

def setSlot (n : BTreeNode) (i : Nat) (s : Slot) : BTreeNode :=
  { n with slot := Function.update n.slot i s }

/-! ## Hints -/

def makeHint (n : BTreeNode) : BTreeNode :=
  let dist := n.count / (hintCount + 1)
  { n with hint := fun i => if i < hintCount then (n.slot (dist * (i + 1))).head else n.hint i }

def updateHint (n : BTreeNode) (slotId : Nat) : BTreeNode :=
  let dist := n.count / (hintCount + 1)
  let begin_ :=
    if hintCount * 2 + 1 < n.count ∧ (n.count - 1) / (hintCount + 1) = dist ∧ 1 < slotId / dist
    then slotId / dist - 1 else 0
  { n with hint := fun i =>
      if begin_ ≤ i ∧ i < hintCount then (n.slot (dist * (i + 1))).head else n.hint i }

/-! ## Storing and copying entries -/

def storeKeyValue (n : BTreeNode) (slotId : Nat) (skey payload : Key) : Except Fault BTreeNode := do
  let key := skey.drop n.prefixLen
  let keyLen := u32 (skey.length - n.prefixLen)
  let space := u32 (keyLen + payload.length)
  let dataOffset := u16 (n.dataOffset - space)
  let n := n.setSlot slotId ⟨dataOffset, u16 keyLen, u16 payload.length, head key⟩
  let n := { n with dataOffset := dataOffset, spaceUsed := u16 (n.spaceUsed + space) }
  check .storeKeyValue (slotPos slotId ≤ dataOffset)
  if skey.length < n.prefixLen then
    -- the wrapped length makes the copy run off the page
    .error .overflow
  else
    n.storeBytes dataOffset (key ++ payload)

def copyKeyValue (n : BTreeNode) (srcSlot : Nat) (dst : BTreeNode) (dstSlot : Nat) :
    Except Fault BTreeNode :=
  dst.storeKeyValue dstSlot (n.getPrefix ++ n.getKey srcSlot) (n.getPayload srcSlot)

/-- Copies an entry to a page whose prefix is `diff` bytes longer. -/
def copyEntry (n : BTreeNode) (srcSlot : Nat) (dst : BTreeNode) (dstSlot diff : Nat) :
    Except Fault BTreeNode :=
  let s := n.slot srcSlot
  let newKeyLen := u32 (s.keyLen - diff)
  let space := u32 (newKeyLen + s.payloadLen)
  let dataOffset := u16 (dst.dataOffset - space)
  let dst := dst.setSlot dstSlot ⟨dataOffset, u16 newKeyLen, s.payloadLen,
    head (n.bytes.read (s.offset + diff) newKeyLen)⟩
  let dst := { dst with dataOffset := dataOffset, spaceUsed := u16 (dst.spaceUsed + space) }
  dst.storeBytes dataOffset (n.bytes.read (s.offset + diff) space)

/-- One round of the loops of `copyKeyValueRange`. -/
def copyStep (n : BTreeNode) (srcSlot : Nat) (dst : BTreeNode) (dstSlot : Nat) :
    Except Fault BTreeNode :=
  if n.prefixLen ≤ dst.prefixLen then
    n.copyEntry srcSlot dst dstSlot (dst.prefixLen - n.prefixLen)
  else
    n.copyKeyValue srcSlot dst dstSlot

def copyLoop (n : BTreeNode) : (rest : Nat) → (dst : BTreeNode) → (dstSlot srcSlot : Nat) →
    Except Fault BTreeNode
  | 0, dst, _, _ => .ok dst
  | rest + 1, dst, dstSlot, srcSlot => do
    let dst ← n.copyStep srcSlot dst dstSlot
    n.copyLoop rest dst (dstSlot + 1) (srcSlot + 1)

def copyKeyValueRange (n dst : BTreeNode) (dstSlot srcSlot srcCount : Nat) :
    Except Fault BTreeNode := do
  let dst ← n.copyLoop srcCount dst dstSlot srcSlot
  let dst := { dst with count := u16 (dst.count + srcCount) }
  check .copyKeyValueRange (slotPos dst.count ≤ dst.dataOffset)
  pure dst

/-! ## Fences -/

/-- Stores a fence and returns its slot with the node. -/
def insertFence (n : BTreeNode) (key : Key) : Except Fault (FenceKeySlot × BTreeNode) := do
  check .insertFence (key.length ≤ n.freeSpace)
  let dataOffset := u16 (n.dataOffset - key.length)
  let n := { n with dataOffset := dataOffset, spaceUsed := u16 (n.spaceUsed + key.length) }
  let n ← n.storeBytes dataOffset key
  pure (⟨dataOffset, u16 key.length⟩, n)

def setFences (n : BTreeNode) (lower upper : Key) : Except Fault BTreeNode := do
  let (fk, n) ← n.insertFence lower
  let n := { n with lowerFence := fk }
  let (fk, n) ← n.insertFence upper
  let n := { n with upperFence := fk }
  pure { n with prefixLen := commonLen lower upper }

/-! ## Changing one page -/

def compactify (n : BTreeNode) : Except Fault BTreeNode := do
  let should := n.freeSpaceAfterCompaction
  let tmp := new n.isLeaf
  let tmp ← tmp.setFences n.getLowerFence n.getUpperFence
  let tmp ← n.copyKeyValueRange tmp 0 0 n.count
  let tmp := { tmp with link := n.link }
  let n := tmp.makeHint
  check .compactify (n.freeSpace = should)
  pure n

/-- Compactifies the page if `needed` bytes are not free otherwise. -/
def makeSpace (n : BTreeNode) (needed : Nat) : Except Fault BTreeNode :=
  if n.freeSpace < needed then do
    check .insertInPage (needed ≤ n.freeSpaceAfterCompaction)
    n.compactify
  else
    pure n

def insertInPage (n : BTreeNode) (key payload : Key) : Except Fault BTreeNode := do
  let n ← n.makeSpace (n.spaceNeeded key.length payload.length)
  let (slotId, _) ← n.lowerBound key
  let n := { n with slot := moveUp n.slot slotId n.count }
  let n ← n.storeKeyValue slotId key payload
  let n := { n with count := u16 (n.count + 1) }
  pure (n.updateHint slotId)

def removeSlot (n : BTreeNode) (slotId : Nat) : BTreeNode :=
  let s := n.slot slotId
  let n := { n with spaceUsed := u16 (n.spaceUsed - s.keyLen) }
  let n := { n with spaceUsed := u16 (n.spaceUsed - s.payloadLen) }
  let n := { n with slot := moveDown n.slot slotId n.count, count := u16 (n.count - 1) }
  n.makeHint

def removeInPage (n : BTreeNode) (key : Key) : Except Fault (Bool × BTreeNode) := do
  let (slotId, found) ← n.lowerBound key
  if found then
    pure (true, n.removeSlot slotId)
  else
    pure (false, n)

/-- Overwrites the payload of a slot in place. -/
def setPayload (n : BTreeNode) (i : Nat) (bs : List Byte) : Except Fault BTreeNode :=
  n.storeBytes (n.payloadOffset i) bs

/-! ## Merging -/

/-- The part of `mergeNodes` behind the comparison with the page size. -/
def mergeEntries (n : BTreeNode) (pid : PID) (slotId : Nat) (parent right tmp : BTreeNode) :
    Except Fault (Bool × BTreeNode × BTreeNode) := do
  let tmp ← n.copyKeyValueRange tmp 0 0 n.count
  let tmp ← right.copyKeyValueRange tmp n.count 0 right.count
  let parent ← parent.setPayload (slotId + 1) (pidBytes pid)
  let parent := parent.removeSlot slotId
  let tmp := { tmp.makeHint with link := right.link }
  pure (true, tmp, parent)

/-- Merges `right` into `n`, the page `pid`; the slot of `n` in `parent` is `slotId`. Returns
whether the nodes were merged, the node and the parent. -/
def mergeNodes (n : BTreeNode) (pid : PID) (slotId : Nat) (parent right : BTreeNode) :
    Except Fault (Bool × BTreeNode × BTreeNode) := do
  if !n.isLeaf then
    pure (true, n, parent)
  else do
    check .mergeRightLeaf (right.isLeaf = true)
    check .mergeParentInner (parent.isInner = true)
    let tmp := new n.isLeaf
    let tmp ← tmp.setFences n.getLowerFence right.getUpperFence
    let leftGrow := u32 ((n.prefixLen - tmp.prefixLen) * n.count)
    let rightGrow := u32 ((right.prefixLen - tmp.prefixLen) * right.count)
    let spaceUpperBound := u32 (n.spaceUsed + right.spaceUsed + slotPos (n.count + right.count)
      + leftGrow + rightGrow)
    if pageSize < spaceUpperBound then
      pure (false, n, parent)
    else
      n.mergeEntries pid slotId parent right tmp

/-! ## Splitting -/

structure SeparatorInfo where
  /-- length of the new separator -/
  len : Nat
  /-- slot at which we split -/
  slot : Nat
  /-- if true, the separator takes `len` bytes from slot + 1 -/
  isTruncated : Bool
  deriving DecidableEq

def commonPrefix (n : BTreeNode) (slotA slotB : Nat) : Except Fault Nat := do
  check .commonPrefixSlot (slotA < n.count)
  pure (commonLen (n.getKey slotA) (n.getKey slotB))

/-- The loop that looks for a change of the common prefix; `left` slots are still to be tried. -/
def findChange (n : BTreeNode) (bestPrefixLen : Nat) : (left bestSlot : Nat) → Except Fault Nat
  | 0, bestSlot => .ok bestSlot
  | left + 1, bestSlot => do
    let c ← n.commonPrefix bestSlot 0
    if c = bestPrefixLen then
      n.findChange bestPrefixLen left (bestSlot + 1)
    else
      pure bestSlot

/-- The slot at which a leaf is split. -/
def findSplitSlot (n : BTreeNode) (splitOrdered : Bool) : Except Fault Nat := do
  if splitOrdered then
    pure (n.count - 2)
  else if 16 < n.count then do
    let lower := n.count / 2 - n.count / 16
    let upper := n.count / 2
    let bestPrefixLen ← n.commonPrefix lower 0
    let c ← n.commonPrefix (upper - 1) 0
    if bestPrefixLen ≠ c then
      n.findChange bestPrefixLen (upper - (lower + 1)) (lower + 1)
    else
      pure lower
  else
    pure ((n.count - 1) / 2)

def findSeparator (n : BTreeNode) (splitOrdered : Bool) : Except Fault SeparatorInfo := do
  check .separatorCount (1 < n.count)
  if n.isInner then
    let slotId := n.count / 2
    pure ⟨n.prefixLen + (n.slot slotId).keyLen, slotId, false⟩
  else do
    let bestSlot ← n.findSplitSlot splitOrdered
    let common ← n.commonPrefix bestSlot (bestSlot + 1)
    if bestSlot + 1 < n.count ∧ common < (n.slot bestSlot).keyLen ∧
        common + 1 < (n.slot (bestSlot + 1)).keyLen then
      pure ⟨n.prefixLen + common + 1, bestSlot, true⟩
    else
      pure ⟨n.prefixLen + (n.slot bestSlot).keyLen, bestSlot, false⟩

def getSep (n : BTreeNode) (info : SeparatorInfo) : Key :=
  n.getPrefix ++
    n.bytes.read (n.slot (info.slot + info.isTruncated.toNat)).offset (info.len - n.prefixLen)

/-- Redirects the pointer to `leftPID` at `slotId` to `newPID`. -/
def redirect (parent : BTreeNode) (slotId : Nat) (leftPID newPID : PID) :
    Except Fault BTreeNode :=
  if slotId = parent.count then do
    check .parentUpper (parent.link = leftPID)
    pure { parent with link := newPID }
  else do
    check .parentChild (parent.getChild slotId = leftPID)
    parent.setPayload slotId (pidBytes newPID)

/-- The parent after its pointer to the split node has been redirected to the right half and
the separator has been inserted for the left half, which keeps the page of the split node. -/
def splitParent (parent : BTreeNode) (sep : Key) (leftPID newPID : PID) :
    Except Fault BTreeNode := do
  let (oldParentSlot, _) ← parent.lowerBound sep
  let parent ← parent.redirect oldParentSlot leftPID newPID
  parent.insertInPage sep (pidBytes leftPID)

/-- Copies the entries of a node to the two halves of a split. -/
def splitEntries (n nodeLeft nodeRight : BTreeNode) (newPID : PID) (sepSlot : Nat) :
    Except Fault (BTreeNode × BTreeNode) :=
  if n.isLeaf then do
    let nodeLeft ← n.copyKeyValueRange nodeLeft 0 0 (sepSlot + 1)
    let nodeRight ← n.copyKeyValueRange nodeRight 0 nodeLeft.count (n.count - nodeLeft.count)
    pure ({ nodeLeft with link := newPID }, { nodeRight with link := n.link })
  else do
    -- the separator moves to the parent
    let nodeLeft ← n.copyKeyValueRange nodeLeft 0 0 sepSlot
    let nodeRight ← n.copyKeyValueRange nodeRight 0 (nodeLeft.count + 1)
      (n.count - nodeLeft.count - 1)
    pure ({ nodeLeft with link := n.getChild nodeLeft.count }, { nodeRight with link := n.link })

/-- Splits the node in page `pid` at `sepSlot`; `newPID` is the freshly allocated page of the
right half. Returns the left half, the right half and the parent. -/
def splitNode (n : BTreeNode) (pid newPID : PID) (parent : BTreeNode) (sepSlot : Nat) (sep : Key) :
    Except Fault (BTreeNode × BTreeNode × BTreeNode) := do
  let nodeLeft := new n.isLeaf
  let nodeRight := new n.isLeaf
  let nodeLeft ← nodeLeft.setFences n.getLowerFence sep
  let nodeRight ← nodeRight.setFences sep n.getUpperFence
  let parent ← parent.splitParent sep pid newPID
  let (nodeLeft, nodeRight) ← n.splitEntries nodeLeft nodeRight newPID sepSlot
  pure (nodeLeft.makeHint, nodeRight.makeHint, parent)

end BTreeNode

end MemSafeDB
