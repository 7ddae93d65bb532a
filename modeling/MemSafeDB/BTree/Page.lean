import MemSafeDB.Lib.Lexicographic
import MemSafeDB.Lib.Memory
import MemSafeDB.Lib.Program

/-!
# Pages of the B+tree and reads without a latch

`BTreeNode` is the image of one 4096-byte page: the header fields, the slot array and the
bytes, which keys, payloads and fences occupy from the end of the page downwards. Integers
are natural numbers; `u16` and `u32` make the wrap-around of the machine types explicit.

A reader without a latch may see a page while it is rewritten, so the searches are programs
that fetch one location after the other. `BTreeNode.read` runs such a program on one image.
-/

namespace MemSafeDB
open Lib

abbrev Byte := Fin 256
def zeroByte : Byte := Fin.ofNat 256 0

/-- `span<u8>`: keys and payloads are strings of bytes. -/
abbrev Key := List Byte

def byte (n : Nat) : Byte := Fin.ofNat 256 n

/-- The key with these bytes. -/
def keyOf (ns : List Nat) : Key := ns.map byte

abbrev PID := Nat

abbrev pageSize : Nat := 4096
/-- `sizeof(BTreeNodeHeader)` -/
abbrev headerSize : Nat := 104
/-- `sizeof(Slot)`, the structure is packed -/
abbrev slotSize : Nat := 10
abbrev hintCount : Nat := 16
abbrev maxKVSize : Nat := (pageSize - headerSize - 2 * slotSize) / 4
abbrev maxSlots : Nat := (pageSize - headerSize) / slotSize
abbrev underFullSize : Nat := pageSize / 2 + pageSize / 4
abbrev noNeighbour : PID := 2 ^ 64 - 1
abbrev metadataPageId : PID := 0

/-- Conversion to `u16`. -/
def u16 (z : Int) : Nat := (z % 65536).toNat

/-- Conversion to `unsigned`. -/
def u32 (z : Int) : Nat := (z % 4294967296).toNat

lemma u16_eq {z : Int} {n : Nat} (h : z = n) (hn : n < 65536) : u16 z = n := by
  unfold u16
  omega

lemma u32_eq {z : Int} {n : Nat} (h : z = n) (hn : n < 4294967296) : u32 z = n := by
  unfold u32
  omega

structure FenceKeySlot where
  offset : Nat
  len : Nat

structure Slot where
  offset : Nat
  keyLen : Nat
  payloadLen : Nat
  head : Nat

structure BTreeNode where
  /-- the union of `upperInnerNode` (inner) and `nextLeafNode` (leaf) -/
  link : PID
  lowerFence : FenceKeySlot
  upperFence : FenceKeySlot
  count : Nat
  isLeaf : Bool
  spaceUsed : Nat
  dataOffset : Nat
  prefixLen : Nat
  hint : Nat → Nat
  slot : Nat → Slot
  /-- the bytes of the page by their offset in the page -/
  bytes : Memory Byte

/-- Byte offset of `slot[i]` in the page; `slotPos count` is the end of the slot array. -/
def slotPos (i : Nat) : Nat := headerSize + slotSize * i

lemma slotPos_eq (i : Nat) : slotPos i = 104 + 10 * i := rfl

/-- Order-preserving head of a key: its first four bytes, padded with zeros. -/
def head (key : Key) : Nat :=
  match key with
  | [] => 0
  | [a] => a.val * 2 ^ 24
  | [a, b] => (a.val * 2 ^ 8 + b.val) * 2 ^ 16
  | [a, b, c] => (a.val * 2 ^ 8 + b.val) * 2 ^ 16 + c.val * 2 ^ 8
  | a :: b :: c :: d :: _ => a.val * 2 ^ 24 + b.val * 2 ^ 16 + c.val * 2 ^ 8 + d.val

/-- `loadUnaligned<PID>` -/
def loadPID (bs : List Byte) : PID := ofLE bs

/-- The eight bytes of a page id in memory. -/
def pidBytes (pid : PID) : List Byte := toLE 8 pid

/-! ## Locations -/

/-- What one load of an optimistic reader reads. -/
inductive Loc where
  | link
  | lowerOffset
  | lowerLen
  | count
  | isLeaf
  | spaceUsed
  | prefixLen
  | hint (i : Nat)
  | slotOffset (i : Nat)
  | slotKeyLen (i : Nat)
  | slotPayloadLen (i : Nat)
  | slotHead (i : Nat)
  | byte (a : Nat)

namespace Loc

/-- First byte of the location in the page. -/
def start : Loc → Nat
  | link => 8
  | lowerOffset => 16
  | lowerLen => 18
  | count => 24
  | isLeaf => 26
  | spaceUsed => 28
  | prefixLen => 32
  | hint i => 36 + 4 * i
  | slotOffset i => slotPos i
  | slotKeyLen i => slotPos i + 2
  | slotPayloadLen i => slotPos i + 4
  | slotHead i => slotPos i + 6
  | byte a => a

def width : Loc → Nat
  | link => 8
  | isLeaf => 1
  | hint _ => 4
  | slotHead _ => 4
  | byte _ => 1
  | _ => 2

/-- The location lies in `[0, pageSize)`. -/
def InPage (l : Loc) : Prop := l.start + l.width ≤ pageSize

instance (l : Loc) : Decidable l.InPage := by unfold InPage; infer_instance

end Loc

/-- The value that a load of a location gives on an image. -/
def BTreeNode.fetch (n : BTreeNode) : Loc → Nat
  | .link => n.link
  | .lowerOffset => n.lowerFence.offset
  | .lowerLen => n.lowerFence.len
  | .count => n.count
  | .isLeaf => n.isLeaf.toNat
  | .spaceUsed => n.spaceUsed
  | .prefixLen => n.prefixLen
  | .hint i => n.hint i
  | .slotOffset i => (n.slot i).offset
  | .slotKeyLen i => (n.slot i).keyLen
  | .slotPayloadLen i => (n.slot i).payloadLen
  | .slotHead i => (n.slot i).head
  | .byte a => (n.bytes a).val

/-- `struct OLCRestartException {}` -/
inductive OLCRestart where
  | exception
  deriving DecidableEq

def pageSignature : Signature := ⟨Loc, fun _ => Nat⟩

/-- A computation that reads a page location by location and may throw. -/
abbrev PageRead (α : Type) := Program pageSignature OLCRestart α

/-- The result of a page read on one image. -/
def BTreeNode.read {α : Type} (n : BTreeNode) (p : PageRead α) : Except OLCRestart α :=
  p.interp n.fetch

namespace PageRead

def fetch (l : Loc) : PageRead Nat := Program.op (S := pageSignature) l

def restart {α : Type} : PageRead α := Program.throw .exception

/-- The bytes a `memcpy` or `memcmp` of length `len` reads from offset `off` on. -/
def fetchBytes : (len off : Nat) → PageRead (List Byte)
  | 0, _ => pure []
  | len + 1, off => do
    let b ← fetch (.byte off)
    let bs ← fetchBytes len (off + 1)
    pure (Fin.ofNat 256 b :: bs)

def isInner : PageRead Bool := do
  let leaf ← fetch .isLeaf
  pure (leaf == 0)

def safeCount : PageRead Nat := do
  let c ← fetch .count
  pure (if c < maxSlots then c else maxSlots)

def freeSpaceAfterCompaction : PageRead Nat := do
  let c ← fetch .count
  let used ← fetch .spaceUsed
  pure (u32 (pageSize - slotPos c - used))

def spaceNeeded (keyLen payloadLen : Nat) : PageRead Nat := do
  let pl ← fetch .prefixLen
  pure (u32 (slotSize + (keyLen - pl) + payloadLen))

def hasSpaceFor (keyLen payloadLen : Nat) : PageRead Bool := do
  let needed ← spaceNeeded keyLen payloadLen
  let free ← freeSpaceAfterCompaction
  pure (decide (needed ≤ free))

def slotInPage (slotId : Nat) : PageRead Bool := do
  let offset ← fetch (.slotOffset slotId)
  let keyLen ← fetch (.slotKeyLen slotId)
  let payloadLen ← fetch (.slotPayloadLen slotId)
  pure (decide (headerSize ≤ offset ∧ offset + keyLen + payloadLen ≤ pageSize))

def checkSlotOrRestart (slotId : Nat) : PageRead Unit := do
  let ok ← slotInPage slotId
  if ok then pure () else restart

/-- Whether the bytes of the lower fence lie in the page. -/
def lowerFenceInPage : PageRead Bool := do
  let offset ← fetch .lowerOffset
  let len ← fetch .lowerLen
  pure (decide (offset + len ≤ pageSize))

def getChild (slotId : Nat) : PageRead PID := do
  let offset ← fetch (.slotOffset slotId)
  let keyLen ← fetch (.slotKeyLen slotId)
  let bs ← fetchBytes 8 (offset + keyLen)
  pure (loadPID bs)

/-- The first of the hints `pos`, …, `pos + left - 1` at which the loop breaks, or its end. -/
def firstHint (stop : Nat → Bool) : (left pos : Nat) → PageRead Nat
  | 0, pos => pure pos
  | left + 1, pos => do
    let h ← fetch (.hint pos)
    if stop h then pure pos else firstHint stop left (pos + 1)

/-- Narrows `[lower, upper)` with the hints. -/
def searchHint (keyHead lower upper : Nat) : PageRead (Nat × Nat) := do
  let c ← fetch .count
  if hintCount * 2 < c then
    let dist := upper / (hintCount + 1)
    let pos ← firstHint (fun h => decide (keyHead ≤ h)) hintCount 0
    let pos2 ← firstHint (fun h => decide (h ≠ keyHead)) (hintCount - pos) pos
    pure (pos * dist, if pos2 < hintCount then (pos2 + 1) * dist else upper)
  else
    pure (lower, upper)

/-- The binary search of `lowerBound` on the key behind the prefix. -/
def searchSlots (key : Key) (keyHead lower upper : Nat) : PageRead (Nat × Bool) :=
  if _h : lower < upper then do
    let mid := (upper - lower) / 2 + lower
    let head1 ← fetch (.slotHead mid)
    if keyHead < head1 then
      searchSlots key keyHead lower mid
    else
      let head2 ← fetch (.slotHead mid)
      if head2 < keyHead then
        searchSlots key keyHead (mid + 1) upper
      else
        checkSlotOrRestart mid
        let len ← fetch (.slotKeyLen mid)
        let offset ← fetch (.slotOffset mid)
        let bs ← fetchBytes (min key.length len) offset
        match memcmp key bs with
        | .lt => searchSlots key keyHead lower mid
        | .gt => searchSlots key keyHead (mid + 1) upper
        | .eq =>
          let len1 ← fetch (.slotKeyLen mid)
          if key.length < len1 then
            searchSlots key keyHead lower mid
          else
            let len2 ← fetch (.slotKeyLen mid)
            if len2 < key.length then
              searchSlots key keyHead (mid + 1) upper
            else
              pure (mid, true)
  else
    pure (lower, false)
termination_by upper - lower

/-- Lower bound search: the slot id and whether the key was found there. -/
def lowerBound (skey : Key) : PageRead (Nat × Bool) := do
  let inPage ← lowerFenceInPage
  if inPage then
    let offset ← fetch .lowerOffset
    let pl ← fetch .prefixLen
    let bs ← fetchBytes (min skey.length pl) offset
    match memcmp skey bs with
    | .lt => pure (0, false)
    | .gt => do
      let c ← safeCount
      pure (c, false)
    | .eq =>
      let pl1 ← fetch .prefixLen
      if skey.length < pl1 then
        pure (0, false)
      else
        let pl2 ← fetch .prefixLen
        let key := skey.drop pl2
        let upper ← safeCount
        let range ← searchHint (head key) 0 upper
        searchSlots key (head key) range.1 range.2
  else
    restart

def lookupInner (key : Key) : PageRead PID := do
  let pos ← lowerBound key
  let c ← safeCount
  if c ≤ pos.1 then
    fetch .link
  else
    checkSlotOrRestart pos.1
    getChild pos.1

/-- The copy of the payload in `lookup`: the copied bytes and the payload length. -/
def copyPayload (pos payloadOutSize : Nat) : PageRead (List Byte × Nat) := do
  let offset ← fetch (.slotOffset pos)
  let keyLen ← fetch (.slotKeyLen pos)
  let len ← fetch (.slotPayloadLen pos)
  let bs ← fetchBytes (min len payloadOutSize) (offset + keyLen)
  let len1 ← fetch (.slotPayloadLen pos)
  pure (bs, len1)

end PageRead

end MemSafeDB
