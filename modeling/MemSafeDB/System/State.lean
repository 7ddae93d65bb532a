import Mathlib.Logic.Function.Basic
import MemSafeDB.BTree.Search
import MemSafeDB.System.PageState

/-!
# The shared state and its atomic operations

The threads share the latch words, the pages, the root of the tree and the allocation counter.
An operation is one atomic access to a latch word, one load from a page, or one change of a page
under an exclusive latch. While a thread holds a page exclusively, loads of other threads from it
return anything, as do loads from outside the page.

Holders, unlock counts, levels, the trace and the counters are ghosts: no answer but that of a
load from a page that is being changed depends on them.
-/

namespace MemSafeDB
open Lib

/-- A function that `updateInPlace` applies to a payload; it cannot change the length. -/
structure PayloadUpdate where
  run : List Byte → List Byte
  length_run : ∀ bs, (run bs).length = bs.length

inductive Call where
  | lookup (key : Key) (payloadOutSize : Nat)
  | insert (key payload : Key)
  | remove (key : Key)
  | updateInPlace (key : Key) (fn : PayloadUpdate)
  | scanAsc (key : Key) (fn : List (Key × Key) → Bool)
  | scanDesc (key : Key) (fn : Bool → List (Key × Key) → Bool)
  | setSplitOrdered (b : Bool)

inductive Answer where
  /-- the copied bytes and the payload length, or -1 -/
  | lookup (r : Option (List Byte × Nat))
  | bool (b : Bool)
  | scan (entries : List (Key × Key))
  | unit

/-- What a change of a leaf does to the contents of the tree. -/
inductive Effect where
  | insert (key payload : Key)
  | remove (key : Key)
  | update (key : Key) (fn : PayloadUpdate)

inductive Event (τ : Type) where
  | call (t : τ) (c : Call)
  | effect (t : τ) (e : Effect)
  | ret (t : τ) (a : Answer)

/-- What a thread wants when it waits for a latch. -/
inductive LatchMode where
  | optimistic
  | shared
  | exclusive
  deriving DecidableEq

/-- Where a latch word is loaded. -/
inductive LoadSite where
  | init
  | check (version : Word)
  | other

/-- What a compare-exchange is for. -/
inductive CasSite where
  | lockX
  | lockS
  | unlockS
  | unmark
  deriving DecidableEq

inductive Op where
  | load (site : LoadSite) (p : PID)
  | cas (site : CasSite) (p : PID) (old new : Word)
  /-- the plain store of `unlockX` -/
  | storeUnlocked (p : PID) (v : Word)
  | nextPid
  | residentInsert (p : PID)
  | peek (p : PID) (l : Loc)
  | peekRoot
  /-- the page, read under a latch -/
  | view (p : PID)
  /-- loads `splitOrdered` before the split of a node -/
  | splitOrdered (node : PID)
  | setSplitOrdered (b : Bool)
  | construct (p : PID) (isLeaf : Bool)
  | setUpperInnerNode (p q : PID)
  | setRoot (p : PID)
  | insertInPage (p : PID) (key payload : Key)
  | removeSlot (p : PID) (slotId : Nat)
  | updatePayload (p : PID) (slotId : Nat) (fn : PayloadUpdate)
  | mergeNodes (p : PID) (slotId : Nat) (parent right : PID)
  | splitNode (p newPID parent : PID) (sepSlot : Nat) (sep : Key)
  /-- a waiting loop goes round; for a latch loop with the page and the mode it waits for -/
  | yield (wait : Option (PID × LatchMode))
  | attempt
  | leave
  | caught
  | call (c : Call)
  | ret (a : Answer)
  | crash (f : Fault)
  | halt

def Op.Res : Op → Type
  | load _ _ => Word
  | cas _ _ _ _ => Bool
  | nextPid => PID
  | peek _ _ => Nat
  | peekRoot => PID
  | view _ => BTreeNode
  | splitOrdered _ => Bool
  | mergeNodes _ _ _ _ => Bool
  | halt => Empty
  | _ => Unit

abbrev signature : Signature := ⟨Op, Op.Res⟩

abbrev Prog (α : Type) := Program signature OLCRestart α

/-- What an operation leaves open: the value of a load from a page that is being changed, and
whether a weak compare-exchange fails. -/
structure Choice where
  garbage : Nat
  spurious : Bool

structure Sys (τ : Type) where
  word : PID → Word
  xHolders : PID → List τ
  sHolders : PID → List τ
  /-- number of exclusive unlocks so far -/
  unlocks : PID → Nat
  allocCount : Nat
  resident : PID → Bool
  page : PID → BTreeNode
  /-- `roots[slotId]` of the tree in the metadata page -/
  root : PID
  splitOrdered : Bool
  /-- height above the leaves, for the pages that belong to the tree -/
  level : PID → Option Nat
  crashed : Option Fault
  trace : List (Event τ)
  /-- number of changes of pages and roots by a thread -/
  changes : τ → Nat
  /-- `changes` at the beginning of the attempts that a thread is in -/
  marks : τ → List Nat

namespace Sys

variable {τ : Type} [DecidableEq τ]

/-- The state after `bm.init`, with the members that nothing has set yet at zero. -/
def start : Sys τ where
  word := fun _ => PageState.sameVersion 0 PageState.Evicted
  xHolders := fun _ => []
  sHolders := fun _ => []
  unlocks := fun _ => 0
  allocCount := 1
  resident := fun _ => false
  page := fun _ => BTreeNode.new true
  root := 0
  splitOrdered := false
  level := fun _ => none
  crashed := none
  trace := []
  changes := fun _ => 0
  marks := fun _ => []

def cas (s : Sys τ) (t : τ) (site : CasSite) (p : PID) (new : Word) : Sys τ :=
  { s with
    word := Function.update s.word p new
    xHolders := match site with
      | .lockX => Function.update s.xHolders p (t :: s.xHolders p)
      | _ => s.xHolders
    sHolders := match site with
      | .lockS => Function.update s.sHolders p (t :: s.sHolders p)
      | .unlockS => Function.update s.sHolders p ((s.sHolders p).erase t)
      | _ => s.sHolders }

def storeUnlocked (s : Sys τ) (t : τ) (p : PID) (v : Word) : Sys τ :=
  { s with
    word := Function.update s.word p v
    xHolders := Function.update s.xHolders p ((s.xHolders p).erase t)
    unlocks := Function.update s.unlocks p (s.unlocks p + 1) }

/-- No other thread holds the page exclusively. -/
def Readable (s : Sys τ) (t : τ) (p : PID) : Prop := ∀ u ∈ s.xHolders p, u = t

instance (s : Sys τ) (t : τ) (p : PID) : Decidable (s.Readable t p) := by
  unfold Readable
  infer_instance

def crash (s : Sys τ) (f : Fault) : Sys τ := { s with crashed := some f }

def record (s : Sys τ) (e : Event τ) : Sys τ := { s with trace := s.trace ++ [e] }

/-- Counts a change by thread `t`. -/
def change (s : Sys τ) (t : τ) : Sys τ :=
  { s with changes := Function.update s.changes t (s.changes t + 1) }

def setPage (s : Sys τ) (p : PID) (n : BTreeNode) : Sys τ :=
  { s with page := Function.update s.page p n }

def setLevel (s : Sys τ) (p : PID) (l : Option Nat) : Sys τ :=
  { s with level := Function.update s.level p l }

def residentInsert (s : Sys τ) (p : PID) : Sys τ :=
  if s.resident p then s.crash (.assertion .residentFresh)
  else { s with resident := Function.update s.resident p true }

/-- The level of a page that becomes the root: a leaf, or a node with one child so far. -/
def rootLevel (s : Sys τ) (p : PID) : Option Nat :=
  if (s.page p).isLeaf then some 0 else (s.level (s.page p).link).map (· + 1)

def setRoot (s : Sys τ) (t : τ) (p : PID) : Sys τ :=
  ({ s with root := p }.setLevel p (s.rootLevel p)).change t

def insertInPage (s : Sys τ) (t : τ) (p : PID) (key payload : Key) : Sys τ :=
  match (s.page p).insertInPage key payload with
  | .ok n => ((s.setPage p n).record (.effect t (.insert key payload))).change t
  | .error f => s.crash f

def removeSlot (s : Sys τ) (t : τ) (p : PID) (slotId : Nat) : Sys τ :=
  ((s.setPage p ((s.page p).removeSlot slotId)).record
    (.effect t (.remove ((s.page p).fullKey slotId)))).change t

def updatePayload (s : Sys τ) (t : τ) (p : PID) (slotId : Nat) (fn : PayloadUpdate) : Sys τ :=
  match (s.page p).setPayload slotId (fn.run ((s.page p).getPayload slotId)) with
  | .ok n => ((s.setPage p n).record (.effect t (.update ((s.page p).fullKey slotId) fn))).change t
  | .error f => s.crash f

def mergeNodes (s : Sys τ) (t : τ) (p : PID) (slotId : Nat) (parent right : PID) :
    Bool × Sys τ :=
  match (s.page p).mergeNodes p slotId (s.page parent) (s.page right) with
  | .ok (true, l, q) => (true, (((s.setPage p l).setPage parent q).setLevel right none).change t)
  | .ok (false, _, _) => (false, s)
  | .error f => (false, s.crash f)

def splitNode (s : Sys τ) (t : τ) (p newPID parent : PID) (sepSlot : Nat) (sep : Key) : Sys τ :=
  match (s.page p).splitNode p newPID (s.page parent) sepSlot sep with
  | .ok (l, r, q) =>
    ((((s.setPage p l).setPage newPID r).setPage parent q).setLevel newPID (s.level p)).change t
  | .error f => s.crash f

/-- The state in which thread `t` begins an attempt of a retry loop. -/
def attempt (s : Sys τ) (t : τ) : Sys τ :=
  { s with marks := Function.update s.marks t (s.changes t :: s.marks t) }

def leave (s : Sys τ) (t : τ) : Sys τ :=
  { s with marks := Function.update s.marks t (s.marks t).tail }

/-- One atomic operation of thread `t`, as long as nothing has ended the run. -/
def perform (t : τ) (c : Choice) (o : Op) (s : Sys τ) : Option (o.Res × Sys τ) :=
  match o with
  | .load _ p => some (s.word p, s)
  | .cas site p old new =>
    if s.word p = old ∧ ¬(site = .unmark ∧ c.spurious = true) then some (true, s.cas t site p new)
    else some (false, s)
  | .storeUnlocked p v => some ((), s.storeUnlocked t p v)
  | .nextPid => some (s.allocCount, { s with allocCount := s.allocCount + 1 })
  | .residentInsert p => some ((), s.residentInsert p)
  | .peek p l =>
    some (if l.InPage ∧ s.Readable t p then (s.page p).fetch l else c.garbage, s)
  | .peekRoot => some (if s.Readable t metadataPageId then s.root else c.garbage, s)
  | .view p => some (s.page p, s)
  | .splitOrdered _ => some (s.splitOrdered, s)
  | .setSplitOrdered b => some ((), { s with splitOrdered := b })
  | .construct p isLeaf => some ((), (s.setPage p (BTreeNode.new isLeaf)).change t)
  | .setUpperInnerNode p q => some ((), (s.setPage p { s.page p with link := q }).change t)
  | .setRoot p => some ((), s.setRoot t p)
  | .insertInPage p key payload => some ((), s.insertInPage t p key payload)
  | .removeSlot p slotId => some ((), s.removeSlot t p slotId)
  | .updatePayload p slotId fn => some ((), s.updatePayload t p slotId fn)
  | .mergeNodes p slotId parent right => some (s.mergeNodes t p slotId parent right)
  | .splitNode p newPID parent sepSlot sep => some ((), s.splitNode t p newPID parent sepSlot sep)
  | .yield _ => some ((), s)
  | .attempt => some ((), s.attempt t)
  | .leave => some ((), s.leave t)
  | .caught => some ((), s.leave t)
  | .call c => some ((), s.record (.call t c))
  | .ret a => some ((), s.record (.ret t a))
  | .crash f => some ((), s.crash f)
  | .halt => none

end Sys

/-- A run ends at the first fault. -/
def exec {τ : Type} [DecidableEq τ] : Exec signature (Sys τ) τ Choice := fun t c o s =>
  if s.crashed = none then Sys.perform t c o s else none

end MemSafeDB
