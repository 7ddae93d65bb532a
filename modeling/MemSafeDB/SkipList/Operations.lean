import MemSafeDB.SkipList.State

/-!
# The operations of the skip list

The loops of the searches have a bound on their rounds, so that a program is a finite tree, and
abort when it is used up. A failed assertion aborts too.
-/

namespace MemSafeDB.SkipList
open Lib

/-! ## Single operations -/

def getMaxHeight : Prog Nat := Program.op (S := signature) .getMaxHeight

def setMaxHeight (height : Nat) : Prog Unit := Program.op (S := signature) (.setMaxHeight height)

def next (x : Ptr) (level : Nat) : Prog Ptr := Program.op (S := signature) (.next x level)

def setNext (x : Ptr) (level : Nat) (r : Ptr) : Prog Unit :=
  Program.op (S := signature) (.setNext x level r)

def noBarrierSetNext (x : Ptr) (level : Nat) (r : Ptr) : Prog Unit :=
  Program.op (S := signature) (.noBarrierSetNext x level r)

def keyOf (x : Ptr) : Prog CString := Program.op (S := signature) (.key x)

def newNode (key : CString) (height : Nat) : Prog Ptr :=
  Program.op (S := signature) (.newNode key height)

def oneIn : Prog Bool := Program.op (S := signature) .oneIn

def abort {α : Type} : Prog α := Program.step (S := signature) .abort Empty.elim

def assert (p : Prop) [Decidable p] : Prog Unit := if p then pure () else abort

/-! ## Searching -/

/-- Whether the key is greater than that of the node; null is infinite. -/
def keyIsAfterNode (key : CString) (n : Ptr) : Prog Bool :=
  if n = none then pure false
  else do
    let k ← keyOf n
    pure (decide (strcmp k key < 0))

/-- The array that `FindGreaterOrEqual` fills, with `none` for an element that is not set. -/
abbrev PrevArray := Nat → Option Ptr

def findGreaterOrEqualLoop (key : CString) (x : Ptr) (level : Nat) (prev : Option PrevArray) :
    Nat → Prog (Ptr × Option PrevArray)
  | 0 => abort
  | rounds + 1 => do
    let next ← next x level
    let after ← keyIsAfterNode key next
    if after then
      findGreaterOrEqualLoop key next level prev rounds
    else
      let prev := prev.map (fun a => Function.update a level (some x))
      if level = 0 then
        pure (next, prev)
      else
        findGreaterOrEqualLoop key x (level - 1) prev rounds

def findGreaterOrEqual (rounds : Nat) (key : CString) (prev : Option PrevArray) :
    Prog (Ptr × Option PrevArray) := do
  let maxHeight ← getMaxHeight
  findGreaterOrEqualLoop key (some head) (maxHeight - 1) prev rounds

/-- The assertion that the search has not come to the key. -/
def assertBefore (key : CString) (x : Ptr) : Prog Unit :=
  if x = some head then pure ()
  else do
    let k ← keyOf x
    assert (strcmp k key < 0)

/-- `next == nullptr || strcmp(next->key, key) >= 0` -/
def isNotBefore (key : CString) (n : Ptr) : Prog Bool :=
  if n = none then pure true
  else do
    let k ← keyOf n
    pure (decide (0 ≤ strcmp k key))

def findLessThanLoop (key : CString) (x : Ptr) (level : Nat) : Nat → Prog Ptr
  | 0 => abort
  | rounds + 1 => do
    assertBefore key x
    let next ← next x level
    let stop ← isNotBefore key next
    if stop then
      if level = 0 then
        pure x
      else
        findLessThanLoop key x (level - 1) rounds
    else
      findLessThanLoop key next level rounds

def findLessThan (rounds : Nat) (key : CString) : Prog Ptr := do
  let maxHeight ← getMaxHeight
  findLessThanLoop key (some head) (maxHeight - 1) rounds

def findLastLoop (x : Ptr) (level : Nat) : Nat → Prog Ptr
  | 0 => abort
  | rounds + 1 => do
    let next ← next x level
    if next = none then
      if level = 0 then
        pure x
      else
        findLastLoop x (level - 1) rounds
    else
      findLastLoop next level rounds

def findLast (rounds : Nat) : Prog Ptr := do
  let maxHeight ← getMaxHeight
  findLastLoop (some head) (maxHeight - 1) rounds

def contains (rounds : Nat) (key : CString) : Prog Bool := do
  let (x, _) ← findGreaterOrEqual rounds key none
  if x = none then pure false
  else do
    let k ← keyOf x
    pure (decide (strcmp key k = 0))

/-! ## Iterators -/

/-- `node_` after a call that leaves the iterator invalid at `head_`. -/
def orInvalid (node : Ptr) : Ptr := if node = some head then none else node

/-- The new `node_` of an iterator. -/
def Move.run (rounds : Nat) (node : Ptr) : Move → Prog Ptr
  | next => do
    assert (node ≠ none)
    SkipList.next node 0
  | prev => do
    assert (node ≠ none)
    let k ← keyOf node
    let x ← findLessThan rounds k
    pure (orInvalid x)
  | seek target => do
    let (x, _) ← findGreaterOrEqual rounds target none
    pure x
  | seekToFirst => SkipList.next (some head) 0
  | seekToLast => do
    let x ← findLast rounds
    pure (orInvalid x)

/-- `Valid` and `key` after a call. -/
def position (node : Ptr) : Prog (Option CString) :=
  if node = none then pure none
  else do
    let k ← keyOf node
    pure (some k)

/-! ## Inserting -/

/-- The loop of `RandomHeight`, for the given number of further heights. -/
def randomHeightLoop (height : Nat) : Nat → Prog Nat
  | 0 => pure height
  | more + 1 => do
    let higher ← oneIn
    if higher then randomHeightLoop (height + 1) more else pure height

def randomHeight : Prog Nat := randomHeightLoop 1 (kMaxHeight - 1)

/-- The elements of `prev` from `first` on that the new height takes from `head_`. -/
def PrevArray.fillHead (prev : PrevArray) (first : Nat) (height : Nat) : PrevArray :=
  fun i => if first ≤ i ∧ i < height then some (some head) else prev i

/-- Reads an element of the array. -/
def PrevArray.get (prev : PrevArray) (i : Nat) : Prog Ptr :=
  match prev i with
  | some p => pure p
  | none => abort

/-- Links the node in at `n` levels from `i` on. -/
def linkLoop (x : Ptr) (prev : PrevArray) (i : Nat) : Nat → Prog Unit
  | 0 => pure ()
  | n + 1 => do
    let p ← prev.get i
    let next ← next p i
    noBarrierSetNext x i next
    setNext p i x
    linkLoop x prev (i + 1) n

/-- Raises `max_height_` to the height of a new node. -/
def raiseMaxHeight (prev : PrevArray) (height : Nat) : Prog PrevArray := do
  let maxHeight ← getMaxHeight
  if maxHeight < height then
    let first ← getMaxHeight
    setMaxHeight height
    pure (prev.fillHead first height)
  else
    pure prev

/-- The assertion that the key is not in the list. -/
def assertNew (key : CString) (x : Ptr) : Prog Unit :=
  if x = none then pure ()
  else do
    let k ← keyOf x
    assert (strcmp key k ≠ 0)

/-- The part of `Insert` behind the search. -/
def insertAfterSearch (key : CString) (x : Ptr) (prev : PrevArray) : Prog Unit := do
  assertNew key x
  let height ← randomHeight
  let prev ← raiseMaxHeight prev height
  let x ← newNode key height
  linkLoop x prev 0 height

def insert (rounds : Nat) (key : CString) : Prog Unit := do
  let (x, prev) ← findGreaterOrEqual rounds key (some (fun _ => none))
  match prev with
  | some prev => insertAfterSearch key x prev
  | none => abort

/-! ## Threads -/

/-- The writer inserts the keys one after the other. -/
def writer (rounds : Nat) : List CString → Prog Unit
  | [] => pure ()
  | key :: keys => do
    Program.op (S := signature) (.insertCall key)
    insert rounds key
    Program.op (S := signature) (.insertReturn key)
    writer rounds keys

/-- What a reader does, depending on the answers to its calls. -/
inductive Reader where
  | stop
  | contains (key : CString) (k : Bool → Reader)
  | move (iterator : Nat) (m : Move) (k : Option CString → Reader)

/-- Runs a reader; `nodes` holds `node_` of its iterators. -/
def Reader.run (rounds : Nat) : Reader → (Nat → Ptr) → Prog Unit
  | stop, _ => pure ()
  | contains key k, nodes => do
    let since ← Program.op (S := signature) (.call (.contains key))
    let b ← SkipList.contains rounds key
    Program.op (S := signature) (.ret (.contains key) since (.bool b))
    (k b).run rounds nodes
  | move i m k, nodes => do
    let since ← Program.op (S := signature) (.call (.move i m))
    let node ← m.run rounds (nodes i)
    let a ← position node
    Program.op (S := signature) (.ret (.move i m) since (.position a))
    (k a).run rounds (Function.update nodes i node)

/-- `Next` and `Prev` ask for a valid iterator. -/
def Move.needsValid : Move → Prop
  | next => True
  | prev => True
  | _ => False

/-- The reader calls `Next` and `Prev` on valid iterators only. -/
def Reader.Respects : Reader → (Nat → Prop) → Prop
  | stop, _ => True
  | contains _ k, valid => ∀ b, (k b).Respects valid
  | move i m k, valid => (m.needsValid → valid i) ∧
      ∀ a, (k a).Respects (Function.update valid i (a ≠ none))

end MemSafeDB.SkipList
