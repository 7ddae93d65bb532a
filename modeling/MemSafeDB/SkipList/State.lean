import Mathlib.Data.List.Lex
import Mathlib.Order.Fin.Basic
import Mathlib.Order.WithBot
import MemSafeDB.Lib.Program

/-!
# The memory of the skip list

Nodes are addresses in a heap that only grows. A link is unset until the first store to it; an
operation on a null pointer, on an unset link or outside the links of a node has no result.
The loads and stores are sequentially consistent, so the barriers make no difference.

The trace is a ghost. It records the calls, their answers and when a key is linked at the lowest
level.
-/

namespace MemSafeDB.SkipList
open Lib

/-! ## C strings -/

structure CString where
  chars : List (Fin 256)
  noNul : ∀ c ∈ chars, c.val ≠ 0
  deriving DecidableEq

lemma CString.chars_injective : Function.Injective CString.chars := by
  rintro ⟨cs, hc⟩ ⟨ds, hd⟩ h
  cases h
  rfl

instance : LinearOrder CString := LinearOrder.lift' CString.chars CString.chars_injective

/-- The difference of the first two bytes that differ, the terminator included. -/
def strcmpChars : List (Fin 256) → List (Fin 256) → Int
  | [], [] => 0
  | [], d :: _ => 0 - d.val
  | c :: _, [] => c.val
  | c :: cs, d :: ds => if c = d then strcmpChars cs ds else (c.val : Int) - d.val

def strcmp (a b : CString) : Int := strcmpChars a.chars b.chars

lemma strcmpChars_neg {as bs : List (Fin 256)} (hb : ∀ d ∈ bs, d.val ≠ 0) :
    strcmpChars as bs < 0 ↔ as < bs := by
  induction as generalizing bs with
  | nil =>
    cases bs with
    | nil => simp [strcmpChars]
    | cons d ds =>
      have hd := hb d List.mem_cons_self
      simp only [strcmpChars, List.nil_lt_cons, iff_true]
      omega
  | cons c cs ih =>
    cases bs with
    | nil =>
      simp only [strcmpChars, List.not_lt_nil, iff_false]
      omega
    | cons d ds =>
      rw [List.cons_lt_cons_iff, strcmpChars]
      by_cases hcd : c = d
      · subst hcd
        rw [if_pos rfl, ih (fun e he => hb e (List.mem_cons_of_mem c he))]
        simp
      · have hlt : (c.val : Int) - d.val < 0 ↔ c < d := by
          rw [Fin.lt_def]
          omega
        rw [if_neg hcd, hlt]
        simp [hcd]

lemma strcmpChars_swap (as bs : List (Fin 256)) : strcmpChars as bs = -strcmpChars bs as := by
  induction as generalizing bs with
  | nil => cases bs <;> simp [strcmpChars]
  | cons c cs ih =>
    cases bs with
    | nil => simp [strcmpChars]
    | cons d ds =>
      by_cases hcd : c = d
      · simp [strcmpChars, hcd, ih ds]
      · simp only [strcmpChars, hcd, Ne.symm hcd, ite_false]
        omega

/-- `strcmp` decides the lexicographic order of the bytes. -/
lemma strcmp_neg {a b : CString} : strcmp a b < 0 ↔ a < b := strcmpChars_neg b.noNul

lemma strcmp_eq_zero {a b : CString} : strcmp a b = 0 ↔ a = b := by
  have hab : strcmp a b < 0 ↔ a < b := strcmp_neg
  have hba : strcmp b a < 0 ↔ b < a := strcmp_neg
  have hswap : strcmp a b = -strcmp b a := strcmpChars_swap a.chars b.chars
  constructor
  · intro h
    refine le_antisymm (not_lt.mp ?_) (not_lt.mp ?_)
    · rw [← hba]
      omega
    · rw [← hab]
      omega
  · rintro rfl
    have hself := lt_irrefl a
    rw [← hab] at hself
    omega

/-! ## Memory -/

/-- The address of a node. -/
abbrev Node := Nat

/-- `Node*`; `none` is the null pointer. -/
abbrev Ptr := Option Node

abbrev kMaxHeight : Nat := 12

/-- `head_`, the first node that is allocated. -/
abbrev head : Node := 0

structure Cell where
  /-- null for `head_` -/
  key : Option CString
  height : Nat
  /-- `next_`, with `none` for a link that is unset or outside the array -/
  next : Nat → Option Ptr

structure Memory where
  /-- number of nodes that have been allocated -/
  count : Nat
  cell : Node → Cell
  maxHeight : Nat

namespace Memory

def next (m : Memory) (level : Nat) (x : Node) : Option Ptr := (m.cell x).next level

/-- The key of a node, with `head_` below all keys. -/
def rank (m : Memory) (x : Node) : WithBot CString := (m.cell x).key.elim ⊥ WithBot.some

def setNext (m : Memory) (x : Node) (level : Nat) (r : Ptr) : Memory :=
  { m with
    cell := Function.update m.cell x
      { m.cell x with next := Function.update (m.cell x).next level (some r) } }

/-- `NewNode` -/
def newNode (m : Memory) (key : Option CString) (height : Nat) : Memory :=
  { m with
    count := m.count + 1
    cell := Function.update m.cell m.count ⟨key, height, fun _ => none⟩ }

/-- Before anything is allocated. -/
def empty : Memory := ⟨0, fun _ => ⟨none, 0, fun _ => none⟩, 1⟩

/-- The constructor of `SkipList`. -/
def new : Memory :=
  (List.range kMaxHeight).foldl (fun m i => m.setNext head i none) (empty.newNode none kMaxHeight)

end Memory

/-! ## Calls and events -/

/-- A call of a member of `Iterator`. -/
inductive Move where
  | next
  | prev
  | seek (target : CString)
  | seekToFirst
  | seekToLast

/-- A call of a reader; a reader may use any number of iterators. -/
inductive Call where
  | contains (key : CString)
  | move (iterator : Nat) (m : Move)

inductive Answer where
  | bool (b : Bool)
  /-- the key at the new position of the iterator, if that is valid -/
  | position (key : Option CString)

inductive Event (τ : Type) where
  | insertCall (key : CString)
  /-- the node of the key is linked at level 0 -/
  | linked (key : CString)
  | insertReturn (key : CString)
  | call (t : τ) (c : Call)
  /-- the answer to the call that is event number `since` -/
  | ret (t : τ) (c : Call) (since : Nat) (a : Answer)

/-- The reader that an event belongs to. -/
def Event.reader {τ : Type} : Event τ → Option τ
  | call t _ => some t
  | ret t _ _ _ => some t
  | _ => none

inductive Op where
  | getMaxHeight
  | setMaxHeight (height : Nat)
  /-- `Next` and `NoBarrier_Next` -/
  | next (x : Ptr) (level : Nat)
  | setNext (x : Ptr) (level : Nat) (r : Ptr)
  | noBarrierSetNext (x : Ptr) (level : Nat) (r : Ptr)
  /-- the load of `x->key` -/
  | key (x : Ptr)
  | newNode (key : CString) (height : Nat)
  /-- `rnd_.OneIn(kBranching)` -/
  | oneIn
  | insertCall (key : CString)
  | insertReturn (key : CString)
  | call (c : Call)
  | ret (c : Call) (since : Nat) (a : Answer)
  /-- a failed assertion, or a loop that goes on beyond its bound -/
  | abort

def Op.Res : Op → Type
  | getMaxHeight => Nat
  | next _ _ => Ptr
  | key _ => CString
  | newNode _ _ => Ptr
  | oneIn => Bool
  | call _ => Nat
  | abort => Empty
  | _ => Unit

abbrev signature : Signature := ⟨Op, Op.Res⟩

abbrev Prog (α : Type) := Program signature Empty α

structure State (τ : Type) where
  mem : Memory
  trace : List (Event τ)

namespace State

variable {τ : Type}

/-- The state after the constructor. -/
def start : State τ := ⟨.new, []⟩

def record (s : State τ) (e : Event τ) : State τ := { s with trace := s.trace ++ [e] }

def setMem (s : State τ) (m : Memory) : State τ := { s with mem := m }

/-- A store to a link. -/
def store (s : State τ) (x : Ptr) (level : Nat) (r : Ptr) : Option (State τ) :=
  x.bind (fun x => if level < (s.mem.cell x).height then some (s.setMem (s.mem.setNext x level r))
    else none)

/-- Records that the node is linked, if that is at level 0. -/
def publish (s : State τ) (level : Nat) (r : Ptr) : State τ :=
  if level = 0 then
    match r.bind (fun y => (s.mem.cell y).key) with
    | some k => s.record (.linked k)
    | none => s
  else s

/-- One atomic operation of thread `t`; the choice is the answer of the random generator. -/
def perform (t : τ) (c : Bool) (o : Op) (s : State τ) : Option (o.Res × State τ) :=
  match o with
  | .getMaxHeight => some (s.mem.maxHeight, s)
  | .setMaxHeight height => some ((), s.setMem { s.mem with maxHeight := height })
  | .next x level => (x.bind (s.mem.next level)).map (fun r => (r, s))
  | .setNext x level r => (s.store x level r).map (fun s' => ((), s'.publish level r))
  | .noBarrierSetNext x level r => (s.store x level r).map (fun s' => ((), s'))
  | .key x => (x.bind (fun x => (s.mem.cell x).key)).map (fun k => (k, s))
  | .newNode key height => some (some s.mem.count, s.setMem (s.mem.newNode (some key) height))
  | .oneIn => some (c, s)
  | .insertCall key => some ((), s.record (.insertCall key))
  | .insertReturn key => some ((), s.record (.insertReturn key))
  | .call call => some (s.trace.length, s.record (.call t call))
  | .ret call since a => some ((), s.record (.ret t call since a))
  | .abort => none

end State

def exec {τ : Type} : Exec signature (State τ) τ Bool := fun t c o s => State.perform t c o s

end MemSafeDB.SkipList
