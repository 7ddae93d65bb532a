import MemSafeDB.System.State

/-!
# What the tree is for

A finite map from byte strings to byte strings: what a call answers and what it leaves.
-/

namespace MemSafeDB
open Lib

/-- What is stored under each key. -/
abbrev Contents := Key → Option Key

namespace Contents

def empty : Contents := fun _ => none

/-- The contents after a call. -/
def after (m : Contents) : Call → Contents
  | .insert key payload => Function.update m key (some payload)
  | .remove key => Function.update m key none
  | .updateInPlace key fn => Function.update m key ((m key).map fn.run)
  | _ => m

/-- What a call on a single key may answer. -/
def Answers (m : Contents) : Call → Answer → Prop
  | .lookup key size, .lookup r => r = (m key).map (fun v => (v.take size, v.length))
  | .insert _ _, .unit => True
  | .remove key, .bool b => b = (m key).isSome
  | .updateInPlace key _, .bool b => b = (m key).isSome
  | .setSplitOrdered _, .unit => True
  | _, _ => False

/-- The caller of `insert` promises that the key is not stored; `insert` checks the size. -/
def Allows (m : Contents) : Call → Prop
  | .insert key payload => m key = none ∧ key.length + payload.length ≤ maxKVSize
  | .scanAsc _ _ => False
  | .scanDesc _ _ => False
  | _ => True

/-- The calls are allowed one after the other. -/
def Admits : Contents → List Call → Prop
  | _, [] => True
  | m, c :: cs => m.Allows c ∧ Admits (m.after c) cs

instance (m : Contents) (c : Call) : Decidable (m.Allows c) :=
  match c with
  | .insert key payload =>
    inferInstanceAs (Decidable (m key = none ∧ key.length + payload.length ≤ maxKVSize))
  | .scanAsc _ _ => .isFalse id
  | .scanDesc _ _ => .isFalse id
  | .lookup _ _ => .isTrue trivial
  | .remove _ => .isTrue trivial
  | .updateInPlace _ _ => .isTrue trivial
  | .setSplitOrdered _ => .isTrue trivial

instance Admits.decidable : (m : Contents) → (cs : List Call) → Decidable (m.Admits cs)
  | _, [] => .isTrue trivial
  | m, c :: cs =>
    have : Decidable ((m.after c).Admits cs) := Admits.decidable (m.after c) cs
    inferInstanceAs (Decidable (m.Allows c ∧ (m.after c).Admits cs))

/-- Calls one after the other with their answers. -/
inductive Behaves : Contents → List Call → List Answer → Contents → Prop where
  | nil {m : Contents} : Behaves m [] [] m
  | cons {m m' : Contents} {c : Call} {a : Answer} {cs : List Call} {as : List Answer}
      (h : m.Answers c a) (h' : Behaves (m.after c) cs as m') : Behaves m (c :: cs) (a :: as) m'

/-- The entries from a key on, in ascending order. -/
structure AscendingFrom (m : Contents) (key : Key) (es : List (Key × Key)) : Prop where
  ascending : es.Pairwise (fun e f => e.1 < f.1)
  mem : ∀ k v, (k, v) ∈ es ↔ key ≤ k ∧ m k = some v

/-- The entries up to a key, in descending order. -/
structure DescendingFrom (m : Contents) (key : Key) (es : List (Key × Key)) : Prop where
  descending : es.Pairwise (fun e f => f.1 < e.1)
  mem : ∀ k v, (k, v) ∈ es ↔ k ≤ key ∧ m k = some v

end Contents

/-- What a callback sees until it asks to stop; it has seen `acc` already. -/
def reported (fn : List (Key × Key) → Bool) :
    List (Key × Key) → List (Key × Key) → List (Key × Key)
  | acc, [] => acc
  | acc, e :: es => if fn (acc ++ [e]) then reported fn (acc ++ [e]) es else acc ++ [e]

end MemSafeDB
