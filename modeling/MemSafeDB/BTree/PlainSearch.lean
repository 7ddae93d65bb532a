import MemSafeDB.BTree.Contracts

/-!
# The accelerated search and a plain one

A plain search compares the key with every full key of the page. The prefix, the hints, the heads
and the binary search are there for speed only.
-/

namespace MemSafeDB
open Lib

namespace BTreeNode

/-- Goes through the keys one by one: how many are smaller, and whether the key is among them. -/
def plainSearch (k : Key) : List Key → Nat × Bool
  | [] => (0, false)
  | l :: ls =>
    let rest := plainSearch k ls
    (if l < k then rest.1 + 1 else rest.1, l == k || rest.2)

lemma plainSearch_eq (k : Key) (ls : List Key) :
    plainSearch k ls = (rank ls k, decide (k ∈ ls)) := by
  induction ls with
  | nil => rfl
  | cons l ls ih =>
    have hmem : (l == k || decide (k ∈ ls)) = decide (k ∈ l :: ls) := by
      rw [Bool.eq_iff_iff, Bool.or_eq_true, beq_iff_eq, decide_eq_true_eq, decide_eq_true_eq,
        List.mem_cons, eq_comm]
    rw [plainSearch, ih, hmem]
    congr 1
    unfold rank
    by_cases hlt : l < k
    · simp only [hlt, ite_true, List.countP_cons, decide_true]
    · simp only [hlt, ite_false, List.countP_cons, decide_false, Bool.false_eq_true, Nat.add_zero]

/-- A leaf on which the hints are used, with keys that have one head in common. -/
def equalHeads : BTreeNode := build true noNeighbour (keyOf [7]) (keyOf [7, 9])
  ((List.range 16).map (fun i => (keyOf [7, 0, i], keyOf [i])) ++
    [(keyOf [7, 1], keyOf [1]), (keyOf [7, 1, 0], keyOf [2]), (keyOf [7, 1, 0, 0], keyOf [3])] ++
    (List.range 16).map (fun i => (keyOf [7, 2, i], keyOf [i])))

end BTreeNode

end MemSafeDB
