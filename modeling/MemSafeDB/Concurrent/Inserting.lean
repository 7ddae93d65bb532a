import MemSafeDB.Concurrent.Splitting

/-!
# Inserts among other threads

An insert is right at the moment when the leaf takes the entry. The leaf is latched and the check of
the parent behind it tells that it is the leaf of the key.
-/

namespace MemSafeDB
open Lib PageState

variable {τ : Type} [DecidableEq τ]

namespace Point

/-- The leaf of the key has space for the entry. -/
structure RoomFor (key payload : Key) (s : Sight) : Prop where
  leaf : LeafFor key s
  space : s.page.hasSpaceFor key.length payload.length = true

variable {m : Point τ} {key payload : Key} {p : PID} {parent node : GuardO} {t : τ}

section Rules

variable {steady : Prop} {env : Env} {E : Point τ → Prop}

namespace Serves

/-- The leaf takes the entry, and the answer is right at this moment. -/
lemma insertInPage (ho : Owns t [p] [] m) (hc : Pending t (.insert key payload) m.now.trace)
    (hp : Knows t p (RoomFor key payload) m)
    (hlen : key.length + payload.length ≤ maxKVSize) :
    Serves steady t (Program.op (S := signature) (.insertInPage p key payload)) m (fun _ m =>
      Owns t [p] [] m ∧ Ready t (.insert key payload) .unit m.now.trace) E := by
  refine act (A := fun m => Owns t [p] [] m ∧ Pending t (.insert key payload) m.now.trace ∧
    Knows t p (RoomFor key payload) m) id ⟨ho, hc, hp⟩ ?_
  rintro m hi ⟨ho, hc, hp⟩ hnone
  refine ⟨⟨hp.fact.leaf.level, hp.fact.leaf.covers, hlen, hp.fact.space, hc⟩, ?_⟩
  intro c r m' hperform hi' hm
  refine ⟨ho.acted hm, ?_⟩
  obtain ⟨-, hnow⟩ := Prod.mk.inj (Option.some.inj hperform)
  have htrace : m'.now.trace = m.now.trace ++ [.effect t (.insert key payload)] := by
    have hfresh : ∀ v, ¬m.now.tree.Holds key v := by
      intro v hv
      rw [hi.contents, show contentsOf m.now.trace key = none from hnone] at hv
      cases hv
    obtain ⟨n, heq, -⟩ := hi.tree.insertInPage hp.fact.leaf.level hp.fact.leaf.covers hfresh hlen
      hp.fact.space
    rw [← hnow, Sys.insertInPage,
      show (m.now.page p).insertInPage key payload = .ok n from heq]
    rfl
  rw [htrace]
  exact hc.ready_effect trivial rfl

lemma insertAttempt (hlen : key.length + payload.length ≤ maxKVSize) (hi : Inv m)
    (h : Begun t (.insert key payload) m) :
    Serves steady t (BTree.insertAttempt env key payload) m
      (Attempted (Begun t (.insert key payload)) (fun _ => Done t (.insert key payload) .unit))
      (Begun t (.insert key payload)) := by
  refine bind hi (openRoot key (fun _ h => h.owns) hi h) ?_
  rintro ⟨parent, node⟩ m hi ⟨h, -, hpath⟩
  refine bind hi (descendWithParent (fun _ h => h.owns) hi h hpath env.fuel) ?_
  rintro ⟨parent, node⟩ m hi ⟨h, hpath, hinner⟩
  replace hinner := hinner rfl
  dsimp only at hpath hinner ⊢
  refine bind hi ((readPage (A := fun m => Begun t (.insert key payload) m ∧
    Path key parent node m ∧ Sees node (fun s => s.page.isInner = false) m) hi ⟨h, hpath, hinner⟩
    hpath.known (fun _ h => h)).mono (fun _ _ _ h => h) (fun _ _ h => h.1)) ?_
  rintro enough m hi ⟨⟨h, hpath, hinner⟩, hread⟩
  refine ite (fun htrue => ?_) (fun _ => ?_)
  · have hroom : While parent (Sees node (RoomFor key payload)) m :=
      hpath.covering.mono (fun h => h.imp (fun hf hcov =>
        ⟨hi.leafFor hcov (hinner.fresh hf),
          (hread.read hf (BTreeNode.reads_hasSpaceFor _ _)).trans htrue⟩))
    refine lockLeaf hi h hpath hroom ?_
    intro m hi ho hc hroom
    refine bind hi (insertInPage ho hc hroom hlen) ?_
    rintro _ m hi ⟨ho, hready⟩
    refine bind hi (unfixX (X := [])
      (K := fun m => Ready t (.insert key payload) .unit m.now.trace) hi ho hready) ?_
    rintro _ m - ⟨ho, hready⟩
    exact pure ⟨ho, hready⟩
  · refine bind hi (lockAndSplit (ensureSpace env.fuel) hi h hpath) ?_
    rintro _ m - h
    exact pure h

theorem insert (hi : Inv m) (h : Begun t (.insert key payload) m) :
    Serves steady t (BTree.insert env key payload) m
      (fun _ => Done t (.insert key payload) .unit) E := by
  refine bind hi (assert .insertSize _ h) ?_
  rintro _ m hi ⟨h, hlen⟩
  exact retry hi h (fun m hi h => insertAttempt hlen hi h) env.fuel

end Serves

end Rules

end Point

end MemSafeDB
