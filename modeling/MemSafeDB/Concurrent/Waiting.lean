import MemSafeDB.Concurrent.Histories
import MemSafeDB.Lib.Waiting

/-!
# No thread waits for ever

The threads latch pages from the top of the tree down and from the left to the right. A scan down
keeps a leaf and begins at the top again; without it no latches deadlock.
-/

namespace MemSafeDB
open Lib

variable {τ : Type} [DecidableEq τ]

namespace Tree.Inv

variable {T : Tree} (hT : T.Inv) {p q z : PID}
include hT

lemma ne_metadata {l : Nat} (hp : T.level p = some l) : p ≠ metadataPageId :=
  (hT.bound p l hp).1.ne'

lemma before_trans (h : T.Before p q) (h' : T.Before q z) : T.Before p z := by
  rcases h' with ⟨rfl, -⟩ | ⟨k', m, hq', hz, hlt'⟩
  · rcases h with ⟨-, l, hq⟩ | ⟨k, l, -, hq, -⟩
    · exact absurd rfl (hT.ne_metadata hq)
    · exact absurd rfl (hT.ne_metadata hq)
  rcases h with ⟨rfl, -⟩ | ⟨k, l, hp, hq, hlt⟩
  · exact Or.inl ⟨rfl, m, hz⟩
  obtain rfl : l = k' := Option.some.inj (hq.symm.trans hq')
  refine Or.inr ⟨k, m, hp, hz, ?_⟩
  rcases hlt with hlt | ⟨rfl, hne, hle⟩
  · rcases hlt' with hlt' | ⟨rfl, -⟩
    · exact Or.inl (hlt'.trans hlt)
    · exact Or.inl hlt
  · rcases hlt' with hlt' | ⟨rfl, hne', hle'⟩
    · exact Or.inl hlt'
    · have hfences : (T.view q).lower < (T.view q).upper := (hT.ok hq).fences.resolve_left hne'
      exact Or.inr ⟨rfl, hne, (hle.trans hfences.le).trans hle'⟩

lemma not_before_self : ¬T.Before p p := by
  rintro (⟨rfl, l, hp⟩ | ⟨k, l, hp, hp', hlt | ⟨-, hne, hle⟩⟩)
  · exact hT.ne_metadata hp rfl
  · rw [Option.some.inj (hp.symm.trans hp')] at hlt
    exact lt_irrefl l hlt
  · have hfences : (T.view p).lower < (T.view p).upper := (hT.ok hp).fences.resolve_left hne
    exact lt_irrefl _ (hfences.trans_le hle)

/-- Latching in order comes to an end. -/
lemma wellFounded_before : WellFounded (flip T.Before) := by
  refine wellFounded_flip_of_finite (fun _ _ _ => hT.before_trans) (fun _ => hT.not_before_self)
    ((Set.finite_lt_nat noNeighbour).subset ?_)
  rintro q ⟨p, ⟨-, l, hq⟩ | ⟨-, l, -, hq, -⟩⟩
  · exact (hT.bound q l hq).2
  · exact (hT.bound q l hq).2

end Tree.Inv

/-- The page that a thread is about to try again to latch, or to open a guard for. -/
def awaited : Prog Unit → Option PID
  | .step (.yield (some (p, _))) _ => some p
  | _ => none

lemma awaited_eq_some {x : Prog Unit} {p : PID} (h : awaited x = some p) :
    ∃ mode k, x = .step (S := signature) (.yield (some (p, mode))) k := by
  unfold awaited at h
  split at h
  · cases h
    exact ⟨_, _, rfl⟩
  · cases h

def Awaits (cfg : Config signature OLCRestart (Sys τ) τ) (t : τ) (p : PID) : Prop :=
  awaited (cfg.prog t) = some p

def HoldsLatch (cfg : Config signature OLCRestart (Sys τ) τ) (t : τ) (p : PID) : Prop :=
  t ∈ cfg.shared.xHolders p ∨ t ∈ cfg.shared.sHolders p

variable {env : Env} {calls : τ → List Call} {cfg cfg' : Config signature OLCRestart (Sys τ) τ}

/-- When no thread opens an optimistic guard while it holds a shared latch, every thread that waits
does so, directly or not, because of a thread that does not wait. -/
theorem Launched.run_unblocked (h : Launched env calls cfg) (hreach : Reaches True cfg cfg')
    (hrun : cfg'.shared.crashed = none) (t : τ) :
    ∃ u, Relation.ReflTransGen (WaitsFor (Awaits cfg') (HoldsLatch cfg')) t u ∧
      ∀ v, ¬WaitsFor (Awaits cfg') (HoldsLatch cfg') u v := by
  rcases h.reaches hreach with ⟨f, -, hf⟩ | ⟨past, hcooperating⟩
  · rw [hrun] at hf
    cases hf
  have horder : AcquiredInOrder cfg'.shared.tree.Before (Awaits cfg') (HoldsLatch cfg') := by
    intro t p q hp hq
    obtain ⟨mode, k, hprog⟩ := awaited_eq_some hp
    exact Allied.legal hcooperating hprog trivial trivial q hq
  exact horder.exists_unblocked hcooperating.inv.tree.wellFounded_before t

instance {cfg : Config signature OLCRestart (Sys τ) τ} {t : τ} {p : PID} :
    Decidable (Awaits cfg t p) := by
  unfold Awaits
  infer_instance

instance {cfg : Config signature OLCRestart (Sys τ) τ} {t : τ} {p : PID} :
    Decidable (HoldsLatch cfg t p) := by
  unfold HoldsLatch
  infer_instance

theorem run_unblocked_insertAndLookup : ∃ cfg u,
    Reaches True (twoThreads fewPages insertAndLookup) cfg ∧ Awaits cfg false 1 ∧
      Relation.ReflTransGen (WaitsFor (Awaits cfg) (HoldsLatch cfg)) false u ∧
      ∀ v, ¬WaitsFor (Awaits cfg) (HoldsLatch cfg) u v := by
  have hplay : (twoThreadsPlay True fewPages insertAndLookup [12, 6]).map (fun cfg =>
      (outcome cfg, decide (Awaits cfg false 1))) = some ((none, 2), true) := by decide +kernel
  obtain ⟨cfg, hreach, hend⟩ := twoThreads_reaches hplay
  obtain ⟨houtcome, hawaits⟩ := Prod.mk.inj hend
  obtain ⟨u, hu⟩ := Launched.run_unblocked (twoThreads_launched insertAndLookup rfl) hreach
    (Prod.mk.inj houtcome).1 false
  exact ⟨cfg, u, hreach, of_decide_eq_true hawaits, hu⟩

/-! ## A scan down that waits for ever -/

/-- The program loads words and goes round waiting loops as long as the state stays. -/
def onlyWaits (s : Sys τ) : Nat → Prog Unit → Bool
  | 0, _ => false
  | _ + 1, .step .halt _ => true
  | n + 1, .step (.yield _) k => onlyWaits s n (k ())
  | n + 1, .step (.load _ p) k => onlyWaits s n (k (s.word p))
  | _ + 1, _ => false

lemma idles_of_onlyWaits {s : Sys τ} {t : τ} {n : Nat} {x : Prog Unit}
    (h : onlyWaits s n x = true) : x.Idles (S := signature) exec t s := by
  induction n generalizing x with
  | zero => cases h
  | succ n ih =>
    cases x with
    | ret a => cases h
    | throw e => cases h
    | step o k =>
      cases o with
      | halt =>
        refine .step (fun c r s' hexec => ?_) (fun c r s' hexec => ?_)
        · cases (perform_of_exec hexec).2
        · cases (perform_of_exec hexec).2
      | yield wait =>
        refine .step (fun c r s' hexec => ?_) (fun c r s' hexec => ?_)
        · exact (Prod.mk.inj (Option.some.inj (perform_of_exec hexec).2)).2.symm
        · exact ih h
      | load site p =>
        refine .step (fun c r s' hexec => ?_) (fun c r s' hexec => ?_)
        · exact (Prod.mk.inj (Option.some.inj (perform_of_exec hexec).2)).2.symm
        · obtain ⟨rfl, -⟩ := Prod.mk.inj (Option.some.inj (perform_of_exec hexec).2)
          exact ih h
      | _ => cases h

/-- A scan down keeps its leaf while it looks for the next one from the top. An insert that has to
split this leaf holds the parent and waits for the leaf: neither thread ever goes on. -/
theorem scanDesc_deadlocks : ∃ cfg, Reaches False (twoThreads fewPages insertAndScanDown) cfg ∧
    cfg.shared.crashed = none ∧ WaitsFor (Awaits cfg) (HoldsLatch cfg) true false ∧
      WaitsFor (Awaits cfg) (HoldsLatch cfg) false true ∧
      ∀ cfg', Reach exec cfg cfg' → cfg'.shared = cfg.shared ∧ ∀ t, cfg'.prog t ≠ .ret () := by
  have hplay : (twoThreadsPlay False fewPages insertAndScanDown [190, 29, 40, 8]).map (fun cfg =>
      (outcome cfg, decide (Awaits cfg true 3 ∧ HoldsLatch cfg false 3 ∧ Awaits cfg false 2 ∧
        HoldsLatch cfg true 2), decide (∀ t, onlyWaits cfg.shared 64 (cfg.prog t) = true))) =
          some ((none, 20), true, true) := by decide +kernel
  obtain ⟨cfg, hreach, hend⟩ := twoThreads_reaches hplay
  obtain ⟨houtcome, hrest⟩ := Prod.mk.inj hend
  obtain ⟨hwaits, honly⟩ := Prod.mk.inj hrest
  obtain ⟨hwriter, hleaf, hscan, hparent⟩ := of_decide_eq_true hwaits
  refine ⟨cfg, hreach, (Prod.mk.inj houtcome).1, ⟨3, hwriter, hleaf⟩, ⟨2, hscan, hparent⟩,
    fun cfg' hreach' => ?_⟩
  obtain ⟨hshared, hidle⟩ := Reach.idle hreach' (fun t => idles_of_onlyWaits (of_decide_eq_true honly t))
  refine ⟨hshared, fun t hdone => ?_⟩
  have hthread := hidle t
  rw [hdone] at hthread
  cases hthread

end MemSafeDB
