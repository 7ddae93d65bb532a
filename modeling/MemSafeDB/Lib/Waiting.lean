import Mathlib.Data.Set.Finite.Basic
import Mathlib.Logic.Relation
import Mathlib.Order.WellFounded
import MemSafeDB.Lib.Program

/-!
# Waiting for each other

Threads that hold some resources and wait for others. When each thread waits only for resources
that come after all those that it holds, in an order without infinite ascents, no thread waits for
ever because of the others: every chain of waiting threads ends at one that does not wait.
-/

namespace Lib

variable {τ ρ : Type*} {before : ρ → ρ → Prop} {awaits holds : τ → ρ → Prop} {t u : τ}

/-- Thread `t` waits for a resource that `u` holds. -/
def WaitsFor (awaits holds : τ → ρ → Prop) (t u : τ) : Prop := ∃ p, awaits t p ∧ holds u p

/-- Resources that are acquired in order. -/
def AcquiredInOrder (before : ρ → ρ → Prop) (awaits holds : τ → ρ → Prop) : Prop :=
  ∀ t p q, awaits t p → holds t q → before q p

lemma AcquiredInOrder.acc (h : AcquiredInOrder before awaits holds) {p : ρ} (hp : Acc (flip before) p)
    (hu : holds u p) : Acc (flip (WaitsFor awaits holds)) u := by
  induction hp generalizing u with
  | intro p _ ih =>
    refine Acc.intro u ?_
    rintro v ⟨q, hq, hv⟩
    exact ih q (h u q p hq hu) hv

theorem AcquiredInOrder.wellFounded (h : AcquiredInOrder before awaits holds) (hwf : WellFounded (flip before)) :
    WellFounded (flip (WaitsFor awaits holds)) := by
  refine ⟨fun t => Acc.intro t ?_⟩
  rintro u ⟨p, -, hu⟩
  exact h.acc (hwf.apply p) hu

/-- Every thread waits, directly or not, for one that waits for nobody. -/
theorem AcquiredInOrder.exists_unblocked (h : AcquiredInOrder before awaits holds)
    (hwf : WellFounded (flip before)) (t : τ) :
    ∃ u, Relation.ReflTransGen (WaitsFor awaits holds) t u ∧ ∀ v, ¬WaitsFor awaits holds u v := by
  induction t using (h.wellFounded hwf).induction with
  | _ t ih =>
    by_cases hwaits : ∃ u, WaitsFor awaits holds t u
    · obtain ⟨u, hu⟩ := hwaits
      obtain ⟨v, hv, hfree⟩ := ih u hu
      exact ⟨v, Relation.ReflTransGen.head hu hv, hfree⟩
    · exact ⟨t, Relation.ReflTransGen.refl, fun u hu => hwaits ⟨u, hu⟩⟩

/-- A strict order has no infinite ascents, if only finitely many elements come after others. -/
lemma wellFounded_flip_of_finite {r : ρ → ρ → Prop} (htrans : ∀ p q z, r p q → r q z → r p z)
    (hirrefl : ∀ p, ¬r p p) (hfinite : {q | ∃ p, r p q}.Finite) : WellFounded (flip r) := by
  have hsub : ∀ p, {q | r p q}.Finite := fun p => hfinite.subset (fun q hq => ⟨p, hq⟩)
  refine (measure (fun p => (hsub p).toFinset.card)).wf.mono ?_
  intro q p hpq
  refine Finset.card_lt_card ((Finset.ssubset_iff_of_subset ?_).mpr ⟨q, ?_, ?_⟩)
  · intro z hz
    rw [Set.Finite.mem_toFinset] at hz ⊢
    exact htrans p q z hpq hz
  · rw [Set.Finite.mem_toFinset]
    exact hpq
  · rw [Set.Finite.mem_toFinset]
    exact hirrefl q

/-! ## Programs that only wait -/

section Idling

variable {S : Signature} {ε σ τ χ : Type}

/-- In this state no operation of the program changes anything, and it never returns. -/
inductive Program.Idles (exec : Exec S σ τ χ) (t : τ) (s : σ) : Program S ε Unit → Prop where
  | step {o : S.Op} {k : S.Res o → Program S ε Unit}
      (hsame : ∀ c r s', exec t c o s = some (r, s') → s' = s)
      (hnext : ∀ c r s', exec t c o s = some (r, s') → (k r).Idles exec t s) :
      Idles exec t s (.step o k)

/-- When all threads only wait, they do so for ever. -/
theorem Reach.idle [DecidableEq τ] {exec : Exec S σ τ χ} {cfg cfg' : Config S ε σ τ}
    (h : Reach exec cfg cfg') (hidle : ∀ t, (cfg.prog t).Idles exec t cfg.shared) :
    cfg'.shared = cfg.shared ∧ ∀ t, (cfg'.prog t).Idles exec t cfg.shared := by
  refine h.invariant (P := fun x => x.shared = cfg.shared ∧ ∀ t, (x.prog t).Idles exec t cfg.shared)
    ⟨rfl, hidle⟩ ?_
  rintro x y ⟨hshared, hprog⟩ hstep
  cases hstep with
  | @mk t c o k r s' hstep hexec =>
    have hthread := hprog t
    rw [hstep] at hthread
    rw [hshared] at hexec
    obtain ⟨hsame, hnext⟩ := hthread
    refine ⟨hsame c r s' hexec, fun u => ?_⟩
    dsimp only
    by_cases hu : u = t
    · subst hu
      rw [Function.update_self]
      exact hnext c r s' hexec
    · rw [Function.update_of_ne hu]
      exact hprog u

end Idling

end Lib
