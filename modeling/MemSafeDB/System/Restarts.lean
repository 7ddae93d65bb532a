import MemSafeDB.Lib.Reliance
import MemSafeDB.System.Updates

/-!
# Restarts are atomic

In every interleaving the shared state agrees with what each thread knows of itself. An attempt
that ends in an exception has changed no page and no root, and leaves no latch behind; a call
that returns has changed exactly the entry that its answer tells of.
-/

namespace MemSafeDB
open Lib PageState BufferManager

variable {τ : Type} [DecidableEq τ]

/-! ## What the shared state records of a thread -/

/-- The latest call of thread `t`, and the changes of entries since it began. -/
def Event.track (t : τ) (acc : Option Call × List Effect) : Event τ → Option Call × List Effect
  | .call u c => if u = t then (some c, []) else acc
  | .effect u e => if u = t then (acc.1, acc.2 ++ [e]) else acc
  | .ret _ _ => acc

def Sys.running (s : Sys τ) (t : τ) : Option Call × List Effect :=
  s.trace.foldl (Event.track t) (none, [])

lemma Sys.running_record (s : Sys τ) (e : Event τ) (t : τ) :
    (s.record e).running t = e.track t (s.running t) := by
  rw [running, record, List.foldl_append]
  rfl

/-- An operation on a leaf and its effect on the contents. -/
inductive Op.Causes : Op → Effect → Prop where
  | insert (p : PID) (key payload : Key) : Causes (.insertInPage p key payload) (.insert key payload)
  | remove (p : PID) (slotId : Nat) (key : Key) : Causes (.removeSlot p slotId) (.remove key)
  | update (p : PID) (slotId : Nat) (fn : PayloadUpdate) (key : Key) :
    Causes (.updatePayload p slotId fn) (.update key fn)

/-- The shared state records what the thread knows of itself. -/
structure Tracks (t : τ) (c : Core) (s : Sys τ) : Prop where
  exclusive : ∀ p, (s.xHolders p).count t = c.x.count p
  shared : ∀ p, (s.sHolders p).count t = c.s.count p
  changes : s.changes t = c.changes
  marks : s.marks t = c.attempts.map Attempt.changes
  current : (s.running t).1 = c.current
  effects : List.Forall₂ Op.Causes c.effects (s.running t).2

/-- The parts of the shared state that record something of thread `t` are the same. -/
structure Same (t : τ) (s s' : Sys τ) : Prop where
  exclusive : ∀ p, (s'.xHolders p).count t = (s.xHolders p).count t
  shared : ∀ p, (s'.sHolders p).count t = (s.sHolders p).count t
  changes : s'.changes t = s.changes t
  marks : s'.marks t = s.marks t
  running : s'.running t = s.running t

lemma Same.refl (t : τ) (s : Sys τ) : Same t s s := ⟨fun _ => rfl, fun _ => rfl, rfl, rfl, rfl⟩

lemma Tracks.same {t : τ} {c : Core} {s s' : Sys τ} (h : Tracks t c s) (hs : Same t s s') :
    Tracks t c s' where
  exclusive := fun p => (hs.exclusive p).trans (h.exclusive p)
  shared := fun p => (hs.shared p).trans (h.shared p)
  changes := hs.changes.trans h.changes
  marks := hs.marks.trans h.marks
  current := by rw [hs.running, h.current]
  effects := by rw [hs.running]; exact h.effects

/-! ## One operation -/

section Others

variable {t u : τ} {s : Sys τ}

lemma count_update_cons (hu : u ≠ t) (f : PID → List τ) (p q : PID) :
    (Function.update f p (t :: f p) q).count u = (f q).count u := by
  by_cases hq : q = p
  · subst hq
    rw [Function.update_self, List.count_cons_of_ne hu.symm]
  · rw [Function.update_of_ne hq]

lemma count_update_erase (hu : u ≠ t) (f : PID → List τ) (p q : PID) :
    (Function.update f p ((f p).erase t) q).count u = (f q).count u := by
  by_cases hq : q = p
  · subst hq
    rw [Function.update_self, List.count_erase_of_ne hu]
  · rw [Function.update_of_ne hq]

lemma same_cas (hu : u ≠ t) (site : CasSite) (p : PID) (new : Word) :
    Same u s (s.cas t site p new) := by
  cases site with
  | lockX => exact ⟨count_update_cons hu _ p, fun _ => rfl, rfl, rfl, rfl⟩
  | lockS => exact ⟨fun _ => rfl, count_update_cons hu _ p, rfl, rfl, rfl⟩
  | unlockS => exact ⟨fun _ => rfl, count_update_erase hu _ p, rfl, rfl, rfl⟩
  | unmark => exact ⟨fun _ => rfl, fun _ => rfl, rfl, rfl, rfl⟩

lemma same_change (hu : u ≠ t) {s' : Sys τ} (h : Same u s s') : Same u s (s'.change t) :=
  ⟨h.exclusive, h.shared, (Function.update_of_ne hu _ _).trans h.changes, h.marks, h.running⟩

lemma same_effect (hu : u ≠ t) (p : PID) (n : BTreeNode) (e : Effect) :
    Same u s (((s.setPage p n).record (.effect t e)).change t) := by
  refine same_change hu ⟨fun _ => rfl, fun _ => rfl, rfl, rfl, ?_⟩
  exact ((s.setPage p n).running_record (.effect t e) u).trans (if_neg hu.symm)

/-- A thread does not touch what the state records of the others. -/
lemma same_perform (hu : u ≠ t) {c : Choice} {o : Op} {rs : o.Res × Sys τ}
    (h : Sys.perform t c o s = some rs) : Same u s rs.2 := by
  have hsame : Same u s s := Same.refl u s
  cases o with
  | load site p => obtain rfl := Option.some.inj h; exact hsame
  | cas site p old new =>
    simp only [Sys.perform] at h
    split at h
    · obtain rfl := Option.some.inj h
      exact same_cas hu site p new
    · obtain rfl := Option.some.inj h
      exact hsame
  | storeUnlocked p v =>
    obtain rfl := Option.some.inj h
    exact ⟨count_update_erase hu _ p, fun _ => rfl, rfl, rfl, rfl⟩
  | nextPid => obtain rfl := Option.some.inj h; exact ⟨fun _ => rfl, fun _ => rfl, rfl, rfl, rfl⟩
  | residentInsert p =>
    obtain rfl := Option.some.inj h
    change Same u s (s.residentInsert p)
    unfold Sys.residentInsert
    split <;> exact ⟨fun _ => rfl, fun _ => rfl, rfl, rfl, rfl⟩
  | peek p l => obtain rfl := Option.some.inj h; exact hsame
  | peekRoot => obtain rfl := Option.some.inj h; exact hsame
  | view p => obtain rfl := Option.some.inj h; exact hsame
  | splitOrdered p => obtain rfl := Option.some.inj h; exact hsame
  | setSplitOrdered b =>
    obtain rfl := Option.some.inj h
    exact ⟨fun _ => rfl, fun _ => rfl, rfl, rfl, rfl⟩
  | construct p isLeaf =>
    obtain rfl := Option.some.inj h
    exact same_change hu ⟨fun _ => rfl, fun _ => rfl, rfl, rfl, rfl⟩
  | setUpperInnerNode p q =>
    obtain rfl := Option.some.inj h
    exact same_change hu ⟨fun _ => rfl, fun _ => rfl, rfl, rfl, rfl⟩
  | setRoot p =>
    obtain rfl := Option.some.inj h
    exact same_change hu ⟨fun _ => rfl, fun _ => rfl, rfl, rfl, rfl⟩
  | insertInPage p key payload =>
    obtain rfl := Option.some.inj h
    change Same u s (s.insertInPage t p key payload)
    unfold Sys.insertInPage
    split
    · exact same_effect hu p _ _
    · exact ⟨fun _ => rfl, fun _ => rfl, rfl, rfl, rfl⟩
  | removeSlot p slotId => obtain rfl := Option.some.inj h; exact same_effect hu p _ _
  | updatePayload p slotId fn =>
    obtain rfl := Option.some.inj h
    change Same u s (s.updatePayload t p slotId fn)
    unfold Sys.updatePayload
    split
    · exact same_effect hu p _ _
    · exact ⟨fun _ => rfl, fun _ => rfl, rfl, rfl, rfl⟩
  | mergeNodes p slotId parent right =>
    obtain rfl := Option.some.inj h
    change Same u s (s.mergeNodes t p slotId parent right).2
    unfold Sys.mergeNodes
    split
    · exact same_change hu ⟨fun _ => rfl, fun _ => rfl, rfl, rfl, rfl⟩
    · exact hsame
    · exact ⟨fun _ => rfl, fun _ => rfl, rfl, rfl, rfl⟩
  | splitNode p newPID parent sepSlot sep =>
    obtain rfl := Option.some.inj h
    change Same u s (s.splitNode t p newPID parent sepSlot sep)
    unfold Sys.splitNode
    split
    · exact same_change hu ⟨fun _ => rfl, fun _ => rfl, rfl, rfl, rfl⟩
    · exact ⟨fun _ => rfl, fun _ => rfl, rfl, rfl, rfl⟩
  | yield wait => obtain rfl := Option.some.inj h; exact hsame
  | attempt =>
    obtain rfl := Option.some.inj h
    exact ⟨fun _ => rfl, fun _ => rfl, rfl, Function.update_of_ne hu _ _, rfl⟩
  | leave =>
    obtain rfl := Option.some.inj h
    exact ⟨fun _ => rfl, fun _ => rfl, rfl, Function.update_of_ne hu _ _, rfl⟩
  | caught =>
    obtain rfl := Option.some.inj h
    exact ⟨fun _ => rfl, fun _ => rfl, rfl, Function.update_of_ne hu _ _, rfl⟩
  | call c =>
    obtain rfl := Option.some.inj h
    exact ⟨fun _ => rfl, fun _ => rfl, rfl, rfl,
      (s.running_record (.call t c) u).trans (if_neg hu.symm)⟩
  | ret a =>
    obtain rfl := Option.some.inj h
    exact ⟨fun _ => rfl, fun _ => rfl, rfl, rfl, s.running_record (.ret t a) u⟩
  | crash f =>
    obtain rfl := Option.some.inj h
    exact ⟨fun _ => rfl, fun _ => rfl, rfl, rfl, rfl⟩
  | halt => cases h

end Others

section Own

variable {t : τ} {s : Sys τ} {m : Local}

lemma Tracks.lock {f : PID → List τ} {x : Multiset PID}
    (h : ∀ q, (f q).count t = x.count q) (p q : PID) :
    (Function.update f p (t :: f p) q).count t = (p ::ₘ x).count q := by
  by_cases hq : q = p
  · subst hq
    rw [Function.update_self, List.count_cons_self, Multiset.count_cons_self, h]
  · rw [Function.update_of_ne hq, Multiset.count_cons_of_ne hq, h]

lemma Tracks.unlock {f : PID → List τ} {x : Multiset PID}
    (h : ∀ q, (f q).count t = x.count q) (p q : PID) :
    (Function.update f p ((f p).erase t) q).count t = (x.erase p).count q := by
  by_cases hq : q = p
  · subst hq
    rw [Function.update_self, List.count_erase_self, Multiset.count_erase_self, h]
  · rw [Function.update_of_ne hq, Multiset.count_erase_of_ne hq, h]

/-- A change of pages by the thread. -/
lemma Tracks.change {c : Core} {s' : Sys τ} (h : Tracks t c s) (hs : Same t s s') :
    Tracks t c.change (s'.change t) where
  exclusive := fun p => (hs.exclusive p).trans (h.exclusive p)
  shared := fun p => (hs.shared p).trans (h.shared p)
  changes := by
    change Function.update s'.changes t (s'.changes t + 1) t = c.changes + 1
    rw [Function.update_self, hs.changes, h.changes]
  marks := hs.marks.trans h.marks
  current := (congrArg Prod.fst hs.running).trans h.current
  effects := by
    change List.Forall₂ Op.Causes c.effects (s'.running t).2
    rw [hs.running]
    exact h.effects

/-- A change of an entry by the thread. -/
lemma Tracks.effect {c : Core} (h : Tracks t c s) {o : Op} {e : Effect} (he : o.Causes e) (p : PID)
    (n : BTreeNode) : Tracks t (c.effect o) (((s.setPage p n).record (.effect t e)).change t) := by
  have hrun : ((s.setPage p n).record (.effect t e)).running t =
      ((s.running t).1, (s.running t).2 ++ [e]) :=
    ((s.setPage p n).running_record (.effect t e) t).trans (if_pos rfl)
  refine ⟨h.exclusive, h.shared, ?_, h.marks, ?_, ?_⟩
  · change Function.update s.changes t (s.changes t + 1) t = c.changes + 1
    rw [Function.update_self, h.changes]
  · exact (congrArg Prod.fst hrun).trans h.current
  · change List.Forall₂ Op.Causes (c.effects ++ [o])
      (((s.setPage p n).record (.effect t e)).running t).2
    rw [hrun]
    exact List.rel_append h.effects (List.Forall₂.cons he List.Forall₂.nil)

/-- The beginning of an attempt. -/
lemma Tracks.begin {c : Core} (h : Tracks t c s) : Tracks t c.begin (s.attempt t) := by
  refine ⟨h.exclusive, h.shared, h.changes, ?_, h.current, h.effects⟩
  change Function.update s.marks t (s.changes t :: s.marks t) t = _
  rw [Function.update_self, h.changes, h.marks]
  rfl

lemma Tracks.finish {c : Core} (h : Tracks t c s) : Tracks t c.finish (s.leave t) := by
  refine ⟨h.exclusive, h.shared, h.changes, ?_, h.current, h.effects⟩
  change Function.update s.marks t (s.marks t).tail t = c.attempts.tail.map Attempt.changes
  rw [Function.update_self, h.marks, List.map_tail]

/-- The shared state goes on recording what the thread knows of itself. -/
lemma tracks_perform (h : Tracks t m.core s) {c : Choice} {o : Op} {rs : o.Res × Sys τ}
    (hexec : Sys.perform t c o s = some rs) (hcrashed : rs.2.crashed = none) :
    Tracks t (m.next o rs.1).core rs.2 := by
  cases o with
  | load site p => obtain rfl := Option.some.inj hexec; cases site <;> exact h
  | cas site p old new =>
    simp only [Sys.perform] at hexec
    split at hexec
    · obtain rfl := Option.some.inj hexec
      cases site with
      | lockX => exact ⟨Tracks.lock h.exclusive p, h.shared, h.changes, h.marks, h.current, h.effects⟩
      | lockS => exact ⟨h.exclusive, Tracks.lock h.shared p, h.changes, h.marks, h.current, h.effects⟩
      | unlockS =>
        exact ⟨h.exclusive, Tracks.unlock h.shared p, h.changes, h.marks, h.current, h.effects⟩
      | unmark => exact ⟨h.exclusive, h.shared, h.changes, h.marks, h.current, h.effects⟩
    · obtain rfl := Option.some.inj hexec
      cases site <;> exact h
  | storeUnlocked p v =>
    obtain rfl := Option.some.inj hexec
    exact ⟨Tracks.unlock h.exclusive p, h.shared, h.changes, h.marks, h.current, h.effects⟩
  | nextPid =>
    obtain rfl := Option.some.inj hexec
    exact ⟨h.exclusive, h.shared, h.changes, h.marks, h.current, h.effects⟩
  | residentInsert p =>
    obtain rfl := Option.some.inj hexec
    change Tracks t m.core (s.residentInsert p)
    unfold Sys.residentInsert
    split <;> exact ⟨h.exclusive, h.shared, h.changes, h.marks, h.current, h.effects⟩
  | peek p l => obtain rfl := Option.some.inj hexec; exact h
  | peekRoot => obtain rfl := Option.some.inj hexec; exact h
  | view p => obtain rfl := Option.some.inj hexec; exact h
  | splitOrdered p => obtain rfl := Option.some.inj hexec; exact h
  | setSplitOrdered b =>
    obtain rfl := Option.some.inj hexec
    exact ⟨h.exclusive, h.shared, h.changes, h.marks, h.current, h.effects⟩
  | construct p isLeaf =>
    obtain rfl := Option.some.inj hexec
    exact h.change ⟨fun _ => rfl, fun _ => rfl, rfl, rfl, rfl⟩
  | setUpperInnerNode p q =>
    obtain rfl := Option.some.inj hexec
    exact h.change ⟨fun _ => rfl, fun _ => rfl, rfl, rfl, rfl⟩
  | setRoot p =>
    obtain rfl := Option.some.inj hexec
    exact h.change ⟨fun _ => rfl, fun _ => rfl, rfl, rfl, rfl⟩
  | insertInPage p key payload =>
    obtain rfl := Option.some.inj hexec
    change (s.insertInPage t p key payload).crashed = none at hcrashed
    change Tracks t (m.core.effect (.insertInPage p key payload)) (s.insertInPage t p key payload)
    unfold Sys.insertInPage at hcrashed ⊢
    split
    · exact h.effect (.insert p key payload) p _
    · rename_i f hf
      rw [hf] at hcrashed
      cases hcrashed
  | removeSlot p slotId =>
    obtain rfl := Option.some.inj hexec
    exact h.effect (.remove p slotId _) p _
  | updatePayload p slotId fn =>
    obtain rfl := Option.some.inj hexec
    change (s.updatePayload t p slotId fn).crashed = none at hcrashed
    change Tracks t (m.core.effect (.updatePayload p slotId fn)) (s.updatePayload t p slotId fn)
    unfold Sys.updatePayload at hcrashed ⊢
    split
    · exact h.effect (.update p slotId fn _) p _
    · rename_i f hf
      rw [hf] at hcrashed
      cases hcrashed
  | mergeNodes p slotId parent right =>
    obtain rfl := Option.some.inj hexec
    change (s.mergeNodes t p slotId parent right).2.crashed = none at hcrashed
    change Tracks t (m.next (.mergeNodes p slotId parent right)
      (s.mergeNodes t p slotId parent right).1).core (s.mergeNodes t p slotId parent right).2
    unfold Sys.mergeNodes at hcrashed ⊢
    split
    · exact h.change ⟨fun _ => rfl, fun _ => rfl, rfl, rfl, rfl⟩
    · exact h
    · rename_i f hf
      rw [hf] at hcrashed
      cases hcrashed
  | splitNode p newPID parent sepSlot sep =>
    obtain rfl := Option.some.inj hexec
    change (s.splitNode t p newPID parent sepSlot sep).crashed = none at hcrashed
    change Tracks t m.core.change (s.splitNode t p newPID parent sepSlot sep)
    unfold Sys.splitNode at hcrashed ⊢
    split
    · exact h.change ⟨fun _ => rfl, fun _ => rfl, rfl, rfl, rfl⟩
    · rename_i f hf
      rw [hf] at hcrashed
      cases hcrashed
  | yield wait => obtain rfl := Option.some.inj hexec; exact h
  | attempt => obtain rfl := Option.some.inj hexec; exact h.begin
  | leave => obtain rfl := Option.some.inj hexec; exact h.finish
  | caught => obtain rfl := Option.some.inj hexec; exact h.finish
  | call c =>
    obtain rfl := Option.some.inj hexec
    have hrun : (s.record (.call t c)).running t = (some c, []) :=
      (s.running_record (.call t c) t).trans (if_pos rfl)
    refine ⟨h.exclusive, h.shared, h.changes, h.marks, congrArg Prod.fst hrun, ?_⟩
    change List.Forall₂ Op.Causes [] ((s.record (.call t c)).running t).2
    rw [hrun]
    exact List.Forall₂.nil
  | ret a =>
    obtain rfl := Option.some.inj hexec
    exact h.same ⟨fun _ => rfl, fun _ => rfl, rfl, rfl, s.running_record (.ret t a) t⟩
  | crash f => obtain rfl := Option.some.inj hexec; cases hcrashed
  | halt => cases hexec

end Own

/-! ## Runs -/

/-- Until the run has ended, the shared state records what all threads know of themselves. -/
def Agrees (ms : τ → Local) (s : Sys τ) : Prop :=
  s.crashed = none → metadataPageId < s.allocCount ∧ ∀ t, Tracks t (ms t).core s

/-- The allocation counter and the number of changes do not fall, and a change of a page or of the
root is counted. -/
structure Counts (t : τ) (s s' : Sys τ) : Prop where
  alloc : s.allocCount ≤ s'.allocCount
  counted : (s'.page = s.page ∧ s'.root = s.root) ∨ s'.changes t = s.changes t + 1
  grows : s.changes t ≤ s'.changes t

omit [DecidableEq τ] in
lemma Counts.same {t : τ} {s s' : Sys τ} (ha : s.allocCount ≤ s'.allocCount)
    (hp : s'.page = s.page) (hr : s'.root = s.root) (hc : s'.changes t = s.changes t) :
    Counts t s s' := ⟨ha, Or.inl ⟨hp, hr⟩, hc.ge⟩

lemma Counts.change {t : τ} {s s' : Sys τ} (ha : s'.allocCount = s.allocCount)
    (hc : s'.changes t = s.changes t) : Counts t s (s'.change t) := by
  have h : (s'.change t).changes t = s.changes t + 1 := by
    change Function.update s'.changes t (s'.changes t + 1) t = _
    rw [Function.update_self, hc]
  exact ⟨ha.ge, Or.inr h, h ▸ Nat.le_succ _⟩

lemma counts_perform {t : τ} {c : Choice} {o : Op} {s : Sys τ} {rs : o.Res × Sys τ}
    (h : Sys.perform t c o s = some rs) : Counts t s rs.2 := by
  cases o with
  | cas site p old new =>
    simp only [Sys.perform] at h
    split at h <;> (obtain rfl := Option.some.inj h; exact Counts.same (le_refl _) rfl rfl rfl)
  | nextPid =>
    obtain rfl := Option.some.inj h
    exact Counts.same (Nat.le_succ _) rfl rfl rfl
  | residentInsert p =>
    obtain rfl := Option.some.inj h
    change Counts t s (s.residentInsert p)
    unfold Sys.residentInsert
    split <;> exact Counts.same (le_refl _) rfl rfl rfl
  | construct p isLeaf => obtain rfl := Option.some.inj h; exact Counts.change rfl rfl
  | setUpperInnerNode p q => obtain rfl := Option.some.inj h; exact Counts.change rfl rfl
  | setRoot p => obtain rfl := Option.some.inj h; exact Counts.change rfl rfl
  | insertInPage p key payload =>
    obtain rfl := Option.some.inj h
    change Counts t s (s.insertInPage t p key payload)
    unfold Sys.insertInPage
    split
    · exact Counts.change rfl rfl
    · exact Counts.same (le_refl _) rfl rfl rfl
  | removeSlot p slotId => obtain rfl := Option.some.inj h; exact Counts.change rfl rfl
  | updatePayload p slotId fn =>
    obtain rfl := Option.some.inj h
    change Counts t s (s.updatePayload t p slotId fn)
    unfold Sys.updatePayload
    split
    · exact Counts.change rfl rfl
    · exact Counts.same (le_refl _) rfl rfl rfl
  | mergeNodes p slotId parent right =>
    obtain rfl := Option.some.inj h
    change Counts t s (s.mergeNodes t p slotId parent right).2
    unfold Sys.mergeNodes
    split
    · exact Counts.change rfl rfl
    · exact Counts.same (le_refl _) rfl rfl rfl
    · exact Counts.same (le_refl _) rfl rfl rfl
  | splitNode p newPID parent sepSlot sep =>
    obtain rfl := Option.some.inj h
    change Counts t s (s.splitNode t p newPID parent sepSlot sep)
    unfold Sys.splitNode
    split
    · exact Counts.change rfl rfl
    · exact Counts.same (le_refl _) rfl rfl rfl
  | halt => cases h
  | _ => obtain rfl := Option.some.inj h; exact Counts.same (le_refl _) rfl rfl rfl

lemma perform_of_exec {t : τ} {c : Choice} {o : Op} {s : Sys τ} {rs : o.Res × Sys τ}
    (h : exec t c o s = some rs) : s.crashed = none ∧ Sys.perform t c o s = some rs := by
  unfold exec at h
  by_cases hcrashed : s.crashed = none
  · rw [if_pos hcrashed] at h
    exact ⟨hcrashed, h⟩
  · rw [if_neg hcrashed] at h
    cases h

lemma reflects_discipline : Reflects exec discipline (Agrees (τ := τ)) := by
  intro ms s t c o r s' hs hlegal hexec
  obtain ⟨hcrashed, hperform⟩ := perform_of_exec hexec
  obtain ⟨halloc, htracks⟩ := hs hcrashed
  refine ⟨?_, fun hcrashed' => ⟨lt_of_lt_of_le halloc (counts_perform hperform).alloc, fun u => ?_⟩⟩
  · cases o with
    | nextPid =>
      cases Option.some.inj hperform
      exact halloc.ne'
    | _ => trivial
  · by_cases hu : u = t
    · subst hu
      rw [Function.update_self]
      exact tracks_perform (htracks u) hperform hcrashed'
    · rw [Function.update_of_ne hu]
      exact (htracks u).same (same_perform hu hperform)

/-- What a thread knows of itself before it has done anything, and after some changes. -/
def Local.fresh (changes : Nat) : Local := ⟨⟨0, 0, changes, [], none, []⟩, none, none, none⟩

lemma agrees_start : Agrees (fun _ => Local.fresh 0) (Sys.start : Sys τ) :=
  fun _ => ⟨Nat.zero_lt_one, fun _ =>
    ⟨fun _ => rfl, fun _ => rfl, rfl, rfl, rfl, List.Forall₂.nil⟩⟩

/-- The threads begin their calls when `init` has returned. -/
structure Launched (env : Env) (calls : τ → List Call)
    (cfg : Config signature OLCRestart (Sys τ) τ) : Prop where
  init : ∃ t c, (BTree.init env).eval (S := signature) exec t c Sys.start = .done () cfg.shared
  prog : ∀ t, cfg.prog t = thread env (calls t)

/-- The threads keep the discipline, in every configuration that they reach. -/
lemma Launched.monitored {env : Env} {calls : τ → List Call}
    {cfg cfg' : Config signature OLCRestart (Sys τ) τ} (h : Launched env calls cfg)
    (hreach : Reach exec cfg cfg') : Monitored discipline Agrees cfg' := by
  refine Monitored.reach reflects_discipline ?_ hreach
  obtain ⟨t, c, hinit⟩ := h.init
  have hobeys : Does (BTree.init env) (Local.fresh 0).core (fun _ c' => Core.Grows _ c')
      (fun _ => False) := BTree.does_init
  have hrun := (hobeys (Local.fresh 0) rfl).eval (reflects_discipline.alone (fun _ => Local.fresh 0) t c)
    (s := Sys.start) (by rw [Function.update_eq_self]; exact agrees_start)
  rw [hinit] at hrun
  obtain ⟨m, hm, hagrees⟩ := hrun
  refine ⟨_, hagrees, fun u => ?_⟩
  rw [h.prog]
  have hidle : (Function.update (fun _ : τ => Local.fresh 0) t m u).core.Idle := by
    by_cases hu : u = t
    · subst hu
      rw [Function.update_self]
      obtain ⟨n, hn⟩ := hm
      rw [hn]
      exact ⟨rfl, rfl⟩
    · rw [Function.update_of_ne hu]
      exact ⟨rfl, rfl⟩
  have hthread : Does (thread env (calls u)) _ (fun _ => Core.Idle) (fun _ => False) :=
    does_thread (calls u) hidle
  exact (hthread _ rfl).mono (fun _ _ _ => trivial) (fun _ _ _ => trivial)

/-! ## The guarantee -/

/-- What a call that returns has done to the entries. -/
def Call.Applied : Call → Answer → List Effect → Prop
  | .insert key payload, _, es => es = [.insert key payload]
  | .remove _, .bool true, es => ∃ key, es = [.remove key]
  | .updateInPlace _ fn, .bool true, es => ∃ key, es = [.update key fn]
  | _, _, es => es = []

lemma Call.Effects.applied {call : Call} {a : Answer} {os : List Op} {es : List Effect}
    (h : call.Effects a os) (hes : List.Forall₂ Op.Causes os es) : call.Applied a es := by
  have hnone : os = [] → es = [] := by
    rintro rfl
    exact List.forall₂_nil_left_iff.mp hes
  have hone : ∀ o, os = [o] → ∃ e, o.Causes e ∧ es = [e] := by
    rintro o rfl
    obtain ⟨e, es', he, hnil, rfl⟩ := List.forall₂_cons_left_iff.mp hes
    exact ⟨e, he, by rw [List.forall₂_nil_left_iff.mp hnil]⟩
  cases call with
  | insert key payload =>
    obtain ⟨p, hp⟩ := h
    obtain ⟨e, he, rfl⟩ := hone _ hp
    cases he
    rfl
  | remove key =>
    cases a with
    | bool b =>
      cases b with
      | true =>
        obtain ⟨p, slotId, hp⟩ := h
        obtain ⟨e, he, rfl⟩ := hone _ hp
        cases he
        exact ⟨_, rfl⟩
      | false => exact hnone h
    | _ => exact hnone h
  | updateInPlace key fn =>
    cases a with
    | bool b =>
      cases b with
      | true =>
        obtain ⟨p, slotId, hp⟩ := h
        obtain ⟨e, he, rfl⟩ := hone _ hp
        cases he
        exact ⟨_, rfl⟩
      | false => exact hnone h
    | _ => exact hnone h
  | _ => exact hnone h

/-- In this configuration, exceptions leave nothing behind and returned calls have done their
work once. An attempt that runs in another one has a mark of its own. -/
structure RestartsAtomic (cfg : Config signature OLCRestart (Sys τ) τ) : Prop where
  /-- a thread that catches the exception has changed nothing since the attempt began -/
  unchanged : ∀ t k, cfg.prog t = .step .caught k →
    (cfg.shared.marks t).head? = some (cfg.shared.changes t)
  /-- and holds no latch, unless `scanDesc` keeps its leaf -/
  released : ∀ t k, cfg.prog t = .step .caught k →
    (∀ key fn, (cfg.shared.running t).1 ≠ some (.scanDesc key fn)) →
    ∀ p, t ∉ cfg.shared.xHolders p ∧ t ∉ cfg.shared.sHolders p
  /-- a step that changes a page or the root is counted -/
  counted : ∀ t c o r s', exec t c o cfg.shared = some (r, s') →
    (s'.page = cfg.shared.page ∧ s'.root = cfg.shared.root) ∨
      s'.changes t = cfg.shared.changes t + 1
  /-- an attempt that has changed something does not end in an exception -/
  committed : ∀ t mark marks, cfg.shared.marks t = mark :: marks → mark < cfg.shared.changes t →
    ∀ cfg', Reach exec cfg cfg' → cfg'.shared.crashed = none →
    cfg'.shared.marks t = mark :: marks → ∀ k, cfg'.prog t ≠ .step .caught k
  /-- a call that returns has changed the entry that its answer tells of, once -/
  returned : ∀ t a k, cfg.prog t = .step (.ret a) k →
    ∃ call, (cfg.shared.running t).1 = some call ∧ call.Applied a (cfg.shared.running t).2

lemma changes_reach {cfg cfg' : Config signature OLCRestart (Sys τ) τ}
    (h : Reach exec cfg cfg') (t : τ) : cfg.shared.changes t ≤ cfg'.shared.changes t := by
  refine h.invariant (P := fun x => cfg.shared.changes t ≤ x.shared.changes t) (le_refl _) ?_
  rintro x y hx ⟨hprog, hexec⟩
  rename_i u c o k r s'
  refine hx.trans ?_
  have hperform := (perform_of_exec hexec).2
  by_cases hu : t = u
  · subst hu
    exact (counts_perform hperform).grows
  · exact (same_perform hu hperform).changes.ge

/-- A thread that is about to catch the exception has changed nothing in its attempt. -/
lemma Launched.caught {env : Env} {calls : τ → List Call}
    {cfg₀ cfg : Config signature OLCRestart (Sys τ) τ}
    (h : Launched env calls cfg₀) (hreach : Reach exec cfg₀ cfg)
    (hrun : cfg.shared.crashed = none) {t : τ}
    {k : Unit → Prog Unit} (hprog : cfg.prog t = .step (S := signature) .caught k) :
    ∃ c : Core, Tracks t c cfg.shared ∧ c.Free ∧
      c.attempts.head? = some ⟨c.changes, c.x, c.s⟩ := by
  obtain ⟨ms, hagrees, hobeys⟩ := h.monitored hreach
  have ht := hobeys t
  rw [hprog] at ht
  exact ⟨(ms t).core, (hagrees hrun).2 t, ht.1.2, ht.1.1⟩

lemma Tracks.head {t : τ} {c : Core} {s : Sys τ} (h : Tracks t c s)
    (hc : c.attempts.head? = some ⟨c.changes, c.x, c.s⟩) :
    (s.marks t).head? = some (s.changes t) := by
  rw [h.marks, List.head?_map, hc, h.changes]
  rfl

/-- A page for the metadata and one for a leaf. -/
def twoPages : Env := ⟨2 * pageSize, by decide, 4⟩

/-- Two threads that are about to make calls on the tree that `init` leaves. -/
def launch (env : Env) (calls : Bool → List Call) :
    Option (Config signature OLCRestart (Sys Bool) Bool) :=
  match (BTree.init env).eval (S := signature) exec true ⟨0, false⟩ Sys.start with
  | .done _ s => some ⟨s, fun t => thread env (calls t)⟩
  | _ => none

lemma launched_of_launch {env : Env} {calls : Bool → List Call}
    {cfg : Config signature OLCRestart (Sys Bool) Bool} (h : launch env calls = some cfg) :
    Launched env calls cfg := by
  unfold launch at h
  split at h
  · rename_i s hinit
    obtain rfl := Option.some.inj h
    exact ⟨⟨true, ⟨0, false⟩, hinit⟩, fun _ => rfl⟩
  · cases h

/-- The turns of thread `true` and thread `false`, one after the other. -/
def inTurns : List Nat → List (Bool × Choice × Nat)
  | [] => []
  | [n] => [(true, ⟨0, false⟩, n)]
  | n :: k :: ns => (true, ⟨0, false⟩, n) :: (false, ⟨0, false⟩, k) :: inTurns ns

def takeTurns (ns : List Nat) (cfg : Config signature OLCRestart (Sys Bool) Bool) :
    Option (Config signature OLCRestart (Sys Bool) Bool) :=
  playWithin exec (fun _ _ _ => True) (inTurns ns) cfg

def catching : Prog Unit → Bool
  | .step .caught _ => true
  | _ => false

def returning : Prog Unit → Bool
  | .step (.ret _) _ => true
  | _ => false

def twoInserts (t : Bool) : List Call := [.insert [if t then byte 1 else byte 2] []]

end MemSafeDB
