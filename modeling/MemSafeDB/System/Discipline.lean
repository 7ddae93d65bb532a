import Mathlib.Data.Multiset.AddSub
import MemSafeDB.Lib.Monitor
import MemSafeDB.System.Operations

/-!
# The discipline of the threads

What a thread of the tree does with latches and pages, whatever the other threads do. It gives
back exactly the latches that it has taken, changes pages only under their exclusive latches,
and when an attempt ends in an exception it has changed nothing and holds what it held when the
attempt began.
-/

namespace MemSafeDB
open Lib PageState BufferManager

/-- What a thread remembers at the beginning of an attempt. -/
structure Attempt where
  changes : Nat
  x : Multiset PID
  s : Multiset PID

/-- The latches and the changes of a thread. -/
structure Core where
  /-- pages that the thread holds exclusively -/
  x : Multiset PID
  /-- pages that it holds shared -/
  s : Multiset PID
  changes : Nat
  attempts : List Attempt
  current : Option Call
  /-- the changes of entries since the call began -/
  effects : List Op

structure Local where
  core : Core
  /-- the last load of a latch word outside a guard -/
  loaded : Option (PID × Word)
  /-- the page id that the thread has drawn last, as long as it has latched nothing since -/
  drawn : Option PID
  /-- the evicted or new page that the thread has latched last and not yet put into the resident
  set -/
  entering : Option PID

namespace Core

def lockX (c : Core) (p : PID) : Core := { c with x := p ::ₘ c.x }

def unlockX (c : Core) (p : PID) : Core := { c with x := c.x.erase p }

def lockS (c : Core) (p : PID) : Core := { c with s := p ::ₘ c.s }

def unlockS (c : Core) (p : PID) : Core := { c with s := c.s.erase p }

def change (c : Core) : Core := { c with changes := c.changes + 1 }

def effect (c : Core) (o : Op) : Core :=
  { c with changes := c.changes + 1, effects := c.effects ++ [o] }

def begin (c : Core) : Core := { c with attempts := ⟨c.changes, c.x, c.s⟩ :: c.attempts }

def finish (c : Core) : Core := { c with attempts := c.attempts.tail }

/-- The state of the thread with another number of changes. -/
def withChanges (c : Core) (n : Nat) : Core := { c with changes := n }

/-- The thread holds no latch, but for that of a leaf when it descends again in `scanDesc`. -/
def Free (c : Core) : Prop :=
  c.x = 0 ∧ (c.s = 0 ∨ ∃ key fn, c.current = some (.scanDesc key fn))

/-- The thread is between two calls. -/
def Idle (c : Core) : Prop := c.x = 0 ∧ c.s = 0

@[simp] lemma unlockX_lockX (c : Core) (p : PID) : (c.lockX p).unlockX p = c := by
  simp [lockX, unlockX]

@[simp] lemma unlockS_lockS (c : Core) (p : PID) : (c.lockS p).unlockS p = c := by
  simp [lockS, unlockS]

@[simp] lemma finish_begin (c : Core) : c.begin.finish = c := rfl

lemma Free.begin {c : Core} (h : c.Free) : c.begin.Free := h

lemma mem_lockX (c : Core) (p : PID) : p ∈ (c.lockX p).x := Multiset.mem_cons_self p c.x

lemma mem_lockS (c : Core) (p : PID) : p ∈ (c.lockS p).s := Multiset.mem_cons_self p c.s

end Core

/-- The changes of entries that a call has made when it returns. -/
def Call.Effects : Call → Answer → List Op → Prop
  | .insert key payload, _, es => ∃ p, es = [.insertInPage p key payload]
  | .remove _, .bool true, es => ∃ p slotId, es = [.removeSlot p slotId]
  | .updateInPlace _ fn, .bool true, es => ∃ p slotId, es = [.updatePayload p slotId fn]
  | _, _, es => es = []

/-- The states in which a latch may be taken exclusively. -/
def Lockable (v : Word) : Prop :=
  getState v = Unlocked ∨ getState v = Marked ∨ getState v = Evicted

/-- The words of a compare-exchange fit its purpose. -/
def CasSite.Fits (m : Local) : CasSite → PID → Word → Word → Prop
  | lockX, p, old, new => new = sameVersion old Locked ∧ (Lockable old ∨ m.drawn = some p)
  | lockS, _, old, new => (getState old < MaxShared ∧ new = sameVersion old (getState old + 1)) ∨
      (getState old = Marked ∧ new = sameVersion old 1)
  | unlockS, p, old, new => p ∈ m.core.s ∧ (0 < getState old ∧ getState old ≤ MaxShared) ∧
      new = sameVersion old (getState old - 1)
  | unmark, _, old, new => getState old = Marked ∧ new = sameVersion old Unlocked

/-- The operations that may come next. -/
def Local.Legal (m : Local) : Op → Prop
  | .cas site p old new => site.Fits m p old new
  | .storeUnlocked p v => p ∈ m.core.x ∧ ∃ w, m.loaded = some (p, w) ∧ v = nextVersion w Unlocked
  | .residentInsert p => p ∈ m.core.x ∧ m.entering = some p
  | .view p => p ∈ m.core.x ∨ p ∈ m.core.s
  | .splitOrdered p => p ∈ m.core.x
  | .construct p _ => p ∈ m.core.x
  | .setUpperInnerNode p _ => p ∈ m.core.x
  | .setRoot p => p ≠ metadataPageId ∧ metadataPageId ∈ m.core.x
  | .insertInPage p _ _ => p ∈ m.core.x
  | .removeSlot p _ => p ∈ m.core.x
  | .updatePayload p _ _ => p ∈ m.core.x
  | .mergeNodes p _ parent right => p ∈ m.core.x ∧ parent ∈ m.core.x ∧ right ∈ m.core.x
  | .splitNode p newPID parent _ _ => p ∈ m.core.x ∧ newPID ∈ m.core.x ∧ parent ∈ m.core.x
  | .caught => m.core.attempts.head? = some ⟨m.core.changes, m.core.x, m.core.s⟩ ∧ m.core.Free
  | .call _ => m.core.x = 0 ∧ m.core.s = 0
  | .ret a => m.core.x = 0 ∧ m.core.s = 0 ∧ ∃ c, m.core.current = some c ∧
      c.Effects a m.core.effects
  | _ => True

/-- What changes with an answer. -/
def Local.next (m : Local) : (o : Op) → o.Res → Local
  | .load .other p, v => { m with loaded := some (p, v) }
  | .cas .lockX p old _, true =>
    { core := m.core.lockX p
      loaded := none
      drawn := none
      entering := if getState old = Evicted ∨ m.drawn = some p then some p else none }
  | .cas .lockS p _ _, true => { m with core := m.core.lockS p }
  | .cas .unlockS p _ _, true => { m with core := m.core.unlockS p }
  | .storeUnlocked p _, _ => { m with core := m.core.unlockX p }
  | .nextPid, p => { m with drawn := some p }
  | .residentInsert _, _ => { m with entering := none }
  | .construct _ _, _ => { m with core := m.core.change }
  | .setUpperInnerNode _ _, _ => { m with core := m.core.change }
  | .setRoot _, _ => { m with core := m.core.change }
  | .insertInPage p key payload, _ => { m with core := m.core.effect (.insertInPage p key payload) }
  | .removeSlot p slotId, _ => { m with core := m.core.effect (.removeSlot p slotId) }
  | .updatePayload p slotId fn, _ => { m with core := m.core.effect (.updatePayload p slotId fn) }
  | .mergeNodes _ _ _ _, true => { m with core := m.core.change }
  | .splitNode _ _ _ _ _, _ => { m with core := m.core.change }
  | .attempt, _ => { m with core := m.core.begin }
  | .leave, _ => { m with core := m.core.finish }
  | .caught, _ => { m with core := m.core.finish }
  | .call c, _ => { m with core := { m.core with current := some c, effects := [] } }
  | _, _ => m

/-- The monitor of a thread; page ids that are drawn are not that of the metadata page. -/
def discipline : Monitor signature Local where
  legal := Local.Legal
  answer := fun _ o r =>
    match o, r with
    | .nextPid, p => p ≠ metadataPageId
    | _, _ => True
  next := Local.next

/-- The program obeys the discipline when the thread is in this state, and ends so. -/
def Does {α : Type} (p : Prog α) (c : Core) (Q : α → Core → Prop) (E : Core → Prop) : Prop :=
  ∀ m : Local, m.core = c →
    p.Obeys discipline (fun a m' => Q a m'.core) (fun _ m' => E m'.core) m

/-- The program takes no latch that it does not give back and changes nothing. -/
def Neutral {α : Type} (p : Prog α) : Prop := ∀ c, Does p c (fun _ c' => c' = c) (fun c' => c' = c)

/-- The program is neutral and does not end in an exception. -/
def Quiet {α : Type} (p : Prog α) : Prop := ∀ c E, Does p c (fun _ c' => c' = c) E

section Rules

variable {α β : Type} {c : Core} {Q : α → Core → Prop} {E : Core → Prop}

namespace Does

lemma pure {a : α} (h : Q a c) : Does (Pure.pure a) c Q E := by
  rintro m rfl
  exact h

lemma restart (h : E c) : Does (MemSafeDB.restart : Prog α) c Q E := by
  rintro m rfl
  exact h

lemma crash (f : Fault) : Does (MemSafeDB.crash f : Prog α) c Q E :=
  fun _ _ => ⟨trivial, fun _ _ => ⟨trivial, fun r => r.elim⟩⟩

lemma halt : Does (MemSafeDB.halt : Prog α) c Q E :=
  fun _ _ => ⟨trivial, fun r => r.elim⟩

lemma mono {p : Prog α} {Q' : α → Core → Prop} {E' : Core → Prop} (h : Does p c Q E)
    (hQ : ∀ a c', Q a c' → Q' a c') (hE : ∀ c', E c' → E' c') : Does p c Q' E' :=
  fun m hm => (h m hm).mono (fun a m' => hQ a m'.core) (fun _ m' => hE m'.core)

lemma bind {p : Prog α} {f : α → Prog β} {Q' : β → Core → Prop} (h : Does p c Q E)
    (hf : ∀ a c', Q a c' → Does (f a) c' Q' E) : Does (p >>= f) c Q' E :=
  fun m hm => (h m hm).bind (fun a m' ha => hf a m'.core ha m' rfl)

lemma onThrow {p : Prog α} {cleanup : Prog Unit} {E' : Core → Prop} (h : Does p c Q E)
    (hc : ∀ c', E c' → Does cleanup c' (fun _ => E') E') : Does (p.onThrow cleanup) c Q E' :=
  fun m hm => (h m hm).onThrow (fun _ m' he => hc m'.core he m' rfl)

/-- An operation after which the thread is in state `c'`. -/
lemma op {o : Op} {Q : o.Res → Core → Prop} (hlegal : ∀ m : Local, m.core = c → m.Legal o)
    (hnext : ∀ m : Local, m.core = c → ∀ r, discipline.answer m o r → Q r (m.next o r).core) :
    Does (Program.op (S := signature) o) c Q E :=
  fun m hm => Program.Obeys.op (hlegal m hm) (hnext m hm)

lemma ite {P : Prop} [Decidable P] {p q : Prog α} (hp : P → Does p c Q E)
    (hq : ¬P → Does q c Q E) : Does (if P then p else q) c Q E := by
  split
  · exact hp ‹_›
  · exact hq ‹_›

lemma neutral_bind {p : Prog α} {f : α → Prog β} {Q : β → Core → Prop} (h : Neutral p)
    (hE : E c) (hf : ∀ a, Does (f a) c Q E) : Does (p >>= f) c Q E := by
  refine Does.bind (Q := fun _ c' => c' = c) ((h c).mono (fun _ _ h => h) ?_) ?_
  · rintro _ rfl
    exact hE
  · rintro a _ rfl
    exact hf a

lemma quiet_bind {p : Prog α} {f : α → Prog β} {Q : β → Core → Prop} (h : Quiet p)
    (hf : ∀ a, Does (f a) c Q E) : Does (p >>= f) c Q E := by
  refine (h c E).bind ?_
  rintro a _ rfl
  exact hf a

end Does

namespace Quiet

lemma pure (a : α) : Quiet (Pure.pure a : Prog α) := fun _ _ => Does.pure rfl

lemma bind {p : Prog α} {f : α → Prog β} (h : Quiet p) (hf : ∀ a, Quiet (f a)) :
    Quiet (p >>= f) := fun c E => Does.quiet_bind h (fun a => hf a c E)

lemma ite {P : Prop} [Decidable P] {p q : Prog α} (hp : P → Quiet p) (hq : ¬P → Quiet q) :
    Quiet (if P then p else q) := fun c E => Does.ite (fun h => hp h c E) (fun h => hq h c E)

/-- An operation that is always legal and concerns neither latches nor changes. -/
lemma op {o : Op} (hlegal : ∀ m : Local, m.Legal o)
    (hnext : ∀ (m : Local) r, (m.next o r).core = m.core) :
    Quiet (Program.op (S := signature) o) := by
  intro c E
  refine Does.op (fun m _ => hlegal m) ?_
  rintro m rfl r -
  exact hnext m r

lemma neutral {p : Prog α} (h : Quiet p) : Neutral p := fun c => h c _

end Quiet

namespace Neutral

lemma pure (a : α) : Neutral (Pure.pure a : Prog α) := fun _ => Does.pure rfl

lemma bind {p : Prog α} {f : α → Prog β} (h : Neutral p) (hf : ∀ a, Neutral (f a)) :
    Neutral (p >>= f) := fun c => Does.neutral_bind h rfl (fun a => hf a c)

lemma onThrow {p : Prog α} {cleanup : Prog Unit} (h : Neutral p) (hc : Neutral cleanup) :
    Neutral (p.onThrow cleanup) := by
  intro c
  refine (h c).onThrow ?_
  rintro _ rfl
  exact hc _

lemma ite {P : Prop} [Decidable P] {p q : Prog α} (hp : P → Neutral p) (hq : ¬P → Neutral q) :
    Neutral (if P then p else q) := fun c => Does.ite (fun h => hp h c) (fun h => hq h c)

end Neutral

end Rules

/-! ## Single operations -/

section Single

variable {α : Type} {c : Core} {E : Core → Prop} {p : PID}

lemma quiet_load (site : LoadSite) (p : PID) : Quiet (load site p) :=
  Quiet.op (fun _ => trivial) (fun _ _ => by cases site <;> rfl)

lemma quiet_yield (wait : Option (PID × LatchMode)) : Quiet (yield wait) :=
  Quiet.op (fun _ => trivial) (fun _ _ => rfl)

lemma quiet_peekRoot : Quiet peekRoot := Quiet.op (fun _ => trivial) (fun _ _ => rfl)

lemma quiet_assert (a : Assertion) (p : Prop) [Decidable p] : Quiet (assert a p) :=
  Quiet.ite (fun _ => Quiet.pure ()) (fun _ _ _ => Does.crash _)

lemma quiet_liftFault (e : Except Fault α) : Quiet (liftFault e) := by
  cases e with
  | ok a => exact Quiet.pure a
  | error f => exact fun _ _ => Does.crash f

lemma neutral_restart : Neutral (restart : Prog α) := fun _ => Does.restart rfl

lemma neutral_readPage (p : PID) (r : PageRead α) : Neutral (readPage p r) := by
  induction r with
  | ret a => exact Neutral.pure a
  | throw e => exact fun _ _ hm => hm
  | step l k ih =>
    have hpeek : Quiet (Program.op (S := signature) (.peek p l)) :=
      Quiet.op (fun _ => trivial) (fun _ _ => rfl)
    exact Neutral.bind hpeek.neutral ih

lemma does_view (hp : p ∈ c.x ∨ p ∈ c.s) : Does (view p) c (fun _ c' => c' = c) E := by
  refine Does.op ?_ ?_
  · rintro m rfl
    exact hp
  · rintro m rfl r -
    rfl

end Single

/-! ## Latches -/

section Latches

variable {c : Core} {E : Core → Prop} {p : PID} {old : Word}

lemma does_tryLockX (hold : Lockable old) :
    Does (tryLockX p old) c (fun ok c' => c' = if ok then c.lockX p else c) E := by
  refine Does.op ?_ ?_
  · rintro m rfl
    exact ⟨rfl, Or.inl hold⟩
  · rintro m rfl ok -
    cases ok <;> rfl

/-- A thread that latches an evicted page puts it into the resident set. -/
lemma does_enter {α : Type} {Q : α → Core → Prop} {f g : Prog α} (hold : getState old = Evicted)
    (hf : Does f (c.lockX p) Q E) (hg : Does g c Q E) :
    Does (do
      let ok ← tryLockX p old
      if ok then
        handleFault p
        f
      else
        g) c Q E := by
  rintro m rfl
  refine ⟨⟨rfl, Or.inl (Or.inr (Or.inr hold))⟩, fun ok _ => ?_⟩
  cases ok with
  | false => exact hg m rfl
  | true =>
    refine ⟨⟨Core.mem_lockX m.core p, ?_⟩, fun _ _ => hf _ rfl⟩
    exact if_pos (Or.inl hold)

lemma does_tryLockS (p : PID) (old : Word) :
    Does (tryLockS p old) c (fun ok c' => c' = if ok then c.lockS p else c) E := by
  unfold tryLockS
  refine Does.ite (fun hshared => Does.op ?_ ?_) (fun _ => Does.ite (fun hmarked => Does.op ?_ ?_)
    (fun _ => Does.pure rfl))
  · rintro m rfl
    exact Or.inl ⟨hshared, rfl⟩
  · rintro m rfl ok -
    cases ok <;> rfl
  · rintro m rfl
    exact Or.inr ⟨hmarked, rfl⟩
  · rintro m rfl ok -
    cases ok <;> rfl

lemma does_unfixX (hp : p ∈ c.x) :
    Does (unfixX p) c (fun _ c' => c' = c.unlockX p) E := by
  refine Does.quiet_bind (quiet_load _ _) (fun _ => Does.quiet_bind (quiet_assert _ _) fun _ => ?_)
  -- the store uses the word that was loaded right before it
  rintro m rfl
  exact ⟨trivial, fun w _ => ⟨⟨hp, w, rfl, rfl⟩, fun _ _ => rfl⟩⟩

lemma does_unlockS (hp : p ∈ c.s) (fuel : Nat) :
    Does (unlockS p fuel) c (fun _ c' => c' = c.unlockS p) E := by
  induction fuel with
  | zero => exact Does.halt
  | succ fuel ih =>
    refine Does.quiet_bind (quiet_load _ _) (fun v => ?_)
    refine Does.bind (Q := fun _ c' => c' = c ∧ 0 < getState v ∧ getState v ≤ MaxShared) ?_ ?_
    · exact Does.ite (fun hv => Does.pure ⟨rfl, hv⟩) (fun _ => Does.crash _)
    rintro _ c ⟨rfl, hv⟩
    refine Does.bind (Q := fun ok c' => c' = if ok then c.unlockS p else c) ?_ ?_
    · refine Does.op ?_ ?_
      · rintro m rfl
        exact ⟨hp, hv, rfl⟩
      · rintro m rfl ok -
        cases ok <;> rfl
    rintro ok _ rfl
    cases ok with
    | false => exact ih
    | true => exact Does.pure rfl

lemma does_unfixS (env : Env) (hp : p ∈ c.s) :
    Does (unfixS env p) c (fun _ c' => c' = c.unlockS p) E := does_unlockS hp env.fuel

end Latches

end MemSafeDB
