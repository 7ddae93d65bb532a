import MemSafeDB.BTree.Readers
import MemSafeDB.Lib.Total
import MemSafeDB.System.Operations
import MemSafeDB.Tree.Restructure

/-!
# One thread alone: latches and guards

When a single thread runs, every page that it does not hold itself is unlocked, so guards are
never stale, latches are taken at once and reads see the page. This file gives the functions of
the buffer manager and of the guards their total specification in that situation.
-/

namespace MemSafeDB
open Lib PageState

variable {τ : Type} [DecidableEq τ]

def Sys.tree (s : Sys τ) : Tree := ⟨s.page, s.level, s.root⟩

/-- The run has ended with one of the faults. -/
def Stops (F : Fault → Prop) (s : Sys τ) : Prop := ∃ f, F f ∧ s.crashed = some f

/-- A change of a page leaves valid pages; a split may also end with one of the faults of a copy
that does not fit. -/
def Good (F : Fault → Prop) (s : Sys τ) : Op → Prop
  | .splitOrdered p => (s.page p).Valid
  | .insertInPage p key payload => ∃ n, (s.page p).insertInPage key payload = .ok n ∧ n.Valid
  | .removeSlot p slotId => ((s.page p).removeSlot slotId).Valid
  | .updatePayload p slotId fn =>
    ∃ n, (s.page p).setPayload slotId (fn.run ((s.page p).getPayload slotId)) = .ok n ∧ n.Valid
  | .mergeNodes p slotId parent right =>
    ∃ b l q, (s.page p).mergeNodes p slotId (s.page parent) (s.page right) = .ok (b, l, q) ∧
      l.Valid ∧ q.Valid
  | .splitNode p newPID parent sepSlot sep =>
    (∃ l r q, (s.page p).splitNode p newPID (s.page parent) sepSlot sep = .ok (l, r, q) ∧
      l.Valid ∧ r.Valid ∧ q.Valid ∧ 0 < sepSlot ∧ sepSlot < (s.page p).count ∧
      l.count < (s.page p).count) ∨
    ∃ v, F (BTreeNode.unfitFault v) ∧
      (s.page p).splitNode p newPID (s.page parent) sepSlot sep = .error (BTreeNode.unfitFault v)
  | _ => True

/-- The program runs alone as thread `t` and ends with `Q` or with one of the faults. -/
def Runs (t : τ) (c : Choice) (P : Sys τ → Op → Prop) (F : Fault → Prop) {α : Type} (p : Prog α)
    (s : Sys τ) (Q : α → Sys τ → Prop) : Prop :=
  Program.Total (S := signature) exec t c P (Good F) (Stops F) Q p s

/-- Why a node is not split. -/
inductive SeparatorFault (n : BTreeNode) (splitOrdered : Bool) : Fault → Prop where
  | count (h : n.count ≤ 1) : SeparatorFault n splitOrdered (.assertion .separatorCount)
  | slot {info : BTreeNode.SeparatorInfo} (h : n.findSeparator splitOrdered = .ok info)
      (hslot : info.slot = 0) : SeparatorFault n splitOrdered (.assertion .sepSlotPositive)

/-- What is assumed of the operations, and with which faults a run may end. -/
structure Assumed (env : Env) (P : Sys τ → Op → Prop) (F : Fault → Prop) : Prop where
  version : ∀ s p v, P s (.storeUnlocked p v) → version (s.word p) + 1 < 2 ^ 56
  outOfPages : ∀ s, P s .nextPid → env.virtCount ≤ s.allocCount → F .outOfPages
  separator : ∀ s p, P s (.splitOrdered p) → (s.page p).Valid →
    ∀ f, SeparatorFault (s.page p) s.splitOrdered f → F f
  unfit : ∀ s p newPID parent sepSlot sep, P s (.splitNode p newPID parent sepSlot sep) →
    pageSize < ((s.page p).leftView sepSlot sep).size →
    F (BTreeNode.unfitFault ((s.page p).leftView sepSlot sep))

/-- Thread `t` is alone and holds the pages `X` exclusively. -/
structure Solo (env : Env) (t : τ) (X : List PID) (s : Sys τ) : Prop where
  crashed : s.crashed = none
  held : ∀ p ∈ X, p < s.allocCount ∧ getState (s.word p) = Locked
  free : ∀ p, p < s.allocCount → p ∉ X → getState (s.word p) = Unlocked
  fresh : ∀ p, s.allocCount ≤ p → getState (s.word p) = Evicted ∧ s.resident p = false
  alone : ∀ p, ∀ u ∈ s.xHolders p, u = t
  alloc : 0 < s.allocCount ∧ s.allocCount ≤ env.virtCount

/-- Thread `t` is alone, and no page outside of `X` is locked, marked or evicted. -/
structure Calm (env : Env) (t : τ) (X : List PID) (s : Sys τ) : Prop where
  crashed : s.crashed = none
  free : ∀ p, p < s.allocCount → p ∉ X → getState (s.word p) ≤ MaxShared
  alone : ∀ p, ∀ u ∈ s.xHolders p, u = t
  alloc : 0 < s.allocCount ∧ s.allocCount ≤ env.virtCount

omit [DecidableEq τ] in
lemma Solo.calm {env : Env} {t : τ} {X : List PID} {s : Sys τ} (h : Solo env t X s) :
    Calm env t X s :=
  ⟨h.crashed, fun p hp hX => (h.free p hp hX).le.trans (Nat.zero_le _), h.alone, h.alloc⟩

section Operations

variable {t : τ} {c : Choice} {P : Sys τ → Op → Prop} {F : Fault → Prop} {α β : Type}
  {s : Sys τ}

lemma Runs.bind {p : Prog α} {f : α → Prog β} {Q : α → Sys τ → Prop} {R : β → Sys τ → Prop}
    (h : Runs t c P F p s Q) (hf : ∀ a s', Q a s' → Runs t c P F (f a) s' R) :
    Runs t c P F (p >>= f) s R :=
  Program.Total.bind (Program.Total.mono hf h)

lemma Runs.mono {p : Prog α} {Q R : α → Sys τ → Prop} (h : Runs t c P F p s Q)
    (hQ : ∀ a s', Q a s' → R a s') : Runs t c P F p s R :=
  Program.Total.mono hQ h

lemma Runs.pure {a : α} {Q : α → Sys τ → Prop} (h : Q a s) :
    Runs t c P F (Pure.pure a : Prog α) s Q := h

lemma Runs.onThrow {p : Prog α} {cleanup : Prog Unit} {Q : α → Sys τ → Prop}
    (h : Runs t c P F p s Q) : Runs t c P F (p.onThrow cleanup) s Q :=
  Program.Total.onThrow h

lemma exec_perform (hs : s.crashed = none) (o : Op) : exec t c o s = Sys.perform t c o s :=
  if_pos hs

/-- One operation. -/
lemma Runs.op (o : Op) {r : o.Res} {s' : Sys τ} (hs : s.crashed = none)
    (hexec : Sys.perform t c o s = some (r, s')) (hg : P s o → Good F s o) {Q : o.Res → Sys τ → Prop}
    (hQ : P s o → Q r s') : Runs t c P F (Program.op (S := signature) o) s Q :=
  Program.Total.step_some ((exec_perform hs o).trans hexec) hg hQ

/-- A crash ends the run. -/
lemma Runs.crash {f : Fault} (hs : s.crashed = none) (hf : F f) {Q : α → Sys τ → Prop} :
    Runs t c P F (MemSafeDB.crash f : Prog α) s Q := by
  have hcrash : exec t c (Op.crash f) s = some ((), s.crash f) := exec_perform hs _
  have hhalt : exec t c Op.halt (s.crash f) = none := by simp [exec, Sys.crash]
  refine Program.Total.step_some hcrash (fun _ => trivial) (fun _ => ?_)
  exact Program.Total.step_none hhalt (fun _ => trivial) (fun _ => ⟨f, hf, rfl⟩)

lemma Runs.load (site : LoadSite) (p : PID) (hs : s.crashed = none) :
    Runs t c P F (MemSafeDB.load site p) s (fun v s' => v = s.word p ∧ s = s') :=
  Runs.op (.load site p) hs rfl (fun _ => trivial) (fun _ => ⟨rfl, rfl⟩)

lemma Runs.view (p : PID) (hs : s.crashed = none) :
    Runs t c P F (MemSafeDB.view p) s (fun n s' => n = s.page p ∧ s = s') :=
  Runs.op (.view p) hs rfl (fun _ => trivial) (fun _ => ⟨rfl, rfl⟩)

lemma Runs.assert (a : Assertion) {p : Prop} [Decidable p] (hp : p) :
    Runs t c P F (MemSafeDB.assert a p) s (fun _ s' => s = s') := by
  unfold MemSafeDB.assert
  rw [if_pos hp]
  exact Runs.pure rfl

end Operations

/-- The tree and the allocation are the same. -/
structure Kept (s s' : Sys τ) : Prop where
  tree : s'.tree = s.tree
  allocCount : s'.allocCount = s.allocCount
  splitOrdered : s'.splitOrdered = s.splitOrdered

omit [DecidableEq τ] in
lemma Kept.refl (s : Sys τ) : Kept s s := ⟨rfl, rfl, rfl⟩

omit [DecidableEq τ] in
lemma Kept.trans {s s' s'' : Sys τ} (h : Kept s s') (h' : Kept s' s'') : Kept s s'' :=
  ⟨h'.tree.trans h.tree, h'.allocCount.trans h.allocCount, h'.splitOrdered.trans h.splitOrdered⟩

/-! ## Optimistic guards -/

namespace Calm

variable {env : Env} {t : τ} {c : Choice} {P : Sys τ → Op → Prop} {F : Fault → Prop}
  {X : List PID} {s : Sys τ} {p : PID} {fuel : Nat}

omit [DecidableEq τ] in
lemma readable (h : Calm env t X s) (p : PID) : s.Readable t p := h.alone p

lemma runs_init (h : Calm env t X s) (hp : p < s.allocCount) (hX : p ∉ X) (hf : 0 < fuel) :
    Runs t c P F (GuardO.init p fuel) s (fun v s' => v = s.word p ∧ s = s') := by
  obtain ⟨n, rfl⟩ : ∃ n, fuel = n + 1 := ⟨fuel - 1, by omega⟩
  have hfree := h.free p hp hX
  refine (Runs.load .init p h.crashed).bind ?_
  rintro v _ ⟨rfl, rfl⟩
  rw [if_neg (lt_of_le_of_lt hfree (by decide)).ne, if_neg (lt_of_le_of_lt hfree (by decide)).ne,
    if_neg (lt_of_le_of_lt hfree (by decide)).ne]
  exact Runs.pure ⟨rfl, rfl⟩

lemma runs_check (h : Calm env t X s) {g : GuardO} (hg : g.version = s.word g.pid) (u : Bool) :
    Runs t c P F (g.checkVersionAndRestart u) s (fun _ s' => s = s') := by
  refine (Runs.load _ g.pid h.crashed).bind ?_
  rintro v _ ⟨rfl, rfl⟩
  rw [if_pos hg]
  exact Runs.pure rfl

lemma runs_ofPid (h : Calm env t X s) (hp : p < s.allocCount) (hX : p ∉ X) (hf : 0 < env.fuel) :
    Runs t c P F (GuardO.ofPid env p) s (fun g s' => g = ⟨p, s.word p⟩ ∧ s = s') := by
  refine (h.runs_init hp hX hf).bind ?_
  rintro v _ ⟨rfl, rfl⟩
  exact Runs.pure ⟨rfl, rfl⟩

lemma runs_ofParent (h : Calm env t X s) (hp : p < s.allocCount) (hX : p ∉ X) (hf : 0 < env.fuel)
    {g : GuardO} (hg : g.version = s.word g.pid) :
    Runs t c P F (GuardO.ofParent env p g) s (fun g' s' => g' = ⟨p, s.word p⟩ ∧ s = s') := by
  have hvalid : ¬env.virtCount ≤ p := not_le.mpr (lt_of_lt_of_le hp h.alloc.2)
  unfold GuardO.ofParent
  rw [if_neg hvalid]
  refine (h.runs_check hg false).bind ?_
  rintro _ _ rfl
  exact h.runs_ofPid hp hX hf

end Calm

/-! ## Latches -/

namespace Solo

variable {env : Env} {t : τ} {c : Choice} {P : Sys τ → Op → Prop} {F : Fault → Prop}
  {X : List PID} {s : Sys τ} {p : PID} {fuel : Nat}

lemma lock (h : Solo env t X s) (hp : p < s.allocCount) :
    Solo env t (p :: X) (s.cas t .lockX p (sameVersion (s.word p) Locked)) where
  crashed := h.crashed
  held := by
    intro q hq
    change q < s.allocCount ∧ getState (Function.update s.word p _ q) = Locked
    by_cases hqp : q = p
    · subst hqp
      rw [Function.update_self, getState_sameVersion _ (by decide)]
      exact ⟨hp, rfl⟩
    · rw [Function.update_of_ne hqp]
      exact h.held q ((List.mem_cons.mp hq).resolve_left hqp)
  free := by
    intro q hq hX
    change getState (Function.update s.word p _ q) = Unlocked
    rw [List.mem_cons, not_or] at hX
    rw [Function.update_of_ne hX.1]
    exact h.free q hq hX.2
  fresh := by
    intro q hq
    change getState (Function.update s.word p _ q) = Evicted ∧ _
    rw [Function.update_of_ne (by rintro rfl; exact absurd hp (not_lt.mpr hq))]
    exact h.fresh q hq
  alone := by
    intro q u hu
    change u ∈ Function.update s.xHolders p (t :: s.xHolders p) q at hu
    by_cases hqp : q = p
    · subst hqp
      rw [Function.update_self, List.mem_cons] at hu
      rcases hu with hu | hu
      · exact hu
      · exact h.alone _ u hu
    · rw [Function.update_of_ne hqp] at hu
      exact h.alone q u hu
  alloc := h.alloc

lemma unlock (h : Solo env t (p :: X) s) (hX : p ∉ X) (hv : version (s.word p) + 1 < 2 ^ 56) :
    Solo env t X (s.storeUnlocked t p (nextVersion (s.word p) Unlocked)) where
  crashed := h.crashed
  held := by
    intro q hq
    change q < s.allocCount ∧ getState (Function.update s.word p _ q) = Locked
    rw [Function.update_of_ne (by rintro rfl; exact hX hq)]
    exact h.held q (List.mem_cons_of_mem _ hq)
  free := by
    intro q hq hqX
    change getState (Function.update s.word p _ q) = Unlocked
    by_cases hqp : q = p
    · subst hqp
      rw [Function.update_self, nextVersion_eq hv (by decide), getState_pack hv]
    · rw [Function.update_of_ne hqp]
      exact h.free q hq (by simp [hqp, hqX])
  fresh := by
    intro q hq
    change getState (Function.update s.word p _ q) = Evicted ∧ _
    have hp := (h.held p (List.mem_cons_self ..)).1
    rw [Function.update_of_ne (by rintro rfl; exact absurd hp (not_lt.mpr hq))]
    exact h.fresh q hq
  alone := by
    intro q u hu
    change u ∈ Function.update s.xHolders p ((s.xHolders p).erase t) q at hu
    by_cases hqp : q = p
    · subst hqp
      rw [Function.update_self] at hu
      exact h.alone _ u (List.mem_of_mem_erase hu)
    · rw [Function.update_of_ne hqp] at hu
      exact h.alone q u hu
  alloc := h.alloc

omit [DecidableEq τ] in
/-- Changes that leave the latches alone. -/
lemma congr (h : Solo env t X s) {s' : Sys τ} (hw : s'.word = s.word)
    (hx : s'.xHolders = s.xHolders) (ha : s'.allocCount = s.allocCount)
    (hr : s'.resident = s.resident) (hc : s'.crashed = none) : Solo env t X s' where
  crashed := hc
  held := by rw [hw, ha]; exact h.held
  free := by rw [hw, ha]; exact h.free
  fresh := by rw [hw, ha, hr]; exact h.fresh
  alone := by rw [hx]; exact h.alone
  alloc := by rw [ha]; exact h.alloc

omit [DecidableEq τ] in
lemma setPage (h : Solo env t X s) (p : PID) (n : BTreeNode) : Solo env t X (s.setPage p n) :=
  h.congr rfl rfl rfl rfl h.crashed

omit [DecidableEq τ] in
lemma setLevel (h : Solo env t X s) (p : PID) (l : Option Nat) : Solo env t X (s.setLevel p l) :=
  h.congr rfl rfl rfl rfl h.crashed

omit [DecidableEq τ] in
lemma record (h : Solo env t X s) (e : Event τ) : Solo env t X (s.record e) :=
  h.congr rfl rfl rfl rfl h.crashed

lemma change (h : Solo env t X s) : Solo env t X (s.change t) :=
  h.congr rfl rfl rfl rfl h.crashed

/-- A thread that is alone takes a free latch at the first attempt. -/
lemma runs_tryLockX (h : Solo env t X s) :
    Runs t c P F (tryLockX p (s.word p)) s (fun ok s' => ok = true ∧
      s' = s.cas t .lockX p (sameVersion (s.word p) Locked)) := by
  refine Runs.op (.cas .lockX p (s.word p) _) h.crashed ?_ (fun _ => trivial)
    (fun _ => ⟨rfl, rfl⟩)
  simp [Sys.perform]

lemma runs_unfixX (hA : Assumed env P F) (h : Solo env t (p :: X) s) (hX : p ∉ X) :
    Runs t c P F (BufferManager.unfixX p) s (fun _ s' => Solo env t X s' ∧ Kept s s') := by
  have hlocked := (h.held p (List.mem_cons_self ..)).2
  refine (Runs.load .other p h.crashed).bind ?_
  rintro v _ ⟨rfl, rfl⟩
  refine (Runs.assert _ hlocked).bind ?_
  rintro _ _ rfl
  refine (Runs.load .other p h.crashed).bind ?_
  rintro v _ ⟨rfl, rfl⟩
  refine Runs.op (.storeUnlocked p _) h.crashed rfl (fun _ => trivial) (fun hP => ?_)
  exact ⟨h.unlock hX (hA.version _ _ _ hP), rfl, rfl, rfl⟩

lemma runs_upgrade (h : Solo env t X s) {g : GuardO} (hp : g.pid < s.allocCount)
    (hX : g.pid ∉ X) (hf : 0 < env.fuel) (hg : g.version = s.word g.pid) :
    Runs t c P F (GuardX.ofGuardO env g) s (fun p s' => p = g.pid ∧ Solo env t (g.pid :: X) s' ∧
      Kept s s' ∧ ∀ q, q ≠ g.pid → s'.word q = s.word q) := by
  obtain ⟨n, hn⟩ : ∃ n, env.fuel = n + 1 := ⟨env.fuel - 1, by omega⟩
  have hfree := h.free g.pid hp hX
  unfold GuardX.ofGuardO
  rw [hn]
  refine (Runs.load .other g.pid h.crashed).bind ?_
  rintro v _ ⟨rfl, rfl⟩
  rw [if_pos (versionEq_iff.mpr (by rw [hg])), if_pos (Or.inl hfree)]
  refine h.runs_tryLockX.bind ?_
  rintro ok _ ⟨rfl, rfl⟩
  exact Runs.pure ⟨rfl, h.lock hp, ⟨rfl, rfl, rfl⟩, fun q hq => Function.update_of_ne hq _ _⟩

lemma runs_fixX (h : Solo env t X s) (hp : p < s.allocCount) (hX : p ∉ X) (hf : 0 < env.fuel) :
    Runs t c P F (BufferManager.fixX env p) s (fun q s' => p = q ∧ Solo env t (p :: X) s' ∧
      Kept s s') := by
  obtain ⟨n, hn⟩ : ∃ n, env.fuel = n + 1 := ⟨env.fuel - 1, by omega⟩
  have hfree := h.free p hp hX
  unfold BufferManager.fixX
  rw [hn]
  refine (Runs.load .other p h.crashed).bind ?_
  rintro v _ ⟨rfl, rfl⟩
  rw [if_neg (by rw [hfree]; decide), if_pos (Or.inr hfree)]
  refine h.runs_tryLockX.bind ?_
  rintro ok _ ⟨rfl, rfl⟩
  exact Runs.pure ⟨rfl, h.lock hp, rfl, rfl, rfl⟩

end Solo

end MemSafeDB
