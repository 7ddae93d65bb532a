import MemSafeDB.Concurrent.Descending
import MemSafeDB.System.Trees

/-!
# Threads among other threads

`init` leaves an empty tree. From there on every operation of every thread is legal, whatever the
order in which the threads take turns.
-/

namespace MemSafeDB
open Lib PageState BufferManager

variable {τ : Type} [DecidableEq τ]

/-! ## The state after `init` -/

namespace Sys

/-- The state when thread `t` has latched an evicted page. -/
def taken (s : Sys τ) (t : τ) (p : PID) : Sys τ :=
  (s.cas t .lockX p (sameVersion (s.word p) Locked)).residentInsert p

/-- The state in which `init` of thread `t` leaves the tree. -/
def planted (t : τ) : Sys τ :=
  let s : Sys τ := { Sys.start.taken t metadataPageId with allocCount := 2 }
  let s : Sys τ := (((s.taken t 1).setPage 1 (BTreeNode.new true)).change t).setRoot t 1
  let s : Sys τ := s.storeUnlocked t 1 (nextVersion (s.word 1) Unlocked)
  s.storeUnlocked t metadataPageId (nextVersion (s.word metadataPageId) Unlocked)

/-- The word of a page that has been unlocked once. -/
def unlockedOnce : Word := nextVersion (sameVersion (sameVersion 0 Evicted) Locked) Unlocked

/-- The pages that `init` gives out. -/
def Founded (p : PID) : Prop := p = metadataPageId ∨ p = 1

instance (p : PID) : Decidable (Founded p) := inferInstanceAs (Decidable (_ ∨ _))

omit [DecidableEq τ] in
lemma start_word (p : PID) : (start : Sys τ).word p = sameVersion 0 Evicted := rfl

/-- Apart from the words, two pages are resident, and one of them is the root. -/
lemma planted_eq (t : τ) : planted t = { (start : Sys τ) with
    word := fun p => if Founded p then unlockedOnce else sameVersion 0 Evicted
    unlocks := fun p => if Founded p then 1 else 0
    allocCount := 2
    resident := fun p => decide (Founded p)
    root := 1
    level := Function.update (fun _ => none) 1 (some 0)
    changes := Function.update (fun _ => 0) t 2 } := by
  have hne : (1 : PID) ≠ metadataPageId := by decide
  simp only [planted, storeUnlocked, setRoot, change, setLevel, setPage, taken, residentInsert, cas,
    start, Bool.false_eq_true, if_false, ne_eq, hne, not_false_eq_true, Function.update_of_ne,
    Function.update_eq_self, zero_add, rootLevel, Option.map_none, Function.update_self,
    Nat.reduceAdd, Function.update_idem, List.erase_cons_head, hne.symm, mk.injEq, and_self,
    and_true, true_and]
  refine ⟨funext fun p => ?_, funext fun p => ?_, funext fun p => ?_, funext fun p => ?_, rfl⟩ <;>
  · by_cases hp : p = metadataPageId
    · simp [hp, Founded, unlockedOnce, hne.symm]
    · by_cases hp' : p = 1 <;> simp [hp, hp', Founded, unlockedOnce, hne]

end Sys

section Init
variable {t : τ} {c : Choice} {s s' : Sys τ} {p q : PID} {α β : Type}

/-- What the first operation of a program does that returns. -/
lemma eval_op_bind {o : Op} {f : o.Res → Prog β} {b : β}
    (h : (Program.op (S := signature) o >>= f).eval (S := signature) exec t c s = .done b s') :
    ∃ r s1, Sys.perform t c o s = some (r, s1) ∧ (f r).eval (S := signature) exec t c s1 = .done b s' := by
  obtain ⟨r, s1, hop, h⟩ := Program.eval_bind_done exec t c h
  exact ⟨r, s1, (perform_of_exec (Program.eval_op_done exec t c hop)).2, h⟩

lemma eval_fixX {env : Env} (hevicted : getState (s.word p) = Evicted)
    (h : (fixX env p).eval (S := signature) exec t c s = .done q s') : q = p ∧ s' = s.taken t p := by
  unfold fixX at h
  generalize env.fuel = fuel at h
  cases fuel with
  | zero =>
    have hhalt : exec t c Op.halt s = none := by simp [exec, Sys.perform]
    cases (Program.eval_blocked exec t c hhalt).symm.trans h
  | succ n =>
    obtain ⟨v, s1, hload, h⟩ := eval_op_bind h
    obtain ⟨rfl, rfl⟩ := Prod.mk.inj (Option.some.inj hload)
    rw [if_pos hevicted] at h
    obtain ⟨ok, s2, hcas, h⟩ := eval_op_bind h
    simp only [Sys.perform] at hcas
    rw [if_pos ⟨trivial, by simp⟩] at hcas
    obtain ⟨rfl, rfl⟩ := Prod.mk.inj (Option.some.inj hcas)
    obtain ⟨_, s3, hinsert, h⟩ := eval_op_bind h
    obtain ⟨-, rfl⟩ := Prod.mk.inj (Option.some.inj hinsert)
    cases h
    exact ⟨rfl, rfl⟩

lemma eval_allocPage {env : Env}
    (h : (allocPage env).eval (S := signature) exec t c s = .done q s') :
    q = s.allocCount ∧ s' = Sys.taken { s with allocCount := s.allocCount + 1 } t s.allocCount := by
  obtain ⟨pid, s1, hnext, h⟩ := eval_op_bind h
  obtain ⟨rfl, rfl⟩ := Prod.mk.inj (Option.some.inj hnext)
  by_cases hfull : env.virtCount ≤ s.allocCount
  · rw [if_pos hfull] at h
    exact (crash_not_done h).elim
  rw [if_neg hfull] at h
  obtain ⟨v, s2, hload, h⟩ := eval_op_bind h
  obtain ⟨rfl, rfl⟩ := Prod.mk.inj (Option.some.inj hload)
  obtain ⟨ok, s3, hcas, h⟩ := eval_op_bind h
  simp only [Sys.perform] at hcas
  rw [if_pos ⟨trivial, by simp⟩] at hcas
  obtain ⟨rfl, rfl⟩ := Prod.mk.inj (Option.some.inj hcas)
  obtain ⟨_, s4, hinsert, h⟩ := eval_op_bind h
  obtain ⟨-, rfl⟩ := Prod.mk.inj (Option.some.inj hinsert)
  cases h
  exact ⟨rfl, rfl⟩

lemma eval_unfixX {u : Unit} (h : (unfixX p).eval (S := signature) exec t c s = .done u s') :
    s' = s.storeUnlocked t p (nextVersion (s.word p) Unlocked) := by
  obtain ⟨v, s1, hload, h⟩ := eval_op_bind h
  obtain ⟨rfl, rfl⟩ := Prod.mk.inj (Option.some.inj hload)
  by_cases hlocked : getState (s.word p) = Locked
  swap
  · rw [assert, if_neg hlocked] at h
    obtain ⟨_, s2, hcrash, -⟩ := Program.eval_bind_done exec t c h
    exact (crash_not_done hcrash).elim
  rw [assert, if_pos hlocked] at h
  obtain ⟨w, s3, hload, h⟩ := eval_op_bind h
  obtain ⟨rfl, rfl⟩ := Prod.mk.inj (Option.some.inj hload)
  obtain ⟨-, hstore⟩ := perform_of_exec (Program.eval_op_done exec t c h)
  exact (Prod.mk.inj (Option.some.inj hstore)).2.symm

lemma eval_init {env : Env} {u : Unit}
    (h : (BTree.init env).eval (S := signature) exec t c Sys.start = .done u s) :
    s = Sys.planted t := by
  obtain ⟨page, s1, hfix, h⟩ := Program.eval_bind_done exec t c h
  have hevicted : getState ((Sys.start : Sys τ).word metadataPageId) = Evicted := by
    rw [Sys.start_word]
    decide
  obtain ⟨rfl, rfl⟩ := eval_fixX hevicted hfix
  obtain ⟨root, s2, halloc, h⟩ := Program.eval_bind_done exec t c h
  obtain ⟨pid, s3, hpage, hguard⟩ := Program.eval_bind_done exec t c halloc
  obtain ⟨rfl, rfl⟩ := eval_allocPage hpage
  obtain ⟨_, s4, hconstruct, hpid⟩ := eval_op_bind hguard
  obtain ⟨-, rfl⟩ := Prod.mk.inj (Option.some.inj hconstruct)
  cases hpid
  obtain ⟨_, s5, hset, h⟩ := eval_op_bind h
  obtain ⟨-, rfl⟩ := Prod.mk.inj (Option.some.inj hset)
  obtain ⟨_, s6, hunfix, hunfix'⟩ := Program.eval_bind_done exec t c h
  obtain rfl := eval_unfixX hunfix
  exact eval_unfixX hunfix'
end Init

/-! ## The invariant after `init` -/

/-- Thread `t` has drawn a page id and latched the page. -/
def foundedPast (t : τ) : List (Act τ) := [⟨t, .cas .lockX 1 0 0, true⟩, ⟨t, .nextPid, (1 : PID)⟩]

omit [DecidableEq τ] in
lemma drew_foundedPast {t u : τ} {p : PID} : Drew (foundedPast t) u p ↔ u = t ∧ p = 1 := by
  constructor
  · intro h
    rcases List.mem_cons.mp h with heq | h
    · cases heq
    · cases List.mem_singleton.mp h
      exact ⟨rfl, rfl⟩
  · rintro ⟨rfl, rfl⟩
    exact List.mem_cons_of_mem _ List.mem_cons_self

omit [DecidableEq τ] in
lemma latched_foundedPast {t u : τ} {p : PID} (h : Latched (foundedPast t) u p) : p = 1 := by
  obtain ⟨old, new, h⟩ := h
  rcases List.mem_cons.mp h with heq | h
  · cases heq
    rfl
  · cases List.mem_singleton.mp h

namespace Sys

variable {t : τ} {p : PID}

lemma planted_word : (planted t).word p = if Founded p then unlockedOnce else sameVersion 0 Evicted := by
  rw [planted_eq]

lemma planted_unlocks : (planted t).unlocks p = if Founded p then 1 else 0 := by rw [planted_eq]

lemma planted_held : (planted t).Held p := by
  have hx : (planted t).xHolders p = [] := by rw [planted_eq]; rfl
  have hs : (planted t).sHolders p = [] := by rw [planted_eq]; rfl
  by_cases hp : Founded p
  · refine .shared ?_ ?_ hx
    · rw [planted_word, if_pos hp, hs]
      exact show getState unlockedOnce = 0 by decide
    · rw [hs]
      exact Nat.zero_le _
  · refine .evicted ?_ hx hs
    rw [planted_word, if_neg hp]
    decide

lemma planted_version : version ((planted t).word p) = (planted t).unlocks p := by
  rw [planted_word, planted_unlocks]
  split
  · decide
  · decide

lemma planted_evicted (h : getState ((planted t).word p) = Evicted) : ¬Founded p := by
  intro hp
  rw [planted_word, if_pos hp] at h
  revert h
  decide

end Sys

lemma protocol_planted (t : τ) : Protocol (foundedPast t)
    (fun u => Local.fresh ((Sys.planted t).changes u)) (Sys.planted t) where
  alloc := by
    rw [Sys.planted_eq]
    exact Nat.zero_lt_two
  tracks := by
    intro u
    rw [Sys.planted_eq]
    exact ⟨fun _ => rfl, fun _ => rfl, rfl, rfl, rfl, List.Forall₂.nil⟩
  page := by
    intro p
    refine ⟨fun _ => Sys.planted_held, fun _ => Sys.planted_version, fun h => ?_, fun hp h => ?_,
      fun _ _ h => ?_, fun _ h => ?_, fun _ h => ?_, fun _ a ha => ?_⟩
    · have hp := Sys.planted_evicted h
      rw [Sys.planted_unlocks, if_neg hp, Sys.planted_eq]
      exact ⟨decide_eq_false hp, rfl⟩
    · have hfounded : ¬Sys.Founded p := by
        rintro (hzero | rfl)
        · exact hp hzero
        · exact h ⟨t, drew_foundedPast.mpr ⟨rfl, rfl⟩, 0, 0, List.mem_cons_self⟩
      rw [Sys.planted_word, if_neg hfounded]
      decide
    · cases h
    · cases h
    · cases h
    · intro hinserts
      rcases List.mem_cons.mp ha with rfl | ha
      · cases hinserts
      · rw [List.mem_singleton.mp ha] at hinserts
        cases hinserts
  drew := by
    intro u p h
    obtain ⟨rfl, rfl⟩ := drew_foundedPast.mp h
    refine ⟨by decide, ?_, fun v hv => (drew_foundedPast.mp hv).1⟩
    rw [Sys.planted_eq]
    exact Nat.one_lt_two
  latched := by
    intro u p h
    exact Or.inr ⟨t, drew_foundedPast.mpr ⟨rfl, latched_foundedPast h⟩⟩

namespace Point

variable {t : τ} {c : Call} {m : Point τ} {steady : Prop} {env : Env} {E : Point τ → Prop}

/-! ## Calls -/

/-- The thread is between two calls. -/
structure Free (t : τ) (m : Point τ) : Prop where
  owns : Owns t [] [] m
  resting : Resting t m.now.trace

instance : Lasts t (Free t) :=
  ⟨fun m m' hi ha hs h => ⟨Lasts.lasts m m' hi ha hs h.owns,
    Lasts.lasts (A := fun m => Resting t m.now.trace) m m' hi ha hs h.resting⟩⟩

namespace Serves

lemma setSplitOrdered {b : Bool} (h : Begun t (.setSplitOrdered b) m) :
    Serves steady t (Program.op (S := signature) (.setSplitOrdered b)) m
      (fun _ => Done t (.setSplitOrdered b) .unit) E :=
  quiet (A := Begun t (.setSplitOrdered b)) (fun _ => trivial) h
    (fun _ _ hA _ => ⟨trivial, fun _ _ _ _ => ⟨hA.owns, hA.pending.ready trivial rfl⟩⟩)

/-- A call ends with an answer that it may return. -/
lemma run (hi : Inv m) (h : Begun t c m) :
    Serves steady t (c.run env) m (fun a => Done t c a) E := by
  cases c with
  | lookup key size => exact bind hi (lookup hi h) (fun _ _ _ h => pure h)
  | insert key payload => exact bind hi (insert hi h) (fun _ _ _ h => pure h)
  | remove key => exact bind hi (remove hi h) (fun _ _ _ h => pure h)
  | updateInPlace key fn => exact bind hi (updateInPlace hi h) (fun _ _ _ h => pure h)
  | scanAsc key fn => exact bind hi (scanAsc hi h) (fun _ _ _ h => pure h)
  | scanDesc key fn => exact bind hi (scanDesc hi h) (fun _ _ _ h => pure h)
  | setSplitOrdered b => exact bind hi (setSplitOrdered h) (fun _ _ _ h => pure h)

lemma begin_call (h : Free t m) :
    Serves steady t (Program.op (S := signature) (.call c)) m (fun _ => Begun t c) E := by
  refine act (A := Free t) id h (fun m _ h _ => ⟨h.resting, fun _ _ m' hperform _ hm => ?_⟩)
  obtain ⟨-, hnow⟩ := Prod.mk.inj (Option.some.inj hperform)
  refine ⟨h.owns.acted hm, m.now.trace, [], ?_, silent_nil t⟩
  rw [← hnow]
  rfl

lemma end_call {a : Answer} (h : Done t c a m) :
    Serves steady t (Program.op (S := signature) (.ret a)) m (fun _ => Free t) E := by
  refine act (A := Done t c a) id h (fun m _ h _ => ⟨⟨c, h.returned⟩, fun _ _ m' hperform _ hm => ?_⟩)
  obtain ⟨-, hnow⟩ := Prod.mk.inj (Option.some.inj hperform)
  refine ⟨h.owns.acted hm, Or.inr ⟨m.now.trace, a, [], ?_, silent_nil t⟩⟩
  rw [← hnow]
  rfl

lemma perform (hi : Inv m) (h : Free t m) :
    Serves steady t (c.perform env) m (fun _ => Free t) E := by
  refine bind hi (begin_call h) (fun _ m hi h => ?_)
  refine bind hi (run hi h) (fun a m hi h => ?_)
  exact bind hi (end_call h) (fun _ _ _ h => pure h)

lemma session (calls : List Call) (hi : Inv m) (h : Free t m) :
    Serves steady t (MemSafeDB.session env calls) m (fun _ => Free t) E := by
  induction calls generalizing m with
  | nil => exact pure h
  | cons c calls ih =>
    refine bind hi (perform hi h) (fun a m hi h => ?_)
    exact bind hi (ih hi h) (fun _ _ _ h => pure h)

/-- Every operation of a thread is legal. -/
theorem thread (calls : List Call) (hi : Inv m) (h : Free t m) :
    Serves steady t (MemSafeDB.thread env calls) m (fun _ => Free t) E :=
  bind hi (session calls hi h) (fun _ _ _ h => pure h)

end Serves

/-! ## Runs -/

/-- The invariant holds when `init` has returned. -/
lemma inv_planted (t : τ) : Inv ⟨foundedPast t, Sys.planted t⟩ := by
  have hlevel : ∀ p l, (Sys.planted t).tree.level p = some l ↔
      p = (Sys.planted t).tree.root ∧ l = 0 := by
    intro p l
    rw [Sys.planted_eq]
    by_cases hp : p = 1
    · subst hp
      simp [Sys.tree, eq_comm]
    · simp [Sys.tree, hp]
  have hroot : (Sys.planted t).root = 1 := by rw [Sys.planted_eq]
  have htree : (Sys.planted t).tree.Inv := by
    refine Tree.inv_single ?_ hlevel ?_
    · change 0 < (Sys.planted t).root ∧ (Sys.planted t).root < noNeighbour
      rw [hroot]
      decide
    · rw [Sys.planted_eq]
      rfl
  have hgiven : ∀ p, Sys.Founded p → Given p ⟨foundedPast t, Sys.planted t⟩ :=
    fun p hp hevicted => Sys.planted_evicted hevicted hp
  refine ⟨by rw [Sys.planted_eq]; rfl, fun p => ?_, ⟨_, protocol_planted t⟩, htree, fun p l hp => ?_,
    hgiven _ (Or.inl rfl), fun k v => ?_, ?_⟩
  · change (Sys.planted t).unlocks p < 2 ^ 56
    rw [Sys.planted_unlocks]
    split <;> decide
  · exact hgiven p (Or.inr (((hlevel p l).mp hp).1.trans hroot))
  · have htrace : (Sys.planted t).trace = [] := by rw [Sys.planted_eq]; rfl
    change _ ↔ contentsOf (Sys.planted t).trace k = some v
    rw [htrace]
    refine iff_of_false ?_ (fun h => by cases h)
    rintro ⟨p, -, hmem⟩
    rw [Sys.planted_eq] at hmem
    cases hmem
  · change Honest (Sys.planted t).trace
    rw [Sys.planted_eq]
    exact Honest.nil

lemma free_planted (t u : τ) : Free u ⟨foundedPast t, Sys.planted t⟩ := by
  refine ⟨⟨fun p => ?_, fun p => ?_⟩, Or.inl ?_⟩
  · rw [Sys.planted_eq]
    rfl
  · rw [Sys.planted_eq]
    rfl
  · change Silent u (Sys.planted t).trace
    rw [Sys.planted_eq]
    exact silent_nil u

end Point

/-- The configurations that the threads reach, under the assumptions on their operations. -/
def Reaches (steady : Prop) : Config signature OLCRestart (Sys τ) τ →
    Config signature OLCRestart (Sys τ) τ → Prop :=
  ReachWithin exec (fun t s => s.Assumed steady t)

/-- The threads do as the others rely on, after what has been done. -/
def Cooperating (steady : Prop) (past : List (Act τ)) (cfg : Config signature OLCRestart (Sys τ) τ) :
    Prop :=
  Allied (recording exec) (Point.alliance steady) Point.Watched (fun t _ => Point.Free t)
    ⟨⟨past, cfg.shared⟩, cfg.prog⟩

section Launched

variable {steady : Prop} {env : Env} {calls : τ → List Call}
  {cfg cfg' : Config signature OLCRestart (Sys τ) τ}

lemma Launched.cooperating (h : Launched env calls cfg) : ∃ past, Cooperating steady past cfg := by
  obtain ⟨t, c, hinit⟩ := h.init
  have hshared := eval_init hinit
  refine ⟨foundedPast t, ?_, ⟨fun u => Local.fresh ((Sys.planted t).changes u), ?_, fun u => ?_⟩,
    fun u => ?_⟩
  · rw [hshared]
    exact Point.inv_planted t
  · dsimp only
    rw [hshared]
    exact protocol_planted t
  · dsimp only
    rw [h.prog]
    have hthread : Does (thread env (calls u)) (Local.fresh ((Sys.planted t).changes u)).core
        (fun _ => Core.Idle) (fun _ => False) :=
      does_thread (calls u) ⟨rfl, rfl⟩
    exact (hthread _ rfl).mono (fun _ _ _ => trivial) (fun _ _ _ => trivial)
  · dsimp only
    rw [h.prog, hshared]
    exact (Point.Serves.thread (E := fun _ => False) (calls u) (Point.inv_planted t)
      (Point.free_planted t u))

/-- In every interleaving the threads cooperate, until an assertion fails or no page is left. -/
theorem Launched.reaches (h : Launched env calls cfg) (hreach : Reaches steady cfg cfg') :
    (∃ f, Expected f ∧ cfg'.shared.crashed = some f) ∨ ∃ past, Cooperating steady past cfg' := by
  obtain ⟨past, hcooperating⟩ := h.cooperating
  obtain ⟨past', hreach⟩ := hreach.record past
  have hover : ∀ (m : Point τ) t c o, Point.Over m → recording exec t c o m = none := by
    rintro m t c o ⟨f, -, hf⟩
    rw [recording, exec, if_neg (by rw [hf]; exact Option.some_ne_none f)]
    rfl
  refine (Allied.reach (Point.sound steady) hover hcooperating hreach).imp id (fun h => ⟨past', h⟩)

end Launched

end MemSafeDB
