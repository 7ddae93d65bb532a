import MemSafeDB.Concurrent.Threads
import MemSafeDB.Spec.Atomic

/-!
# What a run shows

From the state that `init` leaves, threads make calls in any interleaving. Between any two
operations the tree is in order and holds the contents of the atomic map that the run shows, and
what scans report is right.
-/

namespace MemSafeDB
open Lib PageState

variable {τ : Type} [DecidableEq τ] {steady : Prop} {env : Env} {calls : τ → List Call}
  {cfg cfg' : Config signature OLCRestart (Sys τ) τ}

lemma Cooperating.inv {past : List (Act τ)} (h : Cooperating steady past cfg) :
    Point.Inv ⟨past, cfg.shared⟩ := Allied.inv h

/-- A run that goes on is in order. -/
lemma Launched.inv (h : Launched env calls cfg) (hreach : Reaches steady cfg cfg')
    (hrun : cfg'.shared.crashed = none) : ∃ past, Point.Inv ⟨past, cfg'.shared⟩ := by
  rcases h.reaches hreach with ⟨f, -, hf⟩ | ⟨past, hcooperating⟩
  · rw [hrun] at hf
    cases hf
  · exact ⟨past, hcooperating.inv⟩

/-! ## Two threads -/

def fewPages : Env := { smallEnv with fuel := 16 }

def twoThreads (env : Env) (calls : Bool → List Call) :
    Config signature OLCRestart (Sys Bool) Bool :=
  ⟨Sys.planted true, fun t => thread env (calls t)⟩

lemma twoThreads_launched (calls : Bool → List Call) {s : Sys Bool}
    (h : (BTree.init env).eval (S := signature) exec true ⟨0, false⟩ Sys.start = .done () s) :
    Launched env calls (twoThreads env calls) := by
  refine ⟨⟨true, ⟨0, false⟩, ?_⟩, fun _ => rfl⟩
  rw [h, eval_init h]
  rfl

def twoThreadsPlay (steady : Prop) [Decidable steady] (env : Env) (calls : Bool → List Call)
    (ns : List Nat) : Option (Config signature OLCRestart (Sys Bool) Bool) :=
  playWithin exec (fun t s => s.Assumed steady t) (inTurns ns) (twoThreads env calls)

lemma twoThreads_reaches [Decidable steady] {calls : Bool → List Call} {ns : List Nat} {α : Type}
    {f : Config signature OLCRestart (Sys Bool) Bool → α} {a : α}
    (h : (twoThreadsPlay steady env calls ns).map f = some a) :
    ∃ cfg, Reaches steady (twoThreads env calls) cfg ∧ f cfg = a := by
  obtain ⟨cfg, hplay, hf⟩ := Option.map_eq_some_iff.mp h
  exact ⟨cfg, reach_of_playWithin hplay, hf⟩

/-- What a run of two threads has come to. -/
def outcome (cfg : Config signature OLCRestart (Sys Bool) Bool) : Option Fault × Nat :=
  (cfg.shared.crashed, cfg.shared.trace.length)

def insertAndLookup : Bool → List Call
  | true => [.insert [byte 1] [byte 2]]
  | false => [.lookup [byte 1] 8]

def insertAndScan : Bool → List Call
  | true => [.insert [byte 1] [byte 2], .insert [byte 2] [byte 3], .remove [byte 1]]
  | false => [.scanAsc [] (fun _ => true), .scanDesc [byte 2] (fun _ _ => true)]

/-- Seven entries of which a leaf holds four, and a scan down through two leaves. -/
def insertAndScanDown : Bool → List Call
  | true => [1, 2, 3, 4, 5, 6, 7].map (fun k => .insert [byte k] (List.replicate 900 zeroByte))
  | false => [.scanDesc [byte 9] (fun _ _ => true)]

/-! ## The results -/

/-- A run ends with a failed assertion or with no page left, never with a fault of a memory access. -/
theorem Launched.run_expected (h : Launched env calls cfg) (hreach : Reaches steady cfg cfg') {f : Fault}
    (hf : cfg'.shared.crashed = some f) : Expected f := by
  rcases h.reaches hreach with ⟨g, hg, hcrashed⟩ | ⟨past, hcooperating⟩
  · rw [hf] at hcrashed
    obtain rfl := Option.some.inj hcrashed
    exact hg
  · have hrun : cfg'.shared.crashed = none := hcooperating.inv.crashed
    rw [hf] at hrun
    cases hrun

/-- Too few pages for a second split. -/
def fourPages : Env := { Process.trialEnv with fuel := 16 }

theorem run_expected_fourPages : ∃ cfg, Reaches False (twoThreads fourPages insertAndScanDown) cfg ∧
    cfg.shared.level cfg.shared.root = some 1 ∧ cfg.shared.crashed = some .outOfPages ∧
      Expected .outOfPages := by
  have hplay : (twoThreadsPlay False fourPages insertAndScanDown [225]).map (fun cfg =>
      (cfg.shared.level cfg.shared.root, cfg.shared.crashed)) = some (some 1, some .outOfPages) := by
    decide +kernel
  obtain ⟨cfg, hreach, hend⟩ := twoThreads_reaches hplay
  obtain ⟨hlevel, hcrashed⟩ := Prod.mk.inj hend
  exact ⟨cfg, hreach, hlevel, hcrashed,
    Launched.run_expected (twoThreads_launched insertAndScanDown rfl) hreach hcrashed⟩

/-- Between any two operations of any threads the tree is in order, and its pages are valid. -/
theorem Launched.run_structured (h : Launched env calls cfg) (hreach : Reaches steady cfg cfg')
    (hrun : cfg'.shared.crashed = none) : cfg'.shared.tree.Structured ∧
      ∀ p, cfg'.shared.tree.Reachable p → (cfg'.shared.page p).Valid := by
  obtain ⟨past, hi⟩ := h.inv hreach hrun
  refine ⟨hi.tree.structured, fun p hp => ?_⟩
  obtain ⟨l, hl⟩ := (hi.tree.reachable_iff p).mp hp
  exact hi.tree.valid p l hl

theorem run_structured_insertAndScanDown : ∃ cfg,
    Reaches False (twoThreads fewPages insertAndScanDown) cfg ∧ cfg.shared.trace.length = 20 ∧
      cfg.shared.tree.Structured ∧
        ∀ p, cfg.shared.tree.Reachable p → (cfg.shared.page p).Valid := by
  have hplay : (twoThreadsPlay False fewPages insertAndScanDown [190, 29]).map outcome =
      some (none, 20) := by decide +kernel
  obtain ⟨cfg, hreach, houtcome⟩ := twoThreads_reaches hplay
  exact ⟨cfg, hreach, (Prod.mk.inj houtcome).2, Launched.run_structured
    (twoThreads_launched insertAndScanDown rfl) hreach (Prod.mk.inj houtcome).1⟩

/-! ## Runs that have come to an end -/

/-- A thread that has made its calls is free. -/
lemma Cooperating.free {past : List (Act τ)} (h : Cooperating steady past cfg) {t : τ}
    (hdone : cfg.prog t = .ret ()) : Point.Free t ⟨past, cfg.shared⟩ := by
  have hserves := Allied.serves h t
  dsimp only at hserves
  rw [hdone] at hserves
  exact hserves _ h.inv (Alliance.Rely.refl _)

/-- Nobody holds a latch, and the words say so. -/
def Sys.Unlatched (s : Sys τ) : Prop :=
  ∀ p, s.xHolders p = [] ∧ s.sHolders p = [] ∧ Lockable (s.word p)

omit [DecidableEq τ] in
lemma Sys.Held.lockable {s : Sys τ} {p : PID} (h : s.Held p) (hx : s.xHolders p = [])
    (hs : s.sHolders p = []) : Lockable (s.word p) := by
  cases h with
  | locked t _ hx' _ => rw [hx] at hx'; cases hx'
  | shared hstate _ _ => exact Or.inl (hstate.trans (List.length_eq_zero_iff.mpr hs))
  | marked hstate _ _ => exact Or.inr (Or.inl hstate)
  | evicted hstate _ _ => exact Or.inr (Or.inr hstate)

/-- When all threads have made their calls, no latch is left, and the tree holds what the calls
leave, one after the other. -/
theorem Launched.finished (h : Launched env calls cfg) (hreach : Reaches steady cfg cfg')
    (hrun : cfg'.shared.crashed = none) (hdone : ∀ t, cfg'.prog t = .ret ()) :
    cfg'.shared.Unlatched ∧ ∃ m, mapObject.Shows (Object.visible (events cfg'.shared.trace)) ⟨m, fun _ => .idle⟩ ∧
      Represents cfg'.shared m := by
  rcases h.reaches hreach with ⟨f, -, hf⟩ | ⟨past, hcooperating⟩
  · rw [hrun] at hf
    cases hf
  have hi := hcooperating.inv
  refine ⟨fun p => ?_, _, hi.honest.shows_idle (fun t => (hcooperating.free (hdone t)).resting),
    hi.contents⟩
  have hx : cfg'.shared.xHolders p = [] := by
    refine List.eq_nil_iff_forall_not_mem.mpr (fun t ht => ?_)
    exact List.not_mem_nil ((hcooperating.free (hdone t)).owns.mem_xHolders.mp ht)
  have hs : cfg'.shared.sHolders p = [] := by
    refine List.eq_nil_iff_forall_not_mem.mpr (fun t ht => ?_)
    exact List.not_mem_nil ((hcooperating.free (hdone t)).owns.mem_sHolders.mp ht)
  exact ⟨hx, hs, (hi.held p).lockable hx hs⟩

def hasReturned : Prog Unit → Bool
  | .ret _ => true
  | _ => false

lemma eq_ret {x : Prog Unit} (h : hasReturned x = true) : x = .ret () := by
  unfold hasReturned at h
  split at h
  · rfl
  · cases h

theorem finished_insertAndLookup : ∃ cfg m,
    Reaches False (twoThreads fewPages insertAndLookup) cfg ∧ cfg.shared.trace.length = 5 ∧
      cfg.shared.Unlatched ∧ mapObject.Shows (Object.visible (events cfg.shared.trace)) ⟨m, fun _ => .idle⟩ ∧
      Represents cfg.shared m := by
  have hplay : (twoThreadsPlay False fewPages insertAndLookup [12, 6, 7, 30]).map (fun cfg =>
      (outcome cfg, hasReturned (cfg.prog true), hasReturned (cfg.prog false))) =
        some ((none, 5), true, true) := by decide +kernel
  obtain ⟨cfg, hreach, hend⟩ := twoThreads_reaches hplay
  obtain ⟨houtcome, hreturned⟩ := Prod.mk.inj hend
  have hdone : ∀ t, cfg.prog t = .ret () := by
    intro t
    cases t
    · exact eq_ret (Prod.mk.inj hreturned).2
    · exact eq_ret (Prod.mk.inj hreturned).1
  obtain ⟨hunlatched, m, hm⟩ := Launched.finished (twoThreads_launched insertAndLookup rfl) hreach
    (Prod.mk.inj houtcome).1 hdone
  exact ⟨cfg, m, hreach, (Prod.mk.inj houtcome).2, hunlatched, hm⟩

/-! ## Scans -/

omit [DecidableEq τ] in
lemma Honest.of_append {trace es : List (Event τ)} (h : Honest (trace ++ es)) : Honest trace := by
  induction es using List.reverseRecOn with
  | nil => rwa [List.append_nil] at h
  | append_singleton es e ih =>
    rw [← List.append_assoc] at h
    exact ih (Honest.concat_iff.mp h).1

omit [DecidableEq τ] in
/-- The answer of a call without an effect that has returned. -/
lemma Honest.returned {pre mid post : List (Event τ)} {t : τ} {c : Call} {a : Answer}
    (h : Honest (pre ++ .call t c :: mid ++ .ret t a :: post)) (hmid : Silent t mid) :
    Returned t a c (pre ++ .call t c :: mid) := by
  rw [List.append_cons _ (Event.ret t a)] at h
  obtain ⟨c', hreturned⟩ := (Honest.concat_iff.mp h.of_append).2
  have heq := hreturned.call_eq hmid
  subst heq
  exact hreturned

/-- Every ascending scan that has returned reports entries in order, each of which was stored at some
moment of the scan. It skips no key that was stored all the time, and reports all of them if the
callback never stops it. -/
def ReportsAscending (trace : List (Event τ)) : Prop :=
  ∀ pre mid post t key fn a,
    trace = pre ++ .call t (.scanAsc key fn) :: mid ++ .ret t a :: post → Silent t mid →
    ∃ es, a = .scan es ∧ ScannedAsc key fn (pre ++ [.call t (.scanAsc key fn)]) mid es

/-- Every descending scan that has returned reports entries in order, in the same sense. When it
tells the callback that there is no exact match, it begins with an entry behind the key. -/
def ReportsDescending (trace : List (Event τ)) : Prop :=
  ∀ pre mid post t key fn a,
    trace = pre ++ .call t (.scanDesc key fn) :: mid ++ .ret t a :: post → Silent t mid →
    ∃ es exactMatch bound, a = .scan es ∧
      ScannedDesc key fn (pre ++ [.call t (.scanDesc key fn)]) mid exactMatch bound es

end MemSafeDB
