import MemSafeDB.System.Protocol

/-!
# What a latch word tells

The state of a latch word is that of the latch, and a check that succeeds finds that nobody has
held the page exclusively since the version was recorded. Both rest on `allocPage` being the first
to latch a page: its compare-exchange takes any state for granted, and replaces `Locked` by
`Locked` when another thread has the page.
-/

namespace MemSafeDB
open Lib PageState BufferManager

variable {τ : Type} [DecidableEq τ]

/-! ## The word -/

/-- The state of the word tells who holds the page. -/
structure Sys.WordTells (s : Sys τ) (p : PID) : Prop where
  locked_iff : getState (s.word p) = Locked ↔ ∃ t, s.xHolders p = [t]
  exclusive : getState (s.word p) = Locked → s.sHolders p = []
  free : getState (s.word p) ≠ Locked → s.xHolders p = []
  shared : getState (s.word p) ≠ Locked →
    (getState (s.word p) = (s.sHolders p).length ∧ (s.sHolders p).length ≤ MaxShared) ∨
      ((getState (s.word p) = Evicted ∨ getState (s.word p) = Marked) ∧ s.sHolders p = [])

omit [DecidableEq τ] in
lemma Sys.Held.tells {s : Sys τ} {p : PID} (h : s.Held p) : s.WordTells p := by
  by_cases hlocked : getState (s.word p) = Locked
  · cases h with
    | locked t hstate hx hs =>
      exact ⟨⟨fun _ => ⟨t, hx⟩, fun _ => hstate⟩, fun _ => hs, absurd hlocked, absurd hlocked⟩
    | shared hstate hle _ =>
      rw [← hstate, hlocked] at hle
      exact absurd hle (by decide)
    | marked hstate _ _ =>
      rw [hlocked] at hstate
      exact absurd hstate (by decide)
    | evicted hstate _ _ =>
      rw [hlocked] at hstate
      exact absurd hstate (by decide)
  · have hx := h.free hlocked
    have hnone : ¬∃ t, s.xHolders p = [t] := by
      rintro ⟨t, ht⟩
      rw [hx] at ht
      cases ht
    refine ⟨iff_of_false hlocked hnone, fun h => absurd h hlocked, fun _ => hx, fun _ => ?_⟩
    cases h with
    | locked _ hstate _ _ => exact absurd hstate hlocked
    | shared hstate hle _ => exact Or.inl ⟨hstate, hle⟩
    | marked hstate _ hs => exact Or.inr ⟨Or.inr hstate, hs⟩
    | evicted hstate _ hs => exact Or.inr ⟨Or.inl hstate, hs⟩

/-! ## Optimistic checks -/

/-- `GuardO::init` has recorded version `g` of the page with this action. -/
def Records : Act τ → PID → Word → Prop
  | ⟨_, .load .init q, v⟩, p, g => q = p ∧ g = v ∧ getState v ≠ Marked ∧ getState v ≠ Locked ∧
      getState v ≠ Evicted
  | ⟨_, .cas .unmark q _ new, ok⟩, p, g => q = p ∧ (ok : Bool) = true ∧ g = new
  | _, _, _ => False

/-- `checkVersionAndRestart` of a guard with version `g` of the page returns after this action. -/
def Accepts : Act τ → PID → Word → Prop
  | ⟨_, .load (.check g') q, w⟩, p, g => q = p ∧ g' = g ∧
      (g = w ∨ (versionEq w g = true ∧ getState w ≤ MaxShared))
  | ⟨_, .cas .unmark q old _, ok⟩, p, g => q = p ∧ (ok : Bool) = true ∧ versionEq old g = true
  | _, _, _ => False

/-- Keeps the last action of a program. -/
def latest : Monitor signature (Option (Act Unit)) where
  legal := fun _ _ => True
  answer := fun _ _ _ => True
  next := fun _ o r => some ⟨(), o, r⟩

/-- Taking in an evicted page ends in no exception. -/
lemma faultIn_latest (p : PID) (v : Word) (m : Option (Act Unit)) :
    (faultIn p v).Obeys latest (fun _ _ => True) (fun _ _ => False) m := by
  refine ⟨trivial, fun ok _ => ?_⟩
  cases ok with
  | false => trivial
  | true =>
    refine ⟨trivial, fun _ _ => ⟨trivial, fun w _ => ?_⟩⟩
    change Program.Obeys latest _ _ (Program.bind (assert .locked (getState w = Locked)) _) _
    unfold assert
    split
    · exact ⟨trivial, fun _ _ => ⟨trivial, fun _ _ => trivial⟩⟩
    · exact ⟨trivial, fun _ _ => ⟨trivial, fun r => r.elim⟩⟩

/-- The last action of `GuardO::init` records the version that it returns. -/
lemma init_records (p : PID) (fuel : Nat) (m : Option (Act Unit)) :
    (GuardO.init p fuel).Obeys latest (fun v m' => ∃ a, m' = some a ∧ Records a p v)
      (fun _ _ => False) m := by
  induction fuel generalizing m with
  | zero => exact ⟨trivial, fun r => r.elim⟩
  | succ fuel ih =>
    have hagain : ∀ m, Program.Obeys latest (fun v m' => ∃ a, m' = some a ∧ Records a p v)
        (fun _ _ => False) (do yield (some (p, .optimistic)); GuardO.init p fuel) m :=
      fun m => ⟨trivial, fun _ _ => ih _⟩
    refine Program.Obeys.bind (Q := fun v m' => m' = some (⟨(), .load .init p, v⟩ : Act Unit))
      ⟨trivial, fun _ _ => rfl⟩ ?_
    rintro v _ rfl
    split
    · refine ⟨trivial, fun ok _ => ?_⟩
      cases ok with
      | false => exact hagain _
      | true => exact ⟨_, rfl, rfl, rfl, rfl⟩
    · split
      · exact hagain _
      · split
        · exact Program.Obeys.bind (faultIn_latest p v _) (fun _ _ _ => hagain _)
        · rename_i hmarked hlocked hevicted
          exact ⟨_, rfl, rfl, rfl, hmarked, hlocked, hevicted⟩

/-- When the check returns, its last action accepts the version. -/
lemma check_accepts (g : GuardO) (m : Option (Act Unit)) :
    (g.checkVersionAndRestart false).Obeys latest
      (fun _ m' => ∃ a, m' = some a ∧ Accepts a g.pid g.version) (fun _ _ => True) m := by
  refine Program.Obeys.bind (Q := fun w m' =>
    m' = some (⟨(), .load (.check g.version) g.pid, w⟩ : Act Unit)) ⟨trivial, fun _ _ => rfl⟩ ?_
  rintro w _ rfl
  split
  · rename_i heq
    exact ⟨_, rfl, rfl, rfl, Or.inl heq⟩
  · split
    · rename_i hversion
      split
      · rename_i hle
        exact ⟨_, rfl, rfl, rfl, Or.inr ⟨hversion, hle⟩⟩
      · split
        · refine ⟨trivial, fun ok _ => ?_⟩
          cases ok with
          | false => trivial
          | true => exact ⟨_, rfl, rfl, rfl, hversion⟩
        · trivial
    · trivial

/-! ## Between two actions -/

/-- Unlocks are counted, and a page that is held exclusively stays so until it is unlocked. -/
lemma unlocks_perform {t : τ} {c : Choice} {o : Op} {s : Sys τ} {rs : o.Res × Sys τ}
    (h : Sys.perform t c o s = some rs) (p : PID) : s.unlocks p < rs.2.unlocks p ∨
      (s.unlocks p = rs.2.unlocks p ∧ (s.xHolders p).length ≤ (rs.2.xHolders p).length) := by
  by_cases ho : o.Latching
  · cases o with
    | cas site q old new =>
      simp only [Sys.perform] at h
      split at h
      · obtain rfl := Option.some.inj h
        refine Or.inr ⟨rfl, ?_⟩
        by_cases hp : p = q
        · subst hp
          cases site with
          | lockX =>
            change _ ≤ (Function.update s.xHolders p (t :: s.xHolders p) p).length
            rw [Function.update_self]
            exact Nat.le_succ _
          | _ => exact le_rfl
        · rw [(s.cas_other t site new hp).2.1]
      · obtain rfl := Option.some.inj h
        exact Or.inr ⟨rfl, le_rfl⟩
    | storeUnlocked q v =>
      obtain rfl := Option.some.inj h
      by_cases hp : p = q
      · subst hp
        refine Or.inl ?_
        change s.unlocks p < Function.update s.unlocks p (s.unlocks p + 1) p
        rw [Function.update_self]
        exact Nat.lt_succ_self _
      · refine Or.inr ⟨(Function.update_of_ne hp _ _).symm, ?_⟩
        change _ ≤ (Function.update s.xHolders q ((s.xHolders q).erase t) p).length
        rw [Function.update_of_ne hp]
    | nextPid =>
      obtain rfl := Option.some.inj h
      exact Or.inr ⟨rfl, le_rfl⟩
    | residentInsert q =>
      obtain rfl := Option.some.inj h
      change _ ∨ (s.unlocks p = (s.residentInsert q).unlocks p ∧
        _ ≤ ((s.residentInsert q).xHolders p).length)
      unfold Sys.residentInsert
      split <;> exact Or.inr ⟨rfl, le_rfl⟩
    | _ => exact ho.elim
  · have hs := sameLatches_perform ho h
    rw [hs.unlocks, hs.xHolders]
    exact Or.inr ⟨rfl, le_rfl⟩

variable {allowed : List (Act τ) → Act τ → Prop}

lemma unlocks_leads {x y : History signature OLCRestart (Sys τ) τ}
    (h : History.Leads exec allowed x y) (p : PID) :
    x.cfg.shared.unlocks p < y.cfg.shared.unlocks p ∨
      (x.cfg.shared.unlocks p = y.cfg.shared.unlocks p ∧
        (x.cfg.shared.xHolders p).length ≤ (y.cfg.shared.xHolders p).length) := by
  refine h.invariant (P := fun y => x.cfg.shared.unlocks p < y.cfg.shared.unlocks p ∨
    (x.cfg.shared.unlocks p = y.cfg.shared.unlocks p ∧
      (x.cfg.shared.xHolders p).length ≤ (y.cfg.shared.xHolders p).length))
    (Or.inr ⟨rfl, le_rfl⟩) ?_
  rintro a b ha ⟨hprog, hexec, -⟩
  have hperform := unlocks_perform (perform_of_exec hexec).2 p
  dsimp only at hperform ⊢
  omega

lemma crashed_leads {x y : History signature OLCRestart (Sys τ) τ}
    (h : History.Leads exec allowed x y) (hrun : y.cfg.shared.crashed = none) :
    x.cfg.shared.crashed = none := by
  by_contra hcrashed
  have hsame : y = x := by
    refine h.invariant (P := fun y => y = x) rfl ?_
    rintro a b rfl ⟨-, hexec, -⟩
    exact absurd (perform_of_exec hexec).1 hcrashed
  rw [hsame] at hrun
  exact hcrashed hrun

/-! ## The protocol -/

/-- Threads that release exactly what they have acquired, before they have done anything. -/
structure Disciplined (cfg : Config signature OLCRestart (Sys τ) τ) : Prop where
  shared : cfg.shared = Sys.start
  obeys : ∀ t, (cfg.prog t).Obeys discipline (fun _ _ => True) (fun _ _ => True) (Local.fresh 0)

variable {cfg : Config signature OLCRestart (Sys τ) τ} {x y : History signature OLCRestart (Sys τ) τ}
  {a : Act τ} {p : PID} {g : Word}

lemma Disciplined.monitored (h : Disciplined cfg)
    (hleads : History.Leads exec Timely (History.start cfg) x) :
    History.Monitored discipline Keeping x := by
  refine History.Monitored.leads reflects_keeping ⟨fun _ => Local.fresh 0, ?_, h.obeys⟩ hleads
  intro _
  change Protocol [] _ cfg.shared
  rw [h.shared]
  exact protocol_start

lemma Disciplined.held (h : Disciplined cfg)
    (hleads : History.Leads exec Timely (History.start cfg) x) (hrun : x.cfg.shared.crashed = none)
    (hlt : x.cfg.shared.unlocks p < 2 ^ 56) :
    x.cfg.shared.Held p ∧ PageState.version (x.cfg.shared.word p) = x.cfg.shared.unlocks p := by
  obtain ⟨ms, hms, -⟩ := h.monitored hleads
  have hp := (hms hrun).page p
  exact ⟨hp.held hlt, hp.version hlt⟩

/-- The version that is recorded is that of the word, which is not locked. -/
lemma Disciplined.records (h : Disciplined cfg)
    (hleads : History.Leads exec Timely (History.start cfg) x) (hstep : History.Step exec Timely x y)
    (hpast : y.past = a :: x.past) (hrecords : Records a p g) :
    PageState.version (x.cfg.shared.word p) = PageState.version g ∧ getState g ≠ Locked := by
  obtain ⟨hprog, hexec, -⟩ := hstep
  rename_i t c o k r s'
  obtain ⟨rfl, -⟩ := List.cons.inj hpast
  obtain ⟨hcrashed, hperform⟩ := perform_of_exec hexec
  obtain ⟨ms, -, hlegal⟩ := (h.monitored hleads).legal hprog
  cases o with
  | load site q =>
    cases site with
    | init =>
      obtain ⟨rfl, rfl, -, hlocked, -⟩ := hrecords
      obtain ⟨rfl, -⟩ := Prod.mk.inj (Option.some.inj hperform)
      exact ⟨rfl, hlocked⟩
    | _ => exact hrecords.elim
  | cas site q old new =>
    cases site with
    | unmark =>
      obtain ⟨rfl, hok, rfl⟩ := hrecords
      simp only [Sys.perform] at hperform
      split at hperform
      · rename_i hold
        obtain ⟨-, rfl⟩ := hlegal
        rw [hold.1, version_sameVersion _ (by decide), getState_sameVersion _ (by decide)]
        exact ⟨rfl, by decide⟩
      · obtain ⟨hfalse, -⟩ := Prod.mk.inj (Option.some.inj hperform)
        rw [← hfalse] at hok
        cases hok
    | _ => exact hrecords.elim
  | _ => exact hrecords.elim

/-- A version that is accepted is that of the word, which is not locked. -/
lemma Disciplined.accepts (h : Disciplined cfg)
    (hleads : History.Leads exec Timely (History.start cfg) x) (hstep : History.Step exec Timely x y)
    (hpast : y.past = a :: x.past) (haccepts : Accepts a p g) (hg : getState g ≠ Locked) :
    PageState.version (x.cfg.shared.word p) = PageState.version g ∧
      getState (x.cfg.shared.word p) ≠ Locked := by
  obtain ⟨hprog, hexec, -⟩ := hstep
  rename_i t c o k r s'
  obtain ⟨rfl, -⟩ := List.cons.inj hpast
  obtain ⟨hcrashed, hperform⟩ := perform_of_exec hexec
  obtain ⟨ms, -, hlegal⟩ := (h.monitored hleads).legal hprog
  cases o with
  | load site q =>
    cases site with
    | check g' =>
      obtain ⟨rfl, rfl, hw⟩ := haccepts
      obtain ⟨rfl, -⟩ := Prod.mk.inj (Option.some.inj hperform)
      rcases hw with rfl | ⟨hversion, hle⟩
      · exact ⟨rfl, hg⟩
      · exact ⟨versionEq_iff.mp hversion, (Nat.lt_succ_of_le hle).ne⟩
    | _ => exact haccepts.elim
  | cas site q old new =>
    cases site with
    | unmark =>
      obtain ⟨rfl, hok, hversion⟩ := haccepts
      simp only [Sys.perform] at hperform
      split at hperform
      · rename_i hold
        rw [hold.1, hlegal.1]
        exact ⟨versionEq_iff.mp hversion, by decide⟩
      · obtain ⟨hfalse, -⟩ := Prod.mk.inj (Option.some.inj hperform)
        rw [← hfalse] at hok
        cases hok
    | _ => exact haccepts.elim
  | _ => exact haccepts.elim

/-- The words tell who holds the pages. When a version that was recorded is accepted later, nobody
has held the page exclusively at any moment between the two. -/
structure FollowsProtocol (start x : History signature OLCRestart (Sys τ) τ) : Prop where
  words : ∀ p, x.cfg.shared.WordTells p
  validated : ∀ {x₁ y₁ x₂ x₃ y₃ : History signature OLCRestart (Sys τ) τ} {a b : Act τ} {p : PID}
    {g : Word}, History.Leads exec Timely start x₁ → History.Step exec Timely x₁ y₁ →
    y₁.past = a :: x₁.past → Records a p g → History.Leads exec Timely y₁ x₂ →
    History.Leads exec Timely x₂ x₃ → History.Step exec Timely x₃ y₃ → y₃.past = b :: x₃.past →
    Accepts b p g → History.Leads exec Timely y₃ x → x₂.cfg.shared.xHolders p = []

/-- The latch protocol, for threads that latch pages only after `allocPage` has done so. -/
theorem Disciplined.followsProtocol (h : Disciplined cfg)
    (hleads : History.Leads exec Timely (History.start cfg) x) (hrun : x.cfg.shared.crashed = none)
    (hunlocks : ∀ p, x.cfg.shared.unlocks p < 2 ^ 56) : FollowsProtocol (History.start cfg) x where
  words := fun p => (h.held hleads hrun (hunlocks p)).1.tells
  validated := by
    intro x₁ y₁ x₂ x₃ y₃ a b p g h₁ hstep₁ hpast₁ hrecords h₂ h₃ hstep₃ hpast₃ haccepts hend
    have h₁₂ : History.Leads exec Timely x₁ x₂ := (History.Leads.single hstep₁).trans h₂
    have h₃' : History.Leads exec Timely x₃ x := (History.Leads.single hstep₃).trans hend
    have hbound := hunlocks p
    have hlast := unlocks_leads h₃' p
    have hmiddle := unlocks_leads h₃ p
    have hfirst := unlocks_leads h₁₂ p
    obtain ⟨hg, hstate⟩ := h.records h₁ hstep₁ hpast₁ hrecords
    obtain ⟨hg', hfree⟩ := h.accepts ((h₁.trans h₁₂).trans h₃) hstep₃ hpast₃ haccepts hstate
    obtain ⟨-, hversion₁⟩ := h.held h₁ (crashed_leads ((h₁₂.trans h₃).trans h₃') hrun)
      (p := p) (by omega)
    obtain ⟨hheld, hversion₃⟩ := h.held ((h₁.trans h₁₂).trans h₃) (crashed_leads h₃' hrun)
      (p := p) (by omega)
    -- the number of unlocks is the same all the time
    have hnone := hheld.free hfree
    rw [hnone, List.length_nil] at hmiddle
    rw [← List.length_eq_zero_iff]
    omega

/-! ## Two runs -/

/-- One thread makes the tree before it calls it; the other threads call it at any time. -/
def callers (env : Env) (creator : τ) (calls : τ → List Call) :
    Config signature OLCRestart (Sys τ) τ where
  shared := Sys.start
  prog t :=
    if t = creator then do
      BTree.init env
      thread env (calls t)
    else
      thread env (calls t)

lemma callers_disciplined (env : Env) (creator : τ) (calls : τ → List Call) :
    Disciplined (callers env creator calls) where
  shared := rfl
  obeys := by
    intro t
    have hthread : ∀ c : Core, c.Idle →
        Does (thread env (calls t)) c (fun _ _ => True) (fun _ => False) :=
      fun c hc => (does_thread (calls t) hc).mono (fun _ _ _ => trivial) (fun _ h => h)
    have hcalls : Does ((callers env creator calls).prog t) (Local.fresh 0).core (fun _ _ => True)
        (fun _ => False) := by
      unfold callers
      dsimp only
      split
      · refine BTree.does_init.bind ?_
        rintro _ _ ⟨n, rfl⟩
        exact hthread _ ⟨rfl, rfl⟩
      · exact hthread _ ⟨rfl, rfl⟩
    exact (hcalls _ rfl).mono (fun _ _ _ => trivial) (fun _ _ _ => trivial)

/-- One thread makes the tree, and the other one looks something up. -/
def initAndLookup : Config signature OLCRestart (Sys Bool) Bool :=
  callers twoPages true (fun t => if t then [] else [.lookup [] 0])

/-- The creator has the metadata page and the new leaf. -/
lemma initAndLookup_leads : ∃ x, History.Leads exec Timely (History.start initAndLookup) x ∧
    x.cfg.shared.crashed = none ∧ (∀ p, x.cfg.shared.unlocks p = 0) ∧
    x.cfg.shared.xHolders metadataPageId = [true] ∧ x.cfg.shared.xHolders 1 = [true] ∧
    Drew x.past true 1 ∧ (⟨true, .residentInsert 1, ()⟩ : Act Bool) ∈ x.past ∧
    ∀ v, (⟨true, .storeUnlocked 1 v, ()⟩ : Act Bool) ∉ x.past := by
  refine ⟨_, History.Leads.head (.mk (t := true) (c := ⟨0, false⟩) rfl rfl trivial) <|
    History.Leads.head (.mk (t := true) (c := ⟨0, false⟩) rfl rfl (fun _ => Or.inl rfl)) <|
    History.Leads.head (.mk (t := true) (c := ⟨0, false⟩) rfl rfl trivial) <|
    History.Leads.head (.mk (t := true) (c := ⟨0, false⟩) rfl rfl trivial) <|
    History.Leads.head (.mk (t := true) (c := ⟨0, false⟩) rfl rfl trivial) <|
    History.Leads.head (.mk (t := true) (c := ⟨0, false⟩) rfl rfl
      (fun _ => Or.inr (Or.inr ?_))) <|
    History.Leads.head (.mk (t := true) (c := ⟨0, false⟩) rfl rfl trivial) (History.Leads.refl _),
    rfl, fun _ => rfl, rfl, rfl, ?_, List.mem_cons_self, ?_⟩
  · exact List.mem_cons_of_mem _ List.mem_cons_self
  · exact List.mem_cons_of_mem _ (List.mem_cons_of_mem _ (List.mem_cons_of_mem _ List.mem_cons_self))
  · intro v hmem
    iterate 7
      rcases List.mem_cons.mp hmem with heq | hmem
      · cases heq
    cases hmem

theorem initAndLookup_followsProtocol : ∃ x,
    x.cfg.shared.xHolders metadataPageId = [true] ∧ x.cfg.shared.xHolders 1 = [true] ∧
      FollowsProtocol (History.start initAndLookup) x := by
  obtain ⟨x, hx, hrun, hunlocks, hmeta, hleaf, -⟩ := initAndLookup_leads
  refine ⟨x, hmeta, hleaf, (callers_disciplined _ _ _).followsProtocol hx hrun (fun p => ?_)⟩
  rw [hunlocks p]
  exact Nat.two_pow_pos 56

/-- One thread allocates a page, and the other one latches a page by its id. -/
def earlyFix : Config signature OLCRestart (Sys Bool) Bool where
  shared := Sys.start
  prog
    | true => do
      let p ← allocGuard twoPages true
      unfixX p
    | false => do
      let p ← fixX twoPages 1
      unfixX p

lemma earlyFix_disciplined : Disciplined earlyFix where
  shared := rfl
  obeys := by
    intro t
    cases t with
    | true =>
      have halloc : Does (earlyFix.prog true) (Local.fresh 0).core (fun _ _ => True)
          (fun _ => False) := by
        refine (does_allocGuard twoPages true).bind ?_
        rintro p _ ⟨-, rfl⟩
        have hmem : p ∈ ((Local.fresh 0).core.lockX p).change.x := Core.mem_lockX (Local.fresh 0).core p
        exact (does_unfixX hmem).mono (fun _ _ _ => trivial) (fun _ h => h)
      exact (halloc _ rfl).mono (fun _ _ _ => trivial) (fun _ _ _ => trivial)
    | false =>
      have hfix : Does (earlyFix.prog false) (Local.fresh 0).core (fun _ _ => True)
          (fun _ => False) := by
        refine (does_fixX twoPages 1).bind ?_
        rintro p _ ⟨rfl, rfl⟩
        exact (does_unfixX (Core.mem_lockX _ _)).mono (fun _ _ _ => trivial) (fun _ h => h)
      exact (hfix _ rfl).mono (fun _ _ _ => trivial) (fun _ _ _ => trivial)

/-- Both threads hold the page: `allocPage` has replaced `Locked` by `Locked`. -/
theorem earlyFix_locked_twice : Disciplined earlyFix ∧ ∃ x,
    History.Leads exec (fun _ _ => True) (History.start earlyFix) x ∧
      x.cfg.shared.crashed = none ∧ (∀ p, x.cfg.shared.unlocks p < 2 ^ 56) ∧
      getState (x.cfg.shared.word 1) = Locked ∧ x.cfg.shared.xHolders 1 = [true, false] ∧
      ¬x.cfg.shared.WordTells 1 := by
  have hplay : ∃ x, History.play exec [(false, ⟨0, false⟩), (false, ⟨0, false⟩), (true, ⟨0, false⟩),
      (true, ⟨0, false⟩), (true, ⟨0, false⟩)] (History.start earlyFix) = some x ∧
      x.cfg.shared.crashed = none ∧ (∀ p, x.cfg.shared.unlocks p = 0) ∧
      getState (x.cfg.shared.word 1) = Locked ∧ x.cfg.shared.xHolders 1 = [true, false] :=
    ⟨_, rfl, rfl, fun _ => rfl, rfl, rfl⟩
  obtain ⟨x, hx, hrun, hunlocks, hlocked, hholders⟩ := hplay
  refine ⟨earlyFix_disciplined, x, History.leads_of_play hx, hrun, fun p => ?_, hlocked, hholders,
    fun htells => ?_⟩
  · rw [hunlocks p]
    exact Nat.two_pow_pos 56
  · obtain ⟨t, ht⟩ := htells.locked_iff.mp hlocked
    rw [hholders] at ht
    cases ht

end MemSafeDB
