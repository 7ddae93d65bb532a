import MemSafeDB.System.LatchWords

/-!
# New pages

`allocPage` takes the latch of the new page inside of an `assert`. With assertions, a page is held
exclusively from its allocation until the thread releases it, and no other thread gets it in
between. Without them the latch is not taken at all: the page stays evicted, and the first thread
that looks at it takes it in a second time.
-/

namespace MemSafeDB
open Lib PageState

/-! ## Builds -/

/-- Whether `assert` evaluates its argument. -/
inductive Build where
  | debug
  | ndebug

/-- `assert` of an expression that does something. -/
def Build.assert (b : Build) (a : Assertion) (e : Prog Bool) : Prog Unit :=
  match b with
  | .debug => do
    let ok ← e
    MemSafeDB.assert a (ok = true)
  | .ndebug => pure ()

/-- An operation in a build. Without its assertion, `residentSet.insert` stores a page id that is
there already once more. -/
def execIn {τ : Type} [DecidableEq τ] (b : Build) : Exec signature (Sys τ) τ Choice :=
  fun t c o s => match b, o with
  | .ndebug, .residentInsert p =>
    if s.crashed = none then
      some ((), { s with resident := Function.update s.resident p true })
    else none
  | _, o => exec t c o s

lemma execIn_debug {τ : Type} [DecidableEq τ] : execIn (τ := τ) .debug = exec := rfl

lemma execIn_ndebug {τ : Type} [DecidableEq τ] {t : τ} {c : Choice} {o : Op} {s : Sys τ}
    (ho : ∀ p, o ≠ .residentInsert p) : execIn .ndebug t c o s = exec t c o s := by
  cases o with
  | residentInsert p => exact absurd rfl (ho p)
  | _ => rfl

namespace BufferManager

variable (env : Env)

/-- `allocPage` in a build. -/
def allocPageIn (b : Build) : Prog PID := do
  let pid ← nextPid
  if env.virtCount ≤ pid then
    crash .outOfPages
  else
    let v ← load .other pid
    b.assert .lockFresh (tryLockX pid v)
    residentInsert pid
    pure pid

lemma allocPageIn_debug : allocPageIn env .debug = allocPage env := by
  have hassert : ∀ (pid : PID) (v : Word), (do
      Build.debug.assert .lockFresh (tryLockX pid v)
      residentInsert pid
      pure pid) = (do
      let ok ← tryLockX pid v
      assert .lockFresh (ok = true)
      residentInsert pid
      pure pid) := fun pid v => Program.bind_assoc _ _ _
  unfold allocPageIn allocPage
  simp only [hassert]

variable {env} {τ : Type} [DecidableEq τ]

/-- The operations that leave all latches as they are. -/
def leavesLatches : Monitor signature Unit where
  legal := fun _ o => match o with
    | .cas _ _ _ _ | .storeUnlocked _ _ => False
    | _ => True
  answer := fun _ _ _ => True
  next := fun _ _ _ => ()

lemma reflects_leavesLatches (t : τ) (c : Choice) (s : Sys τ) :
    ReflectsAlone (execIn .ndebug) t c leavesLatches
      (fun _ s' => s'.word = s.word ∧ s'.xHolders = s.xHolders) := by
  rintro m s₁ o r s₂ ⟨hword, hx⟩ hlegal hexec
  refine ⟨trivial, ?_⟩
  by_cases hins : ∃ p, o = .residentInsert p
  · obtain ⟨p, rfl⟩ := hins
    simp only [execIn] at hexec
    split at hexec
    · obtain ⟨-, rfl⟩ := Prod.mk.inj (Option.some.inj hexec)
      exact ⟨hword, hx⟩
    · cases hexec
  · rw [execIn_ndebug (not_exists.mp hins)] at hexec
    obtain ⟨-, hperform⟩ := perform_of_exec hexec
    by_cases ho : o.Latching
    · cases o with
      | nextPid =>
        obtain ⟨-, rfl⟩ := Prod.mk.inj (Option.some.inj hperform)
        exact ⟨hword, hx⟩
      | residentInsert p => exact absurd ⟨p, rfl⟩ hins
      | cas site p old new => exact hlegal.elim
      | storeUnlocked p v => exact hlegal.elim
      | _ => exact ho.elim
    · have hs := sameLatches_perform ho hperform
      exact ⟨hs.word.trans hword, hs.xHolders.trans hx⟩

/-- Without assertions, `allocPage` takes no latch. -/
theorem allocPageIn_ndebug {t : τ} {c : Choice} {s s' : Sys τ} {p : PID}
    (h : (allocPageIn env .ndebug).eval (S := signature) (execIn .ndebug) t c s = .done p s') :
    s'.word = s.word ∧ s'.xHolders = s.xHolders := by
  have hobeys : (allocPageIn env .ndebug).Obeys leavesLatches (fun _ _ => True) (fun _ _ => True)
      () := by
    refine Program.Obeys.bind (Q := fun _ _ => True) ⟨trivial, fun _ _ => trivial⟩ ?_
    intro pid _ _
    split
    · exact ⟨trivial, fun _ _ => ⟨trivial, fun r => r.elim⟩⟩
    · exact ⟨trivial, fun _ _ => ⟨trivial, fun _ _ => trivial⟩⟩
  have hrun := hobeys.eval (reflects_leavesLatches t c s) ⟨rfl, rfl⟩
  rw [h] at hrun
  obtain ⟨-, -, hlatches⟩ := hrun
  exact hlatches

end BufferManager

/-! ## Owning a new page -/

variable {τ : Type}

/-- `allocPage` has returned the page to thread `t`, which has not released it since. -/
structure Owns (past : List (Act τ)) (t : τ) (p : PID) : Prop where
  drew : Drew past t p
  inserted : (⟨t, .residentInsert p, ()⟩ : Act τ) ∈ past
  kept : ∀ v, (⟨t, .storeUnlocked p v, ()⟩ : Act τ) ∉ past

lemma Owns.cons {past : List (Act τ)} {a : Act τ} {t : τ} {p : PID} (h : Owns past t p)
    (ha : ∀ v, a ≠ ⟨t, .storeUnlocked p v, ()⟩) : Owns (a :: past) t p where
  drew := List.mem_cons_of_mem _ h.drew
  inserted := List.mem_cons_of_mem _ h.inserted
  kept v hmem := (List.mem_cons.mp hmem).elim (fun heq => ha v heq.symm) (h.kept v)

/-- The action grants a guard or a latch of the page, gives it back, puts the page into the resident
set, reads it under a latch or changes it. -/
def Touches : Act τ → PID → Prop
  | ⟨_, .load .init q, v⟩, p => q = p ∧ getState v ≠ Locked
  | ⟨_, .cas _ q _ _, ok⟩, p => q = p ∧ (ok : Bool) = true
  | ⟨_, .storeUnlocked q _, _⟩, p => q = p
  | ⟨_, .residentInsert q, _⟩, p => q = p
  | ⟨_, .view q, _⟩, p => q = p
  | ⟨_, .construct q _, _⟩, p => q = p
  | ⟨_, .setUpperInnerNode q _, _⟩, p => q = p
  | ⟨_, .insertInPage q _ _, _⟩, p => q = p
  | ⟨_, .removeSlot q _, _⟩, p => q = p
  | ⟨_, .updatePayload q _ _, _⟩, p => q = p
  | ⟨_, .mergeNodes q _ parent right, _⟩, p => q = p ∨ parent = p ∨ right = p
  | ⟨_, .splitNode q newPID parent _ _, _⟩, p => q = p ∨ newPID = p ∨ parent = p
  | _, _ => False

/-- A page is touched by nobody but its owner, and it is put into the resident set once. -/
def ExclusiveUse : List (Act τ) → Prop
  | [] => True
  | a :: past => (∀ t p, Owns past t p → Touches a p → a.thread = t) ∧
      (∀ p, Inserts a p → ∀ b ∈ past, ¬Inserts b p) ∧ ExclusiveUse past

variable [DecidableEq τ]

/-- New pages are exclusively latched by their owners. -/
structure FreshPages (x : History signature OLCRestart (Sys τ) τ) : Prop where
  latched : x.cfg.shared.crashed = none → ∀ t p, Owns x.past t p →
    getState (x.cfg.shared.word p) = Locked ∧ x.cfg.shared.xHolders p = [t] ∧
      x.cfg.shared.sHolders p = []
  use : ExclusiveUse x.past

/-! ## The invariant -/

/-- A page that its allocation has latched is held until it is released. -/
structure OwnedInv (past : List (Act τ)) (s : Sys τ) : Prop where
  owned : ∀ t p, Drew past t p → Latched past t p →
    (∀ v, (⟨t, .storeUnlocked p v, ()⟩ : Act τ) ∉ past) → getState (s.word p) = Locked ∧
      s.xHolders p = [t] ∧ s.sHolders p = [] ∧ s.unlocks p = 0
  latched : ∀ t p, (⟨t, .residentInsert p, ()⟩ : Act τ) ∈ past → Latched past t p

section Step

variable {past : List (Act τ)} {ms : τ → Local} {s s' : Sys τ} {t u : τ} {p : PID} {c : Choice}
  {o : Op}

omit [DecidableEq τ] in
lemma OwnedInv.owns (h : OwnedInv past s) (howns : Owns past t p) :
    getState (s.word p) = Locked ∧ s.xHolders p = [t] ∧ s.sHolders p = [] ∧ s.unlocks p = 0 :=
  h.owned t p howns.drew (h.latched t p howns.inserted) howns.kept

/-- No compare-exchange takes or changes the latch of a page that is held exclusively. -/
lemma Protocol.not_fits (h : Protocol past ms s) (hlocked : getState (s.word p) = Locked)
    {site : CasSite} {old new : Word} (hold : s.word p = old) :
    ¬site.Fits (ms t) p old new := by
  intro hfits
  rw [hold] at hlocked
  cases site with
  | lockX =>
    have hlockable := h.lockable hfits hold
    rw [hold] at hlockable
    exact hlockable.ne_locked hlocked
  | lockS =>
    rcases hfits with ⟨hlt, -⟩ | ⟨hmarked, -⟩
    · rw [hlocked] at hlt
      exact absurd hlt (by decide)
    · rw [hlocked] at hmarked
      exact absurd hmarked (by decide)
  | unlockS =>
    obtain ⟨-, ⟨-, hle⟩, -⟩ := hfits
    rw [hlocked] at hle
    exact absurd hle (by decide)
  | unmark =>
    obtain ⟨hmarked, -⟩ := hfits
    rw [hlocked] at hmarked
    exact absurd hmarked (by decide)

lemma Sys.perform_cas_true {site : CasSite} {old new : Word}
    (h : Sys.perform t c (.cas site p old new) s = some (true, s')) :
    s.word p = old ∧ s' = s.cas t site p new := by
  simp only [perform] at h
  split at h
  · rename_i hold
    exact ⟨hold.1, (Prod.mk.inj (Option.some.inj h)).2.symm⟩
  · cases (Prod.mk.inj (Option.some.inj h)).1

/-- Only the owner touches a page. -/
lemma OwnedInv.touches (h : OwnedInv past s) (hp : Protocol past ms s) (howns : Owns past t p)
    (hlegal : (ms u).Legal o) {r : o.Res} (hexec : Sys.perform u c o s = some (r, s'))
    (htouches : Touches ⟨u, o, r⟩ p) : u = t := by
  obtain ⟨hlocked, hx, hs, hzero⟩ := h.owns howns
  have hmem : p ∈ (ms u).core.x → u = t := by
    intro hmem
    have hu := hp.mem_xHolders hmem
    rwa [hx, List.mem_singleton] at hu
  cases o with
  | load site q =>
    cases site with
    | init =>
      obtain ⟨rfl, hfree⟩ := htouches
      obtain ⟨rfl, -⟩ := Prod.mk.inj (Option.some.inj hexec)
      exact absurd hlocked hfree
    | _ => exact htouches.elim
  | cas site q old new =>
    obtain ⟨rfl, hok⟩ := htouches
    change r = true at hok
    subst hok
    exact absurd hlegal (hp.not_fits hlocked (Sys.perform_cas_true hexec).1)
  | storeUnlocked q v => obtain rfl := htouches; exact hmem hlegal.1
  | residentInsert q => obtain rfl := htouches; exact hmem hlegal.1
  | view q =>
    obtain rfl := htouches
    rcases hlegal with hx' | hs'
    · exact hmem hx'
    · have hu := hp.mem_sHolders hs'
      rw [hs] at hu
      cases hu
  | construct q isLeaf => obtain rfl := htouches; exact hmem hlegal
  | setUpperInnerNode q r => obtain rfl := htouches; exact hmem hlegal
  | insertInPage q key payload => obtain rfl := htouches; exact hmem hlegal
  | removeSlot q slotId => obtain rfl := htouches; exact hmem hlegal
  | updatePayload q slotId fn => obtain rfl := htouches; exact hmem hlegal
  | mergeNodes q slotId parent right =>
    rcases htouches with rfl | rfl | rfl
    · exact hmem hlegal.1
    · exact hmem hlegal.2.1
    · exact hmem hlegal.2.2
  | splitNode q newPID parent sepSlot sep =>
    rcases htouches with rfl | rfl | rfl
    · exact hmem hlegal.1
    · exact hmem hlegal.2.1
    · exact hmem hlegal.2.2
  | _ => exact htouches.elim

/-- The latches of a page that is held exclusively, after an action that is not its release. -/
lemma Protocol.kept (h : Protocol past ms s) (hlegal : (ms u).Legal o) {r : o.Res}
    (hexec : Sys.perform u c o s = some (r, s')) (hlocked : getState (s.word p) = Locked)
    (hx : s.xHolders p = [t]) (hs : s.sHolders p = []) (hzero : s.unlocks p = 0)
    (hkept : ∀ v, o = .storeUnlocked p v → u ≠ t) : getState (s'.word p) = Locked ∧
      s'.xHolders p = [t] ∧ s'.sHolders p = [] ∧ s'.unlocks p = 0 := by
  by_cases ho : o.Latching
  · cases o with
    | cas site q old new =>
      cases r with
      | false =>
        simp only [Sys.perform] at hexec
        split at hexec
        · cases (Prod.mk.inj (Option.some.inj hexec)).1
        · obtain rfl := (Prod.mk.inj (Option.some.inj hexec)).2
          exact ⟨hlocked, hx, hs, hzero⟩
      | true =>
        obtain ⟨hold, rfl⟩ := Sys.perform_cas_true hexec
        have hne : p ≠ q := by
          rintro rfl
          exact h.not_fits hlocked hold hlegal
        obtain ⟨hword, hx', hs'⟩ := s.cas_other u site new hne
        rw [hword, hx', hs']
        exact ⟨hlocked, hx, hs, hzero⟩
    | storeUnlocked q v =>
      obtain ⟨-, rfl⟩ := Prod.mk.inj (Option.some.inj hexec)
      have hne : p ≠ q := by
        rintro rfl
        have hu := h.mem_xHolders hlegal.1
        rw [hx, List.mem_singleton] at hu
        exact hkept v rfl hu
      have hword : (s.storeUnlocked u q v).word p = s.word p := Function.update_of_ne hne _ _
      have hx' : (s.storeUnlocked u q v).xHolders p = s.xHolders p := Function.update_of_ne hne _ _
      have hunlocks : (s.storeUnlocked u q v).unlocks p = s.unlocks p :=
        Function.update_of_ne hne _ _
      rw [hword, hx', hunlocks]
      exact ⟨hlocked, hx, hs, hzero⟩
    | nextPid =>
      obtain ⟨-, rfl⟩ := Prod.mk.inj (Option.some.inj hexec)
      exact ⟨hlocked, hx, hs, hzero⟩
    | residentInsert q =>
      obtain ⟨-, rfl⟩ := Prod.mk.inj (Option.some.inj hexec)
      unfold Sys.residentInsert
      split <;> exact ⟨hlocked, hx, hs, hzero⟩
    | _ => exact ho.elim
  · have hsame := sameLatches_perform ho hexec
    rw [hsame.word, hsame.xHolders, hsame.sHolders, hsame.unlocks]
    exact ⟨hlocked, hx, hs, hzero⟩

/-- The page that its allocation latches. -/
lemma Protocol.allocated (h : Protocol past ms s) {old new : Word}
    (hlegal : (ms t).Legal (.cas .lockX p old new)) (hdrew : Drew past t p)
    (hnew : ¬Latched past t p) : getState ((s.cas t .lockX p new).word p) = Locked ∧
      (s.cas t .lockX p new).xHolders p = [t] ∧ (s.cas t .lockX p new).sHolders p = [] ∧
        (s.cas t .lockX p new).unlocks p = 0 := by
  obtain ⟨hne, -, hunique⟩ := h.drew t p hdrew
  have hevicted : getState (s.word p) = Evicted := by
    refine (h.page p).untouched hne ?_
    rintro ⟨u, hu, hlatched⟩
    obtain rfl := hunique u hu
    exact hnew hlatched
  obtain ⟨-, hzero⟩ := (h.page p).evicted hevicted
  obtain ⟨hx, hs⟩ := ((h.page p).held (by omega)).of_lockable (Or.inr (Or.inr hevicted))
  refine ⟨?_, ?_, hs, hzero⟩
  · rw [Sys.cas_word]
    exact getState_lockX hlegal
  · change Function.update s.xHolders p (t :: s.xHolders p) p = [t]
    rw [Function.update_self, hx]

lemma OwnedInv.step (h : OwnedInv past s) (hp : Protocol past ms s) (hlegal : (ms u).Legal o)
    {r : o.Res} (hexec : Sys.perform u c o s = some (r, s')) : OwnedInv (⟨u, o, r⟩ :: past) s' where
  owned := by
    intro t p hdrew hlatched hkept
    have hkept' : ∀ v, (⟨t, .storeUnlocked p v, ()⟩ : Act τ) ∉ past :=
      fun v hmem => hkept v (List.mem_cons_of_mem _ hmem)
    have hother : ∀ v, o = .storeUnlocked p v → u ≠ t := by
      rintro v rfl rfl
      exact hkept v List.mem_cons_self
    by_cases hold : Drew past t p ∧ Latched past t p
    · obtain ⟨hlocked, hx, hs, hzero⟩ := h.owned t p hold.1 hold.2 hkept'
      exact hp.kept hlegal hexec hlocked hx hs hzero hother
    · rcases List.mem_cons.mp hdrew with heq | hdrawn
      · -- nobody has latched the page of an id that is drawn now
        cases heq
        obtain ⟨rfl, -⟩ := Prod.mk.inj (Option.some.inj hexec)
        rw [latched_cons (fun _ _ heq => by cases heq)] at hlatched
        rcases hp.latched u _ hlatched with heq | ⟨v, hv⟩
        · exact absurd heq hp.alloc.ne'
        · exact absurd (hp.drew v _ hv).2.1 (lt_irrefl _)
      · have hnew : ¬Latched past t p := fun hlatched => hold ⟨hdrawn, hlatched⟩
        obtain ⟨old, new, hmem⟩ := hlatched
        rcases List.mem_cons.mp hmem with heq | hmem
        · cases heq
          obtain ⟨-, rfl⟩ := Sys.perform_cas_true hexec
          exact hp.allocated hlegal hdrawn hnew
        · exact absurd ⟨old, new, hmem⟩ hnew
  latched := by
    intro t p hmem
    rcases List.mem_cons.mp hmem with heq | hmem
    · cases heq
      exact ((hp.page p).entering u hlegal.2 hlegal.1).1.cons _
    · exact (h.latched t p hmem).cons _

end Step

/-! ## Runs -/

/-- The history so far, with the invariants as long as the run goes on. -/
def Owning (past : List (Act τ)) (ms : τ → Local) (s : Sys τ) : Prop :=
  ExclusiveUse past ∧ (s.crashed = none → Protocol past ms s ∧ OwnedInv past s)

lemma reflects_owning : History.Reflects exec discipline Timely (Owning (τ := τ)) := by
  rintro past ms s t c o r s' ⟨huse, hs⟩ hlegal hexec htimely
  obtain ⟨hcrashed, hperform⟩ := perform_of_exec hexec
  obtain ⟨hp, howned⟩ := hs hcrashed
  obtain ⟨hanswer, hkeeping⟩ := reflects_keeping past ms s t c o r s' (fun _ => hp) hlegal hexec
    htimely
  refine ⟨hanswer, ⟨?_, ?_, huse⟩, fun hcrashed' =>
    ⟨hkeeping hcrashed', howned.step hp hlegal hperform⟩⟩
  · exact fun u p howns htouches => howned.touches hp howns hlegal hperform htouches
  · intro p hinserts
    change o = .residentInsert p at hinserts
    subst hinserts
    exact (hp.page p).inserted ((hp.page p).entering t hlegal.2 hlegal.1).2.1

/-- With assertions, new pages are exclusively latched by their owners, in every run in which no
page is latched before its allocation has done so. -/
theorem Disciplined.freshPages {cfg : Config signature OLCRestart (Sys τ) τ}
    {x : History signature OLCRestart (Sys τ) τ} (h : Disciplined cfg)
    (hleads : History.Leads exec Timely (History.start cfg) x) : FreshPages x := by
  have hstart : Owning (History.start cfg).past (fun _ => Local.fresh 0)
      (History.start cfg).cfg.shared := by
    refine ⟨trivial, fun _ => ?_⟩
    change Protocol [] _ cfg.shared ∧ OwnedInv [] cfg.shared
    rw [h.shared]
    refine ⟨protocol_start, ?_, ?_⟩
    · intro t p hdrew
      cases hdrew
    · intro t p hmem
      cases hmem
  obtain ⟨ms, ⟨huse, hs⟩, -⟩ := History.Monitored.leads reflects_owning
    ⟨fun _ => Local.fresh 0, hstart, h.obeys⟩ hleads
  refine ⟨fun hrun t p howns => ?_, huse⟩
  obtain ⟨hlocked, hx, hshared, -⟩ := (hs hrun).2.owns howns
  exact ⟨hlocked, hx, hshared⟩

/-- The creator of a tree has its new root for itself. -/
theorem initAndLookup_freshPages : ∃ x, Owns x.past true 1 ∧
    History.Leads exec Timely (History.start initAndLookup) x ∧ FreshPages x := by
  obtain ⟨x, hx, -, -, -, -, hdrew, hinserted, hkept⟩ := initAndLookup_leads
  exact ⟨x, ⟨hdrew, hinserted, hkept⟩, hx, (callers_disciplined _ _ _).freshPages hx⟩

/-- Without assertions, one thread allocates a page and keeps it, and the other one looks at it. -/
def allocAndLook : Config signature OLCRestart (Sys Bool) Bool where
  shared := Sys.start
  prog
    | true => do
      let _ ← BufferManager.allocPageIn twoPages .ndebug
      pure ()
    | false => do
      let _ ← GuardO.init 1 1
      pure ()

/-- The page stays evicted, and the other thread takes it in. -/
theorem allocAndLook_not_latched : ∃ x,
    History.Leads (execIn .ndebug) Timely (History.start allocAndLook) x ∧
      x.cfg.shared.crashed = none ∧ Owns x.past true 1 ∧
      getState (x.cfg.shared.word 1) = Evicted ∧ ¬FreshPages x ∧
      ∃ y, History.Leads (execIn .ndebug) (fun _ _ => True) x y ∧ y.cfg.shared.crashed = none ∧
        y.cfg.shared.xHolders 1 = [false] ∧ Owns y.past true 1 ∧ ¬ExclusiveUse y.past := by
  have hplay : ∃ x, History.Leads (execIn .ndebug) Timely (History.start allocAndLook) x ∧
      x.cfg.shared.crashed = none ∧ Owns x.past true 1 ∧
      getState (x.cfg.shared.word 1) = Evicted ∧ x.cfg.shared.xHolders 1 = [] ∧
      ∃ y v new,
        History.play (execIn .ndebug) [(false, ⟨0, false⟩), (false, ⟨0, false⟩)] x = some y ∧
        y.cfg.shared.crashed = none ∧ y.cfg.shared.xHolders 1 = [false] ∧
        y.past = ⟨false, .cas .lockX 1 v new, true⟩ :: ⟨false, .load .init 1, v⟩ :: x.past := by
    refine ⟨_, History.Leads.head (.mk (t := true) (c := ⟨0, false⟩) rfl rfl trivial) <|
      History.Leads.head (.mk (t := true) (c := ⟨0, false⟩) rfl rfl trivial) <|
      History.Leads.head (.mk (t := true) (c := ⟨0, false⟩) rfl rfl trivial)
        (History.Leads.refl _), rfl, ⟨?_, List.mem_cons_self, ?_⟩, rfl, rfl, _, _, _, rfl, rfl, rfl,
        rfl⟩
    · exact List.mem_cons_of_mem _ (List.mem_cons_of_mem _ List.mem_cons_self)
    · intro v hmem
      iterate 3
        rcases List.mem_cons.mp hmem with heq | hmem
        · cases heq
      cases hmem
  obtain ⟨x, hx, hrun, howns, hevicted, hfree, y, v, new, hplay, hrun', hholders, hpast⟩ := hplay
  have howns₁ : Owns (⟨false, .load .init 1, v⟩ :: x.past) true 1 :=
    howns.cons (fun _ heq => by cases heq)
  have howns₂ : Owns y.past true 1 := by
    rw [hpast]
    exact howns₁.cons (fun _ heq => by cases heq)
  refine ⟨x, hx, hrun, howns, hevicted, fun hfresh => ?_, y, History.leads_of_play hplay, hrun',
    hholders, howns₂, fun huse => ?_⟩
  · have hmem := (hfresh.latched hrun true 1 howns).2.1
    rw [hfree] at hmem
    cases hmem
  · rw [hpast] at huse
    cases huse.1 true 1 howns₁ ⟨rfl, rfl⟩

end MemSafeDB
