import MemSafeDB.Sequential.Latches
import MemSafeDB.System.Restarts
import MemSafeDB.Tree.Structure

/-!
# Several trees in one process

All trees share the buffer manager and the metadata page, which has an entry for the root of each
of them. `BTree::init` initialises the buffer manager once more: it maps new memory, allocates from
the beginning again, and the entries of the other trees are gone with the old metadata page.
-/

namespace MemSafeDB
open Lib PageState

variable {ι τ : Type} [DecidableEq ι] [DecidableEq τ]

/-- Number of entries of `MetaDataPage::roots`. -/
def rootCount : Nat := (pageSize - 8) / 8

/-- The buffer manager, the metadata page and the trees of a process. -/
structure Process (ι τ : Type) where
  env : Env
  sys : Sys τ
  roots : Nat → PID
  btreeslotcounter : Nat
  /-- of the trees that have been initialised -/
  slotId : ι → Option Nat
  splitOrdered : ι → Bool

/-- What is asked of a tree. -/
inductive Request where
  | init (env : Env)
  | call (c : Call)

/-- A thread asks a tree. -/
structure Asks (ι τ : Type) where
  thread : τ
  tree : ι
  request : Request

namespace Process

/-- Before the first `init`. -/
def start (env : Env) : Process ι τ where
  env := env
  sys := Sys.start
  roots := fun _ => 0
  btreeslotcounter := 0
  slotId := fun _ => none
  splitOrdered := fun _ => false

/-- The process as a single tree sees it. -/
def seenBy (P : Process ι τ) (i : ι) (slot : Nat) : Sys τ :=
  { P.sys with root := P.roots slot, splitOrdered := P.splitOrdered i }

/-- `init` of a tree that gets the next entry. The memory is new, and the entries are zero. -/
def afterInit (P : Process ι τ) (i : ι) (env : Env) (s : Sys τ) : Process ι τ where
  env := env
  sys := s
  roots := Function.update (fun _ => 0) P.btreeslotcounter s.root
  btreeslotcounter := P.btreeslotcounter + 1
  slotId := Function.update P.slotId i (some P.btreeslotcounter)
  splitOrdered := P.splitOrdered

def afterCall (P : Process ι τ) (i : ι) (slot : Nat) (s : Sys τ) : Process ι τ :=
  { P with
    sys := s
    roots := Function.update P.roots slot s.root
    splitOrdered := Function.update P.splitOrdered i s.splitOrdered }

/-- What a request leads to, unless it ends the process. Calls are for trees that have been
initialised, and whose root is not the metadata page itself. -/
def perform (c : Choice) (P : Process ι τ) (a : Asks ι τ) : Option (Process ι τ) :=
  match a.request with
  | .init env =>
    if P.btreeslotcounter < rootCount then
      match (BTree.init env).eval (S := signature) exec a.thread c Sys.start with
      | .done _ s => some (P.afterInit a.tree env s)
      | _ => none
    else none
  | .call call =>
    match P.slotId a.tree with
    | none => none
    | some slot =>
      if P.roots slot = metadataPageId then none
      else
        match (call.perform P.env).eval (S := signature) exec a.thread c
            (P.seenBy a.tree slot) with
        | .done _ s => some (P.afterCall a.tree slot s)
        | _ => none

/-- The entry of tree `j`, the pages that are reached from it and their states are the same. -/
structure Keeps (P P' : Process ι τ) (j : ι) : Prop where
  root : ∀ slot, P.slotId j = some slot → P'.slotId j = some slot ∧ P'.roots slot = P.roots slot
  pages : ∀ slot, P.slotId j = some slot → ∀ p, (P.seenBy j slot).tree.Reachable p →
    P'.sys.page p = P.sys.page p ∧ P'.sys.word p = P.sys.word p

end Process

/-! ## The root of a tree -/

section Root

variable {t : τ} {c : Choice} {α : Type} {s s' : Sys τ}

lemma root_perform {o : Op} {rs : o.Res × Sys τ} (h : Sys.perform t c o s = some rs) :
    rs.2.root = s.root ∨ ∃ p, o = .setRoot p ∧ rs.2.root = p := by
  cases o with
  | setRoot p =>
    obtain rfl := Option.some.inj h
    exact Or.inr ⟨p, rfl, rfl⟩
  | cas site p old new =>
    apply Or.inl
    simp only [Sys.perform] at h
    split at h <;> (obtain rfl := Option.some.inj h; rfl)
  | residentInsert p =>
    apply Or.inl
    obtain rfl := Option.some.inj h
    change (s.residentInsert p).root = s.root
    unfold Sys.residentInsert
    split <;> rfl
  | insertInPage p key payload =>
    apply Or.inl
    obtain rfl := Option.some.inj h
    change (s.insertInPage t p key payload).root = s.root
    unfold Sys.insertInPage
    split <;> rfl
  | updatePayload p slotId fn =>
    apply Or.inl
    obtain rfl := Option.some.inj h
    change (s.updatePayload t p slotId fn).root = s.root
    unfold Sys.updatePayload
    split <;> rfl
  | mergeNodes p slotId parent right =>
    apply Or.inl
    obtain rfl := Option.some.inj h
    change (s.mergeNodes t p slotId parent right).2.root = s.root
    unfold Sys.mergeNodes
    split <;> rfl
  | splitNode p newPID parent sepSlot sep =>
    apply Or.inl
    obtain rfl := Option.some.inj h
    change (s.splitNode t p newPID parent sepSlot sep).root = s.root
    unfold Sys.splitNode
    split <;> rfl
  | halt => cases h
  | _ =>
    apply Or.inl
    obtain rfl := Option.some.inj h
    rfl

/-- The root is a page that has been allocated, not the metadata page. -/
def Rooted (s : Sys τ) : Prop := s.root ≠ metadataPageId ∧ 0 < s.allocCount

lemma reflects_rooted (t : τ) (c : Choice) :
    ReflectsAlone exec t c discipline (fun _ (s : Sys τ) => Rooted s) := by
  rintro m s o r s' ⟨hroot, halloc⟩ hlegal hexec
  obtain ⟨-, hperform⟩ := perform_of_exec hexec
  refine ⟨?_, ?_, halloc.trans_le (counts_perform hperform).alloc⟩
  · cases o with
    | nextPid =>
      cases Option.some.inj hperform
      exact halloc.ne'
    | _ => trivial
  · rcases root_perform hperform with hsame | ⟨p, rfl, hp⟩
    · rw [hsame]
      exact hroot
    · rw [hp]
      exact hlegal.1

/-- A program that keeps the discipline leaves the tree with a root. -/
lemma Rooted.does {p : Prog α} {core : Core} {Q : α → Core → Prop} {a : α} (h : Rooted s)
    (hp : Does p core Q (fun _ => True))
    (heval : p.eval (S := signature) exec t c s = .done a s') : Rooted s' := by
  have hrun := (hp ⟨core, none, none, none⟩ rfl).eval (reflects_rooted t c) h
  rw [heval] at hrun
  obtain ⟨-, -, hs'⟩ := hrun
  exact hs'

lemma eval_alloc_le {p : Prog α} {a : α}
    (h : p.eval (S := signature) exec t c s = .done a s') : s.allocCount ≤ s'.allocCount := by
  induction p generalizing s with
  | ret b =>
    cases h
    exact le_rfl
  | throw e => cases h
  | step o k ih =>
    cases hexec : exec t c o s with
    | none =>
      rw [Program.eval_blocked exec t c hexec] at h
      cases h
    | some rs =>
      rw [Program.eval_step exec t c hexec] at h
      obtain ⟨-, hperform⟩ := perform_of_exec hexec
      exact (counts_perform hperform).alloc.trans (ih rs.1 h)

lemma crash_not_done {f : Fault} {a : α}
    (h : (crash f : Prog α).eval (S := signature) exec t c s = .done a s') : False := by
  cases hexec : exec t c (Op.crash f) s with
  | none =>
    rw [crash, Program.eval_blocked exec t c hexec] at h
    cases h
  | some rs =>
    obtain ⟨-, hperform⟩ := perform_of_exec hexec
    obtain rfl := Option.some.inj hperform
    rw [crash, Program.eval_step exec t c hexec] at h
    have hhalt : exec t c Op.halt (s.crash f) = none := by simp [exec, Sys.crash]
    cases (Program.eval_blocked exec t c hhalt).symm.trans h

/-- The page that is allocated is the next one. -/
lemma pid_of_allocPage {env : Env} {pid : PID}
    (h : (BufferManager.allocPage env).eval (S := signature) exec t c s = .done pid s') :
    pid = s.allocCount := by
  obtain ⟨pid', s1, hnext, h⟩ := Program.eval_bind_done exec t c h
  obtain ⟨-, hnext⟩ := perform_of_exec (Program.eval_op_done exec t c hnext)
  obtain ⟨rfl, rfl⟩ := Prod.mk.inj (Option.some.inj hnext)
  by_cases hfull : env.virtCount ≤ s.allocCount
  · rw [if_pos hfull] at h
    exact (crash_not_done h).elim
  · rw [if_neg hfull] at h
    obtain ⟨v, s2, -, h⟩ := Program.eval_bind_done exec t c h
    obtain ⟨ok, s3, -, h⟩ := Program.eval_bind_done exec t c h
    obtain ⟨_, s4, -, h⟩ := Program.eval_bind_done exec t c h
    obtain ⟨_, s5, -, h⟩ := Program.eval_bind_done exec t c h
    cases h
    rfl

/-- `init` that returns leaves a tree with a root. -/
lemma rooted_init {env : Env} {u : Unit}
    (h : (BTree.init env).eval (S := signature) exec t c (Sys.start : Sys τ) = .done u s') :
    Rooted s' := by
  obtain ⟨page, s1, hfix, h⟩ := Program.eval_bind_done exec t c h
  obtain ⟨root, s2, halloc, h⟩ := Program.eval_bind_done exec t c h
  obtain ⟨_, s3, hset, h⟩ := Program.eval_bind_done exec t c h
  obtain ⟨_, s4, hunfix, hunfix'⟩ := Program.eval_bind_done exec t c h
  obtain ⟨pid, s5, hpage, hguard⟩ := Program.eval_bind_done exec t c halloc
  obtain ⟨_, s6, -, hpid⟩ := Program.eval_bind_done exec t c hguard
  cases hpid
  have hpos : 0 < s1.allocCount := Nat.zero_lt_one.trans_le (eval_alloc_le hfix)
  have hroot := pid_of_allocPage hpage
  obtain ⟨-, hset⟩ := perform_of_exec (Program.eval_op_done exec t c hset)
  have hrooted : Rooted s3 := by
    obtain ⟨-, rfl⟩ := Prod.mk.inj (Option.some.inj hset)
    have hne : root ≠ metadataPageId := by
      rw [hroot]
      exact hpos.ne'
    have hcount : 0 < s2.allocCount := hpos.trans_le (eval_alloc_le halloc)
    exact ⟨hne, hcount⟩
  have hunlock : ∀ p, Does (BufferManager.unfixX p) ((Local.fresh 0).core.lockX p)
      (fun _ c' => c' = ((Local.fresh 0).core.lockX p).unlockX p) (fun _ => True) :=
    fun p => does_unfixX (Core.mem_lockX _ p)
  exact (hrooted.does (hunlock _) hunfix).does (hunlock _) hunfix'

end Root

namespace Process

variable {c : Choice} {P P' : Process ι τ} {a : Asks ι τ} {env : Env} {call : Call} {slot : Nat}

/-! ## What requests do -/

lemma perform_init (ha : a.request = .init env) (h : P.perform c a = some P') :
    ∃ s, Rooted s ∧ P' = P.afterInit a.tree env s := by
  unfold perform at h
  rw [ha] at h
  dsimp only at h
  split at h
  · cases heval : (BTree.init env).eval (S := signature) exec a.thread c (Sys.start : Sys τ) with
    | done u s =>
      rw [heval] at h
      exact ⟨s, rooted_init heval, (Option.some.inj h).symm⟩
    | thrown e s =>
      rw [heval] at h
      cases h
    | blocked s =>
      rw [heval] at h
      cases h
  · cases h

lemma perform_call (ha : a.request = .call call) (h : P.perform c a = some P') :
    ∃ slot s answer, P.slotId a.tree = some slot ∧ P.roots slot ≠ metadataPageId ∧
      (call.perform P.env).eval (S := signature) exec a.thread c (P.seenBy a.tree slot) =
        .done answer s ∧ P' = P.afterCall a.tree slot s := by
  unfold perform at h
  rw [ha] at h
  dsimp only at h
  cases hslot : P.slotId a.tree with
  | none =>
    rw [hslot] at h
    cases h
  | some slot =>
    rw [hslot] at h
    dsimp only at h
    split at h
    · cases h
    · rename_i hroot
      cases heval : (call.perform P.env).eval (S := signature) exec a.thread c
          (P.seenBy a.tree slot) with
      | done answer s =>
        rw [heval] at h
        exact ⟨slot, s, answer, rfl, hroot, heval, (Option.some.inj h).symm⟩
      | thrown e s =>
        rw [heval] at h
        cases h
      | blocked s =>
        rw [heval] at h
        cases h

/-! ## Runs -/

/-- In a run of requests each leaves the other trees as they are. -/
def Undisturbed (c : Choice) : Process ι τ → List (Asks ι τ) → Prop
  | _, [] => True
  | P, a :: as =>
    match P.perform c a with
    | none => True
    | some P' => (∀ j, j ≠ a.tree → P.Keeps P' j) ∧ Undisturbed c P' as

/-- `a` is no `init`, or no other tree is there. -/
def Alone (P : Process ι τ) (a : Asks ι τ) : Prop :=
  (∃ env, a.request = .init env) → ∀ j, j ≠ a.tree → P.slotId j = none

/-- No tree is initialised while another one is. -/
def OneTree (c : Choice) : Process ι τ → List (Asks ι τ) → Prop
  | _, [] => True
  | P, a :: as =>
    match P.perform c a with
    | none => True
    | some P' => P.Alone a ∧ OneTree c P' as

/-- At most one tree is there, and it has a root. -/
structure Proper (P : Process ι τ) : Prop where
  alloc : 0 < P.sys.allocCount
  root : ∀ j slot, P.slotId j = some slot →
    slot < P.btreeslotcounter ∧ P.roots slot ≠ metadataPageId
  single : ∀ i j slot, P.slotId i = some slot → i ≠ j → P.slotId j = none

omit [DecidableEq ι] [DecidableEq τ] in
lemma proper_start (env : Env) : (start env : Process ι τ).Proper where
  alloc := Nat.zero_lt_one
  root _ _ h := by cases h
  single _ _ _ h := by cases h

omit [DecidableEq ι] [DecidableEq τ] in
lemma keeps_of_none {j : ι} (h : P.slotId j = none) : P.Keeps P' j := by
  constructor
  · intro slot hslot
    rw [h] at hslot
    cases hslot
  · intro slot hslot
    rw [h] at hslot
    cases hslot

omit [DecidableEq τ] in
/-- The memory of another tree does not survive an `init`. -/
lemma Proper.not_keeps_init (hP : P.Proper) {i j : ι} {s : Sys τ}
    (hj : P.slotId j = some slot) : ¬P.Keeps (P.afterInit i env s) j := by
  intro hkeeps
  obtain ⟨hlt, hroot⟩ := hP.root j slot hj
  obtain ⟨-, hsame⟩ := hkeeps.root slot hj
  apply hroot
  rw [← hsame]
  change Function.update (fun _ => 0) P.btreeslotcounter s.root slot = 0
  rw [Function.update_of_ne hlt.ne]

lemma Proper.keeps_iff (hP : P.Proper) (h : P.perform c a = some P') :
    (∀ j, j ≠ a.tree → P.Keeps P' j) ↔ P.Alone a := by
  constructor
  · rintro hkeeps ⟨env, ha⟩ j hj
    obtain ⟨s, -, rfl⟩ := perform_init ha h
    cases hslot : P.slotId j with
    | none => rfl
    | some slot => exact (hP.not_keeps_init hslot (hkeeps j hj)).elim
  · intro halone j hj
    apply keeps_of_none
    cases ha : a.request with
    | init env => exact halone ⟨env, ha⟩ j hj
    | call call =>
      obtain ⟨slot, -, -, hslot, -, -, -⟩ := perform_call ha h
      exact hP.single a.tree j slot hslot hj.symm

lemma Proper.perform (hP : P.Proper) (h : P.perform c a = some P') (halone : P.Alone a) :
    P'.Proper := by
  cases ha : a.request with
  | init env =>
    obtain ⟨s, hs, rfl⟩ := perform_init ha h
    have hother : ∀ j, j ≠ a.tree → (P.afterInit a.tree env s).slotId j = none := by
      intro j hj
      change Function.update P.slotId a.tree _ j = none
      rw [Function.update_of_ne hj]
      exact halone ⟨env, ha⟩ j hj
    refine ⟨hs.2, ?_, ?_⟩
    · intro j slot hslot
      by_cases hj : j = a.tree
      · subst hj
        change Function.update P.slotId a.tree (some P.btreeslotcounter) a.tree = some slot at hslot
        rw [Function.update_self] at hslot
        obtain rfl := Option.some.inj hslot
        refine ⟨Nat.lt_succ_self _, ?_⟩
        change Function.update (fun _ => 0) P.btreeslotcounter s.root P.btreeslotcounter ≠ _
        rw [Function.update_self]
        exact hs.1
      · rw [hother j hj] at hslot
        cases hslot
    · intro i j slot hslot hij
      by_cases hi : i = a.tree
      · subst hi
        exact hother j hij.symm
      · rw [hother i hi] at hslot
        cases hslot
  | call call =>
    obtain ⟨slot, s, answer, hslot, hroot, heval, rfl⟩ := perform_call ha h
    have hrooted : Rooted (P.seenBy a.tree slot) := ⟨hroot, hP.alloc⟩
    have hdoes : Does (call.perform P.env) (Local.fresh 0).core (fun _ => Core.Idle)
        (fun _ => True) := does_perform call ⟨rfl, rfl⟩
    have hs := hrooted.does hdoes heval
    refine ⟨hs.2, ?_, hP.single⟩
    intro j slot' hslot'
    obtain ⟨hlt, hroot'⟩ := hP.root j slot' hslot'
    refine ⟨hlt, ?_⟩
    change Function.update P.roots slot s.root slot' ≠ _
    by_cases heq : slot' = slot
    · subst heq
      rw [Function.update_self]
      exact hs.1
    · rw [Function.update_of_ne heq]
      exact hroot'

lemma Proper.oneTree_iff (hP : P.Proper) (as : List (Asks ι τ)) :
    P.Undisturbed c as ↔ P.OneTree c as := by
  induction as generalizing P with
  | nil => rfl
  | cons a as ih =>
    rw [Undisturbed, OneTree]
    cases h : P.perform c a with
    | none => rfl
    | some P' =>
      change _ ∧ _ ↔ P.Alone a ∧ _
      rw [hP.keeps_iff h]
      refine and_congr_right (fun halone => ih (hP.perform h halone))

/-- The requests leave the other trees as they are if and only if no tree is initialised while
another one is. -/
theorem undisturbed_iff (env : Env) (c : Choice) (as : List (Asks ι τ)) :
    (start env).Undisturbed c as ↔ (start env).OneTree c as :=
  (proper_start env).oneTree_iff as

/-- Four pages of memory. -/
def trialEnv : Env := ⟨4 * pageSize, by decide, 10⟩

/-- A tree gets an entry before another one is initialised. -/
def twoTrees : List (Asks Bool Unit) :=
  [⟨(), false, .init trialEnv⟩, ⟨(), false, .call (.insert (keyOf [1]) (keyOf [2]))⟩,
    ⟨(), true, .init trialEnv⟩]

/-- The entry of the first tree before and after the last request. -/
lemma twoTrees_roots : ((start trialEnv : Process Bool Unit).perform ⟨0, false⟩
    ⟨(), false, .init trialEnv⟩).bind (fun P₁ =>
      (P₁.perform ⟨0, false⟩ ⟨(), false, .call (.insert (keyOf [1]) (keyOf [2]))⟩).bind (fun P₂ =>
        (P₂.perform ⟨0, false⟩ ⟨(), true, .init trialEnv⟩).map (fun P₃ =>
          (P₂.slotId false, P₂.roots 0, P₃.roots 0)))) = some (some 0, 1, 0) := by
  decide +kernel

theorem not_undisturbed : ¬∀ (env : Env) (as : List (Asks Bool Unit)),
    (start env).Undisturbed ⟨0, false⟩ as := by
  intro h
  obtain ⟨P₁, h1, hroots⟩ := Option.bind_eq_some_iff.mp twoTrees_roots
  obtain ⟨P₂, h2, hroots⟩ := Option.bind_eq_some_iff.mp hroots
  obtain ⟨P₃, h3, hroots⟩ := Option.map_eq_some_iff.mp hroots
  simp only [Prod.mk.injEq] at hroots
  obtain ⟨hslot, hbefore, hafter⟩ := hroots
  have hrun := h trialEnv twoTrees
  rw [twoTrees, Undisturbed, h1] at hrun
  obtain ⟨-, hrun⟩ := hrun
  rw [Undisturbed, h2] at hrun
  obtain ⟨-, hrun⟩ := hrun
  rw [Undisturbed, h3] at hrun
  obtain ⟨-, hsame⟩ := (hrun.1 false (by decide)).root 0 hslot
  rw [hbefore, hafter] at hsame
  cases hsame

end Process

end MemSafeDB
