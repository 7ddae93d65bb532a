import MemSafeDB.Sequential.Scanning
import MemSafeDB.Tree.Structure

/-!
# What a single thread can rely on

A split takes its separator untruncated when the next key is too short to tell a shorter one
from it. The left half then stores it as a fence as well, and may no longer fit. As long as the
left half fits, the tree behaves as a map; with enough entries on a full page, every insert
stores its entry.
-/

namespace MemSafeDB
open Lib PageState

/-! ## Splits that fit -/

/-- Fences, keys and payloads fit behind the fields of the header. They may reach the hints and
the slots: the assertion at the end of a copy notices that, but it reads these fields. -/
def View.SparesHeader (v : View) : Prop := (Loc.hint 0).start + v.spaceUsed ≤ pageSize

/-- Fences, keys and payloads fit behind the slots. -/
def View.Fits (v : View) : Prop := v.size ≤ pageSize

instance : DecidablePred View.SparesHeader := fun _ => Nat.decLe _ _

instance : DecidablePred View.Fits := fun _ => Nat.decLe _ _

/-- Such a copy ends with the assertion at its end, if it does not fit. -/
lemma View.SparesHeader.unfitFault_eq {v : View} (h : v.SparesHeader) :
    BTreeNode.unfitFault v = .assertion .copyKeyValueRange := by
  have hle : v.spaceUsed ≤ pageSize := le_trans (Nat.le_add_left _ _) h
  rw [BTreeNode.unfitFault, if_neg (not_lt.mpr hle)]

variable {τ : Type} [DecidableEq τ]

/-- The run ends with a value that satisfies `Q`, or with one of the faults. -/
def EndsWith {α : Type} (F : Fault → Prop) (Q : α → Sys τ → Prop) :
    Outcome OLCRestart α (Sys τ) → Prop
  | .done a s => Q a s
  | .thrown _ _ => False
  | .blocked s => Stops F s

lemma Runs.ends {t : τ} {c : Choice} {P : Sys τ → Op → Prop} {F : Fault → Prop} {α : Type}
    {p : Prog α} {s : Sys τ} {Q : α → Sys τ → Prop} (h : Runs t c P F p s Q)
    (hP : p.AllSteps (S := signature) exec t c P s) :
    p.AllSteps (S := signature) exec t c (Good F) s ∧
      EndsWith F Q (p.eval (S := signature) exec t c s) := by
  obtain ⟨h1, ⟨a, s', heq, hQ⟩ | ⟨s', heq, hB⟩⟩ := Program.Total.sound h hP
  · exact ⟨h1, by rw [heq]; exact hQ⟩
  · exact ⟨h1, by rw [heq]; exact hB⟩

/-- The fault that has ended a run. -/
def faultOf {α : Type} : Outcome OLCRestart α (Sys τ) → Option Fault
  | .blocked s => s.crashed
  | _ => none

omit [DecidableEq τ] in
lemma EndsWith.faultOf {α : Type} {F : Fault → Prop} {Q : α → Sys τ → Prop}
    {o : Outcome OLCRestart α (Sys τ)} (h : EndsWith F Q o) {f : Fault}
    (hf : MemSafeDB.faultOf o = some f) : F f := by
  cases o with
  | done a s => cases hf
  | thrown e s => cases hf
  | blocked s =>
    obtain ⟨g, hg, hs⟩ := h
    have hgf : some g = some f := hs.symm.trans hf
    rwa [Option.some.inj hgf] at hg

/-! ## Conditions on the steps -/

/-- The page is unlocked less than 2^56 times, and a split does not write over the header. -/
def SparesHeaders (s : Sys τ) : Op → Prop
  | .storeUnlocked p _ => version (s.word p) + 1 < 2 ^ 56
  | .splitNode p _ _ sepSlot sep => ((s.page p).leftView sepSlot sep).SparesHeader
  | _ => True

instance (s : Sys τ) (o : Op) : Decidable (SparesHeaders s o) := by
  unfold SparesHeaders
  split <;> infer_instance

/-- The page is unlocked less than 2^56 times, and the left half of a split fits. -/
def KeepsPage (s : Sys τ) : Op → Prop
  | .storeUnlocked p _ => version (s.word p) + 1 < 2 ^ 56
  | .splitNode p _ _ sepSlot sep => ((s.page p).leftView sepSlot sep).Fits
  | _ => True

instance (s : Sys τ) (o : Op) : Decidable (KeepsPage s o) := by
  unfold KeepsPage
  split <;> infer_instance

/-- Enough entries for a separator behind the first slot. -/
def BTreeNode.Separable (n : BTreeNode) : Prop := (if n.isLeaf then 3 else 2) ≤ n.count

instance (n : BTreeNode) : Decidable n.Separable := Nat.decLe _ _

/-- There is a page left, the page is unlocked less than 2^56 times, and a page that is split has
enough entries and a left half that fits. -/
def CanSplit (env : Env) (s : Sys τ) : Op → Prop
  | .storeUnlocked p _ => version (s.word p) + 1 < 2 ^ 56
  | .nextPid => s.allocCount < env.virtCount
  | .splitOrdered p => (s.page p).Separable
  | .splitNode p _ _ sepSlot sep => ((s.page p).leftView sepSlot sep).Fits
  | _ => True

instance (env : Env) (s : Sys τ) (o : Op) : Decidable (CanSplit env s o) := by
  unfold CanSplit
  split <;> infer_instance

lemma View.Fits.sparesHeader {v : View} (h : v.Fits) : v.SparesHeader := by
  simp only [View.Fits, View.size, slotPos_eq] at h
  simp only [View.SparesHeader, Loc.start]
  omega

omit [DecidableEq τ] in
lemma KeepsPage.sparesHeaders {s : Sys τ} {o : Op} (h : KeepsPage s o) : SparesHeaders s o := by
  cases o with
  | splitNode p newPID parent sepSlot sep => exact View.Fits.sparesHeader h
  | _ => exact h

omit [DecidableEq τ] in
lemma CanSplit.keepsPage {env : Env} {s : Sys τ} {o : Op} (h : CanSplit env s o) :
    KeepsPage s o := by
  cases o with
  | storeUnlocked p v => exact h
  | splitNode p newPID parent sepSlot sep => exact h
  | _ => trivial

/-! ## A run with splits -/

/-- Eight pages of memory. -/
def smallEnv : Env := ⟨8 * pageSize, by decide, 26000000⟩

lemma smallEnv_enough : smallEnv.Enough := by decide +kernel

def longPayload (b : Nat) : Call := .insert [byte b] (List.replicate 980 zeroByte)

def overwrite (b : Nat) : PayloadUpdate := ⟨List.map (fun _ => byte b), fun _ => List.length_map _⟩

/-- The fifth and the seventh insert split a leaf, the second remove merges the leaf with the next
one. -/
def splittingCalls : List Call :=
  [longPayload 1, longPayload 2, longPayload 3, longPayload 4, longPayload 5, longPayload 6,
    longPayload 7, .lookup (keyOf [5]) 4, .remove (keyOf [1]), .remove (keyOf [2]),
    .updateInPlace (keyOf [3]) (overwrite 7), .lookup (keyOf [3]) 4]

lemma splittingCalls_admitted : Contents.empty.Admits splittingCalls := by decide +kernel

lemma splittingCalls_canSplit : (program smallEnv splittingCalls).AllSteps (S := signature)
    exec () ⟨0, false⟩ (CanSplit smallEnv) Sys.start := by
  decide +kernel

lemma splittingCalls_keepsPage : (program smallEnv splittingCalls).AllSteps (S := signature)
    exec () ⟨0, false⟩ KeepsPage Sys.start :=
  splittingCalls_canSplit.mono (fun _ _ h => h.keepsPage)

lemma splittingCalls_sparesHeaders : (program smallEnv splittingCalls).AllSteps (S := signature)
    exec () ⟨0, false⟩ SparesHeaders Sys.start :=
  splittingCalls_keepsPage.mono (fun _ _ h => h.sparesHeaders)

/-- Level and number of entries of each page, if the program returns. -/
def pagesOf {α : Type} : Outcome OLCRestart α (Sys τ) → List (Option Nat × Nat)
  | .done _ s => (List.range s.allocCount).map (fun p => (s.level p, (s.page p).count))
  | _ => []

/-- Two of the three leaves are left. -/
lemma splittingCalls_pages : pagesOf ((program smallEnv splittingCalls).eval (S := signature)
    exec () ⟨0, false⟩ Sys.start) =
      [(none, 0), (some 0, 2), (some 1, 1), (none, 2), (some 0, 3)] := by
  decide +kernel

/-! ## The map -/

/-- A failed assertion, or no page left. -/
def Expected (f : Fault) : Prop := f = .outOfPages ∨ ∃ a, f = .assertion a

omit [DecidableEq τ] in
lemma assumed_sparesHeaders (env : Env) : Assumed env (SparesHeaders (τ := τ)) Expected where
  version := fun _ _ _ h => h
  outOfPages := fun _ _ _ => Or.inl rfl
  separator := by
    intro s p _ _ f hf
    cases hf with
    | count h => exact Or.inr ⟨_, rfl⟩
    | slot h hslot => exact Or.inr ⟨_, rfl⟩
  unfit := fun _ _ _ _ _ _ hP _ => Or.inr ⟨_, View.SparesHeader.unfitFault_eq hP⟩

/-- The calls after `init` behave like those of a map, unless an assertion fails or no page is
left. -/
structure RefinesMap (env : Env) (calls : List Call) (t : τ) (c : Choice) : Prop where
  ends : EndsWith Expected (fun as s' => ∃ m, Contents.empty.Behaves calls as m ∧ Represents s' m)
    ((program env calls).eval (S := signature) exec t c Sys.start)

lemma RefinesMap.expected {env : Env} {calls : List Call} {t : τ} {c : Choice} {f : Fault}
    (h : RefinesMap env calls t c) (hf : faultOf ((program env calls).eval (S := signature)
      exec t c Sys.start) = some f) : Expected f :=
  h.ends.faultOf hf

theorem program_refinesMap {env : Env} (hE : env.Enough) {calls : List Call}
    (hadm : Contents.empty.Admits calls) {t : τ} {c : Choice}
    (hP : (program env calls).AllSteps (S := signature) exec t c SparesHeaders Sys.start) :
    RefinesMap env calls t c := by
  have hrun := Solo.runs_program (t := t) (c := c) (assumed_sparesHeaders env) hE hadm
  refine ⟨(hrun.mono ?_).ends hP |>.2⟩
  rintro as s' ⟨m, hbeh, hidle⟩
  exact ⟨m, hbeh, hidle.represents⟩

theorem program_refinesMap_smallEnv :
    RefinesMap smallEnv splittingCalls () ⟨0, false⟩ ∧
      pagesOf ((program smallEnv splittingCalls).eval (S := signature) exec () ⟨0, false⟩
        Sys.start) = [(none, 0), (some 0, 2), (some 1, 1), (none, 2), (some 0, 3)] :=
  ⟨program_refinesMap smallEnv_enough splittingCalls_admitted splittingCalls_sparesHeaders,
    splittingCalls_pages⟩

def longEntry (b : Nat) : Call :=
  .insert (byte b :: List.replicate 199 zeroByte) (List.replicate 779 zeroByte)

/-- Four entries of nearly a quarter page and three short ones fill a leaf. The last insert
splits it behind the long entries, with the untruncated key of the fourth as the separator. -/
def overflowingCalls : List Call :=
  [longEntry 0, longEntry 1, longEntry 2, longEntry 3, .insert (keyOf [0xF0]) [],
    .insert (keyOf [0xF1]) [], .insert (keyOf [0xF2]) [],
    .insert (keyOf [0xF3]) (List.replicate 900 zeroByte)]

lemma overflowingCalls_admitted : Contents.empty.Admits overflowingCalls := by decide +kernel

lemma overflowingCalls_fault : faultOf ((program smallEnv overflowingCalls).eval (S := signature)
    exec () ⟨0, false⟩ Sys.start) = some .overflow := by
  decide +kernel

theorem program_not_refinesMap : ¬∀ (env : Env) (calls : List Call), env.Enough →
    Contents.empty.Admits calls → RefinesMap env calls () ⟨0, false⟩ := by
  intro h
  have hrun := h smallEnv overflowingCalls smallEnv_enough overflowingCalls_admitted
  rcases hrun.expected overflowingCalls_fault with hf | ⟨a, hf⟩
  · cases hf
  · cases hf

/-! ## The structure of the tree -/

/-- The calls after `init` leave a tree whose pages are in order, unless an assertion fails or no
page is left. -/
structure KeepsStructure (env : Env) (calls : List Call) (t : τ) (c : Choice) : Prop where
  ends : EndsWith Expected (fun _ s' => s'.tree.Structured)
    ((program env calls).eval (S := signature) exec t c Sys.start)

lemma KeepsStructure.expected {env : Env} {calls : List Call} {t : τ} {c : Choice} {f : Fault}
    (h : KeepsStructure env calls t c) (hf : faultOf ((program env calls).eval (S := signature)
      exec t c Sys.start) = some f) : Expected f :=
  h.ends.faultOf hf

theorem program_keepsStructure {env : Env} (hE : env.Enough) {calls : List Call}
    (hadm : Contents.empty.Admits calls) {t : τ} {c : Choice}
    (hP : (program env calls).AllSteps (S := signature) exec t c SparesHeaders Sys.start) :
    KeepsStructure env calls t c := by
  have hrun := Solo.runs_program (t := t) (c := c) (assumed_sparesHeaders env) hE hadm
  refine ⟨(hrun.mono ?_).ends hP |>.2⟩
  rintro as s' ⟨m, -, hidle⟩
  exact hidle.planted.inv.structured

theorem program_keepsStructure_smallEnv :
    KeepsStructure smallEnv splittingCalls () ⟨0, false⟩ ∧
      pagesOf ((program smallEnv splittingCalls).eval (S := signature) exec () ⟨0, false⟩
        Sys.start) = [(none, 0), (some 0, 2), (some 1, 1), (none, 2), (some 0, 3)] :=
  ⟨program_keepsStructure smallEnv_enough splittingCalls_admitted splittingCalls_sparesHeaders,
    splittingCalls_pages⟩

theorem program_not_keepsStructure : ¬∀ (env : Env) (calls : List Call), env.Enough →
    Contents.empty.Admits calls → KeepsStructure env calls () ⟨0, false⟩ := by
  intro h
  have hrun := h smallEnv overflowingCalls smallEnv_enough overflowingCalls_admitted
  rcases hrun.expected overflowingCalls_fault with hf | ⟨a, hf⟩
  · cases hf
  · cases hf

/-! ## Scans -/

/-- Scans from the key report the contents in order, until the callback asks to stop. A first call
without an exact match is for an entry behind the key. -/
structure ScansFrom (env : Env) (t : τ) (c : Choice) (s : Sys τ) (m : Contents) (key : Key) :
    Prop where
  ascending : ∃ all, m.AscendingFrom key all ∧
    ∀ fn, EndsWith (fun _ => False) (fun es s' => es = reported fn [] all ∧ Represents s' m)
      ((BTree.scanAsc env key fn).eval (S := signature) exec t c s)
  descending : ∃ exactMatch all, (exactMatch = false → all ≠ []) ∧
    m.DescendingFrom key (if exactMatch then all else all.tail) ∧
    ∀ fn, EndsWith (fun _ => False)
      (fun es s' => es = reported (fn exactMatch) [] all ∧ Represents s' m)
      ((BTree.scanDesc env key fn).eval (S := signature) exec t c s)

/-- After the calls every scan is complete, unless an assertion fails or no page is left. -/
structure ScansComplete (env : Env) (calls : List Call) (t : τ) (c : Choice) : Prop where
  ends : EndsWith Expected (fun as s => ∃ m, Contents.empty.Behaves calls as m ∧
    ∀ key, ScansFrom env t c s m key) ((program env calls).eval (S := signature) exec t c Sys.start)

lemma ScansComplete.expected {env : Env} {calls : List Call} {t : τ} {c : Choice} {f : Fault}
    (h : ScansComplete env calls t c) (hf : faultOf ((program env calls).eval (S := signature)
      exec t c Sys.start) = some f) : Expected f :=
  h.ends.faultOf hf

/-- Without conditions on the steps. -/
lemma Runs.ends_always {t : τ} {c : Choice} {F : Fault → Prop} {α : Type} {p : Prog α} {s : Sys τ}
    {Q : α → Sys τ → Prop} (h : Runs t c (fun _ _ => True) F p s Q) :
    EndsWith F Q (p.eval (S := signature) exec t c s) :=
  (h.ends (Program.AllSteps.of_forall (fun _ _ => trivial))).2

lemma Solo.Idle.scansFrom {env : Env} {t : τ} {c : Choice} {s : Sys τ} {m : Contents}
    (hE : env.Enough) (h : Idle env t m s) (key : Key) : ScansFrom env t c s m key := by
  obtain ⟨all, hall, hasc⟩ :=
    h.runs_scanAsc (c := c) (P := fun _ _ => True) (F := fun _ => False) hE key
  obtain ⟨exactMatch, all', hne, hall', hdesc⟩ :=
    h.runs_scanDesc (c := c) (P := fun _ _ => True) (F := fun _ => False) hE key
  refine ⟨⟨all, hall, fun fn => ?_⟩, ⟨exactMatch, all', hne, hall', fun fn => ?_⟩⟩
  · exact ((hasc fn).mono (fun _ _ hq => ⟨hq.1, hq.2.represents⟩)).ends_always
  · exact ((hdesc fn).mono (fun _ _ hq => ⟨hq.1, hq.2.represents⟩)).ends_always

/-- The slots end before the heap begins. -/
def BTreeNode.SlotsFit (n : BTreeNode) : Prop := slotPos n.count ≤ n.dataOffset

/-- The change of pages succeeds, and on every page that it builds the slots end before the heap
begins. -/
def BuildsFitting (s : Sys τ) : Op → Prop
  | .insertInPage p key payload => ∃ n, (s.page p).insertInPage key payload = .ok n ∧ n.SlotsFit
  | .removeSlot p slotId => ((s.page p).removeSlot slotId).SlotsFit
  | .mergeNodes p slotId parent right =>
    ∃ b l q, (s.page p).mergeNodes p slotId (s.page parent) (s.page right) = .ok (b, l, q) ∧
      l.SlotsFit ∧ q.SlotsFit
  | .splitNode p newPID parent sepSlot sep =>
    ∃ l r q, (s.page p).splitNode p newPID (s.page parent) sepSlot sep = .ok (l, r, q) ∧
      l.SlotsFit ∧ r.SlotsFit ∧ q.SlotsFit
  | _ => True

/-- No page left, or a full page with too few entries to split. -/
def Unsplittable (f : Fault) : Prop :=
  f = .outOfPages ∨ f = .assertion .separatorCount ∨ f = .assertion .sepSlotPositive

omit [DecidableEq τ] in
lemma assumed_keepsPage (env : Env) : Assumed env (KeepsPage (τ := τ)) Unsplittable where
  version := fun _ _ _ h => h
  outOfPages := fun _ _ _ => Or.inl rfl
  separator := by
    intro s p _ _ f hf
    cases hf with
    | count h => exact Or.inr (Or.inl rfl)
    | slot h hslot => exact Or.inr (Or.inr rfl)
  unfit := fun _ _ _ _ _ _ hP hunfit => absurd hP (not_le.mpr hunfit)

lemma BTreeNode.Valid.slotsFit {n : BTreeNode} (hn : n.Valid) : n.SlotsFit := by
  have hroom := hn.layout.slotEnd
  have hlen : n.slots.length = n.count := by simp
  rw [hlen] at hroom
  exact hroom

omit [DecidableEq τ] in
lemma Good.buildsFitting {s : Sys τ} {o : Op} (h : Good Unsplittable s o) : BuildsFitting s o := by
  cases o with
  | insertInPage p key payload =>
    obtain ⟨n, heq, hn⟩ := h
    exact ⟨n, heq, hn.slotsFit⟩
  | removeSlot p slotId => exact BTreeNode.Valid.slotsFit h
  | mergeNodes p slotId parent right =>
    obtain ⟨b, l, q, heq, hl, hq⟩ := h
    exact ⟨b, l, q, heq, hl.slotsFit, hq.slotsFit⟩
  | splitNode p newPID parent sepSlot sep =>
    rcases h with ⟨l, r, q, heq, hl, hr, hq, -⟩ | ⟨v, hf, -⟩
    · exact ⟨l, r, q, heq, hl.slotsFit, hr.slotsFit, hq.slotsFit⟩
    · unfold BTreeNode.unfitFault at hf
      split at hf <;> rcases hf with hf | hf | hf <;> cases hf
  | _ => trivial

/-- In every run of inserts and removes the pages that are built fit, and no copy runs into the
slots or out of the page. -/
structure PagesFit (env : Env) (calls : List Call) (t : τ) (c : Choice) : Prop where
  builds : (program env calls).AllSteps (S := signature) exec t c BuildsFitting Sys.start
  ends : EndsWith Unsplittable (fun _ _ => True)
    ((program env calls).eval (S := signature) exec t c Sys.start)

lemma PagesFit.unsplittable {env : Env} {calls : List Call} {t : τ} {c : Choice} {f : Fault}
    (h : PagesFit env calls t c) (hf : faultOf ((program env calls).eval (S := signature)
      exec t c Sys.start) = some f) : Unsplittable f :=
  h.ends.faultOf hf

theorem program_pagesFit {env : Env} (hE : env.Enough) {calls : List Call}
    (hadm : Contents.empty.Admits calls) {t : τ} {c : Choice}
    (hP : (program env calls).AllSteps (S := signature) exec t c KeepsPage Sys.start) :
    PagesFit env calls t c := by
  have hrun := Solo.runs_program (t := t) (c := c) (assumed_keepsPage env) hE hadm
  obtain ⟨hgood, hend⟩ := (hrun.mono (fun _ _ _ => trivial)).ends (Q := fun _ _ => True) hP
  exact ⟨hgood.mono (fun _ _ h => h.buildsFitting), hend⟩

theorem program_pagesFit_smallEnv :
    PagesFit smallEnv splittingCalls () ⟨0, false⟩ ∧
      pagesOf ((program smallEnv splittingCalls).eval (S := signature) exec () ⟨0, false⟩
        Sys.start) = [(none, 0), (some 0, 2), (some 1, 1), (none, 2), (some 0, 3)] :=
  ⟨program_pagesFit smallEnv_enough splittingCalls_admitted splittingCalls_keepsPage,
    splittingCalls_pages⟩

theorem program_not_pagesFit : ¬∀ (env : Env) (calls : List Call), env.Enough →
    Contents.empty.Admits calls → PagesFit env calls () ⟨0, false⟩ := by
  intro h
  have hrun := h smallEnv overflowingCalls smallEnv_enough overflowingCalls_admitted
  rcases hrun.unsplittable overflowingCalls_fault with hf | hf | hf
  · cases hf
  · cases hf
  · cases hf

/-! ## Inserts that make progress -/

lemma BTreeNode.Separable.one_lt {n : BTreeNode} (h : n.Separable) : 1 < n.count := by
  unfold BTreeNode.Separable at h
  split at h <;> omega

/-- The separator of a node with enough entries is behind the first slot. -/
lemma BTreeNode.Valid.separable {n : BTreeNode} (hn : n.Valid) (h : n.Separable) (b : Bool) :
    ∃ info, n.findSeparator b = .ok info ∧ 0 < info.slot ∧ info.slot < n.count := by
  obtain ⟨info, es, e, fs, hinfo, hs, hpos⟩ := hn.findSeparator_eq h.one_lt b
  refine ⟨info, hinfo, hpos.mpr ?_, ?_⟩
  · unfold BTreeNode.Separable at h
    split at h
    · exact Or.inr h
    · exact Or.inl (by simpa using ‹¬n.isLeaf = true›)
  · have hent : n.entries = es ++ e :: fs := hs.entries
    rw [hs.slot, ← length_entries, hent, List.length_append, List.length_cons]
    omega

omit [DecidableEq τ] in
lemma assumed_canSplit (env : Env) : Assumed env (CanSplit (τ := τ) env) (fun _ => False) where
  version := fun _ _ _ h => h
  outOfPages := fun _ h hle => absurd h (not_lt.mpr hle)
  separator := by
    intro s p hsep hvalid f hf
    cases hf with
    | count hcount => exact absurd (BTreeNode.Separable.one_lt hsep) (not_lt.mpr hcount)
    | slot hinfo hzero =>
      obtain ⟨info, hinfo', hpos, -⟩ := hvalid.separable hsep s.splitOrdered
      rw [hinfo] at hinfo'
      rw [← Except.ok.inj hinfo'] at hpos
      omega
  unfit := fun _ _ _ _ _ _ hP hunfit => absurd hP (not_le.mpr hunfit)

/-- A node that is split has a separator strictly between its ends, and the split leaves it with
fewer entries. -/
def SplitsStrictly (s : Sys τ) : Op → Prop
  | .splitOrdered p => 1 < (s.page p).count ∧
    ∃ info, (s.page p).findSeparator s.splitOrdered = .ok info ∧
      0 < info.slot ∧ info.slot < (s.page p).count
  | .splitNode p newPID parent sepSlot sep => 0 < sepSlot ∧ sepSlot < (s.page p).count ∧
    ∃ l r q, (s.page p).splitNode p newPID (s.page parent) sepSlot sep = .ok (l, r, q) ∧
      l.count < (s.page p).count
  | _ => True

omit [DecidableEq τ] in
lemma Good.splitsStrictly {env : Env} {s : Sys τ} {o : Op} (h : Good (fun _ => False) s o)
    (hP : CanSplit env s o) : SplitsStrictly s o := by
  cases o with
  | splitOrdered p =>
    exact ⟨BTreeNode.Separable.one_lt hP, BTreeNode.Valid.separable h hP s.splitOrdered⟩
  | splitNode p newPID parent sepSlot sep =>
    rcases h with ⟨l, r, q, heq, -, -, -, hpos, hlt, hcount⟩ | ⟨v, hf, -⟩
    · exact ⟨hpos, hlt, l, r, q, heq, hcount⟩
    · exact hf.elim
  | _ => trivial

/-- Every split makes the full node smaller, and every call returns, the inserts with their entry
stored. -/
structure Progresses (env : Env) (calls : List Call) (t : τ) (c : Choice) : Prop where
  splits : (program env calls).AllSteps (S := signature) exec t c SplitsStrictly Sys.start
  ends : EndsWith (fun _ => False)
    (fun as s' => ∃ m, Contents.empty.Behaves calls as m ∧ Represents s' m)
    ((program env calls).eval (S := signature) exec t c Sys.start)

lemma Progresses.not_fault {env : Env} {calls : List Call} {t : τ} {c : Choice} {f : Fault}
    (h : Progresses env calls t c) (hf : faultOf ((program env calls).eval (S := signature)
      exec t c Sys.start) = some f) : False :=
  h.ends.faultOf hf

theorem program_progresses {env : Env} (hE : env.Enough) {calls : List Call}
    (hadm : Contents.empty.Admits calls) {t : τ} {c : Choice}
    (hP : (program env calls).AllSteps (S := signature) exec t c (CanSplit env) Sys.start) :
    Progresses env calls t c := by
  have hrun := Solo.runs_program (t := t) (c := c) (assumed_canSplit env) hE hadm
  refine ⟨?_, (hrun.mono ?_).ends hP |>.2⟩
  · obtain ⟨hgood, -⟩ := (hrun.mono (fun _ _ _ => trivial)).ends (Q := fun _ _ => True) hP
    exact (hgood.and hP).mono (fun _ _ h => h.1.splitsStrictly h.2)
  · rintro as s' ⟨m, hbeh, hidle⟩
    exact ⟨m, hbeh, hidle.represents⟩

theorem program_progresses_smallEnv :
    Progresses smallEnv splittingCalls () ⟨0, false⟩ ∧
      pagesOf ((program smallEnv splittingCalls).eval (S := signature) exec () ⟨0, false⟩
        Sys.start) = [(none, 0), (some 0, 2), (some 1, 1), (none, 2), (some 0, 3)] :=
  ⟨program_progresses smallEnv_enough splittingCalls_admitted splittingCalls_canSplit,
    splittingCalls_pages⟩

def longKey (b : Nat) : Call := .insert (byte b :: List.replicate 992 zeroByte) []

/-- Keys of maximal length next to short ones become the fences of a leaf. Its two entries fill
it, and the last insert has to split it. -/
def unsplittableCalls : List Call :=
  [longPayload 0, longKey 5, longPayload 6, longKey 7, longPayload 8, longPayload 9,
    .insert (keyOf [6, 0]) (List.replicate 100 zeroByte)]

lemma unsplittableCalls_admitted : Contents.empty.Admits unsplittableCalls := by decide +kernel

lemma unsplittableCalls_fault : faultOf ((program smallEnv unsplittableCalls).eval (S := signature)
    exec () ⟨0, false⟩ Sys.start) = some (.assertion .sepSlotPositive) := by
  decide +kernel

theorem program_not_progresses : ¬∀ (env : Env) (calls : List Call), env.Enough →
    Contents.empty.Admits calls → Progresses env calls () ⟨0, false⟩ := by
  intro h
  have hrun := h smallEnv unsplittableCalls smallEnv_enough unsplittableCalls_admitted
  exact hrun.not_fault unsplittableCalls_fault

end MemSafeDB
