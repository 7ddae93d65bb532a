import MemSafeDB.BugClasses.Runner

/-!
# The table of bug classes

A cell of the table summarises the cases of one class under one configuration. It is computed
from the counts in the runner's file.
-/

namespace MemSafeDB.BugClasses
open Lib

/-! ## Reading the counts -/

/-- The columns of the table. -/
inductive Config where
  | baseline
  | mte
  | cheri
  deriving DecidableEq

def Config.name : Config → Text
  | .baseline => "baseline".toList
  | .mte => "mte".toList
  | .cheri => "cheri".toList

/-- Cases not counted for a configuration. -/
def excluded (config : Config) (bug : Text) : Bool :=
  config = .cheri && bug = "heap_overflow_large".toList

/-- Classes that CHERI can detect only with capability revocation. -/
def cheriNeedsRevocation (cls : Text) : Bool := cls = "Use-after-free".toList

structure Row where
  bug : Text
  cls : Text
  outcome : Text
  detail : Text
  timing : Text
  count : Nat
  runs : Nat
  deriving DecidableEq

/-- A row of the file as a dictionary; `none` where the numbers cannot be read. -/
def parseRow (header fields : List Text) : Option Row := do
  let get := fun (name : String) => (header.zip fields).reverse.lookup name.toList
  let bug ← get "bug"
  let cls ← get "class"
  let outcome ← get "outcome"
  let detail ← get "detail"
  let timing ← get "timing"
  let count ← parseNat (← get "count")
  let runs ← parseNat (← get "runs")
  pure ⟨bug, cls, outcome, detail, timing, count, runs⟩

/-- All rows of a file behind its header. -/
def readRows (file : Text) : Option (List Row) :=
  match Csv.read file with
  | [] => some []
  | header :: rows => (rows.filter (· ≠ [])).mapM (parseRow header)

/-- Adds a row to the case of its bug, which is opened where there is none. -/
def addRow : List (Text × List Row) → Row → List (Text × List Row)
  | [], row => [(row.bug, [row])]
  | (bug, rows) :: cases, row =>
    if bug = row.bug then (bug, rows ++ [row]) :: cases else (bug, rows) :: addRow cases row

/-- The cases of a class, without the excluded ones. -/
def casesOf (config : Config) (cls : Text) (rows : List Row) : List (List Row) :=
  ((rows.filter fun row => !excluded config row.bug && row.cls = cls).foldl addRow []).map Prod.snd

/-! ## Reducing them -/

inductive Kind where
  | trap
  | late
  | prob
  | libc
  | os
  | crash
  | miss
  deriving DecidableEq

def total (rows : List Row) (p : Row → Bool) : Nat := ((rows.filter p).map Row.count).sum

/-- Rounding to the nearest number, ties to the even one. -/
def roundDiv (a b : Nat) : Nat :=
  if 2 * (a % b) < b ∨ 2 * (a % b) = b ∧ (a / b) % 2 = 0 then a / b else a / b + 1

/-- The first key with the largest value. -/
def maxBucket (best : Kind × Nat) : List (Kind × Nat) → Kind
  | [] => best.1
  | b :: bs => if best.2 < b.2 then maxBucket b bs else maxBucket best bs

/-- The runs of a case reduced to an outcome and a detection percentage. -/
def classifyCase (rows : List Row) : Kind × Nat :=
  let runs := (rows.head?.map Row.runs).getD 0
  let detected := total rows fun r => r.outcome = "hw_trap".toList
  let atAccess := total rows fun r =>
    r.outcome = "hw_trap".toList && r.timing = "access".toList
  if detected = runs then
    if atAccess = runs then (.trap, 100) else (.late, 100)
  else if 0 < detected then
    (.prob, roundDiv (100 * detected) runs)
  else
    let libc := total rows fun r => r.outcome = "runtime_abort".toList
    let os := total rows fun r => r.outcome = "crash".toList && r.detail = "segv_maperr".toList
    let crash := total rows fun r =>
      (["crash".toList, "hang".toList, "exit".toList, "unknown".toList].contains r.outcome) &&
        r.detail ≠ "segv_maperr".toList
    let miss := total rows fun r => r.outcome = "silent".toList
    (maxBucket (.libc, libc) [(.os, os), (.crash, crash), (.miss, miss)], 0)

inductive Cell where
  | trap
  | noos
  | partially
  | libc
  | os
  | crash
  | miss
  deriving DecidableEq

/-- The cases of a class reduced to a cell and the percentages of the probabilistic ones. -/
def aggregate (config : Config) (cls : Text) (cases : List (List Row)) :
    Option (Cell × List Nat) :=
  if cases = [] then none
  else
    let outcomes := cases.map classifyCase
    let kinds := outcomes.map Prod.fst
    let probs := ((outcomes.filter fun o => o.1 = .prob).map Prod.snd).dedup.insertionSort (· ≤ ·)
    if kinds.all (· = .trap) then some (.trap, probs)
    else if config = .cheri && cheriNeedsRevocation cls && !kinds.any (fun k => k = .trap || k = .prob)
    then some (.noos, probs)
    else if kinds.any (fun k => k = .trap || k = .late || k = .prob) then some (.partially, probs)
    else if kinds.all (· = .libc) then some (.libc, probs)
    else if kinds.all (· = .os) then some (.os, probs)
    else if kinds.all (· = .crash) then some (.crash, probs)
    else some (.miss, probs)

/-- The cell of a class that the file of a configuration yields. -/
def cellOf (config : Config) (cls : Text) (file : Text) : Option (Cell × List Nat) := do
  let rows ← readRows file
  aggregate config cls (casesOf config cls rows)

/-! ## What the runner has written is read back -/

/-- The runs of a suite: every bug ran at least once, and the names and outcomes can be written
as fields. -/
structure Report where
  config : Text
  cases : List (Bug × List Outcome)
  config_plain : Csv.Plain config
  bug_plain : ∀ b ∈ cases, Csv.Plain b.1.id ∧ Csv.Plain b.1.cls
  outcome_plain : ∀ b ∈ cases, ∀ o ∈ b.2, o.Plain
  ids : (cases.map fun b => b.1.id).Nodup
  ran : ∀ b ∈ cases, b.2 ≠ []

def Report.file (r : Report) : Text := runSuite r.config r.cases

/-- The cases of a class that are counted for a column. -/
def Report.counted (r : Report) (column : Config) (cls : Text) : List (Bug × List Outcome) :=
  r.cases.filter fun b => !excluded column b.1.id && b.1.cls = cls

def rowsOf (b : Bug × List Outcome) : List Row :=
  (tally b.2).map fun t =>
    ⟨b.1.id, b.1.cls, t.o.outcome, t.o.detail, t.o.timing, t.count, b.2.length⟩

lemma parseRow_runBug (config : Text) (b : Bug) (t : Tally) (n : Nat) :
    parseRow csvHeader [config, b.id, b.cls, t.o.outcome, t.o.detail, t.o.timing, decimal t.count,
        decimal n] =
      some ⟨b.id, b.cls, t.o.outcome, t.o.detail, t.o.timing, t.count, n⟩ := by
  have hcount := parseNat_decimal t.count
  have hn := parseNat_decimal n
  simp [parseRow, csvHeader, List.lookup_cons, hcount, hn]

lemma mapM_eq_some {α β γ : Type} {f : α → Option β} {g : γ → α} {h : γ → β} {xs : List γ}
    (hf : ∀ x ∈ xs, f (g x) = some (h x)) : (xs.map g).mapM f = some (xs.map h) := by
  induction xs with
  | nil => rfl
  | cons x xs ih =>
    obtain ⟨hx, hxs⟩ := List.forall_mem_cons.mp hf
    simp [hx, ih hxs]

namespace Report

/-- The rows that the runner prints, each with the bucket that it shows. -/
def buckets (r : Report) : List ((Bug × List Outcome) × Tally) :=
  (r.cases.map fun b => (tally b.2).map fun t => (b, t)).flatten

lemma mem_buckets {r : Report} {x : (Bug × List Outcome) × Tally} (hx : x ∈ r.buckets) :
    x.1 ∈ r.cases ∧ x.2 ∈ tally x.1.2 := by
  obtain ⟨l, hl, hx⟩ := List.mem_flatten.mp hx
  obtain ⟨b, hb, rfl⟩ := List.mem_map.mp hl
  obtain ⟨t, ht, rfl⟩ := List.mem_map.mp hx
  exact ⟨hb, ht⟩

def bucketFields (config : Text) (x : (Bug × List Outcome) × Tally) : List Text :=
  [config, x.1.1.id, x.1.1.cls, x.2.o.outcome, x.2.o.detail, x.2.o.timing, decimal x.2.count,
    decimal x.1.2.length]

def bucketRow (x : (Bug × List Outcome) × Tally) : Row :=
  ⟨x.1.1.id, x.1.1.cls, x.2.o.outcome, x.2.o.detail, x.2.o.timing, x.2.count, x.1.2.length⟩

lemma plain_bucketFields {r : Report} {x : (Bug × List Outcome) × Tally} (hx : x ∈ r.buckets) :
    ∀ f ∈ bucketFields r.config x, Csv.Plain f := by
  obtain ⟨hb, ht⟩ := mem_buckets hx
  have hbug := r.bug_plain _ hb
  have ho := r.outcome_plain _ hb _ (tally_sound _ _ ht).1
  have hcount := (decimal_plain x.2.count).2
  have hruns := (decimal_plain x.1.2.length).2
  simp only [bucketFields, List.forall_mem_cons]
  exact ⟨r.config_plain, hbug.1, hbug.2, ho.outcome, ho.detail, ho.timing, hcount, hruns, by simp⟩

lemma readRows_file (r : Report) : readRows r.file = some ((r.cases.map rowsOf).flatten) := by
  have hprinted : (r.cases.map fun b => runBug r.config b.1 b.2).flatten =
      r.buckets.map (bucketFields r.config) := by
    rw [buckets, List.map_flatten, List.map_map]
    congr 1
    refine List.map_congr_left fun b _ => ?_
    simp [runBug, bucketFields]
  have hread : Csv.read r.file = csvHeader :: r.buckets.map (bucketFields r.config) := by
    rw [file, runSuite, hprinted]
    refine Csv.read_render ?_ ?_
    · intro fs hfs
      rcases List.mem_cons.mp hfs with rfl | hfs
      · decide
      · obtain ⟨x, -, rfl⟩ := List.mem_map.mp hfs
        exact Nat.le_add_left 2 6
    · intro fs hfs
      rcases List.mem_cons.mp hfs with rfl | hfs
      · decide
      · obtain ⟨x, hx, rfl⟩ := List.mem_map.mp hfs
        exact plain_bucketFields hx
  have hfilter : (r.buckets.map (bucketFields r.config)).filter (· ≠ []) =
      r.buckets.map (bucketFields r.config) := by
    refine List.filter_eq_self.mpr fun fs hfs => ?_
    obtain ⟨x, -, rfl⟩ := List.mem_map.mp hfs
    simp [bucketFields]
  have hrows : r.buckets.map bucketRow = (r.cases.map rowsOf).flatten := by
    rw [buckets, List.map_flatten, List.map_map]
    congr 1
    refine List.map_congr_left fun b _ => ?_
    simp [rowsOf, bucketRow]
  rw [readRows, hread]
  dsimp only
  rw [hfilter, ← hrows]
  exact mapM_eq_some fun x _ => parseRow_runBug r.config x.1.1 x.2 x.1.2.length

end Report

/-! ### Grouping -/

lemma addRow_new {cases : List (Text × List Row)} {row : Row} (h : row.bug ∉ cases.map Prod.fst) :
    addRow cases row = cases ++ [(row.bug, [row])] := by
  induction cases with
  | nil => rfl
  | cons c cases ih =>
    simp only [List.map_cons, List.mem_cons, not_or] at h
    rw [addRow, if_neg (Ne.symm h.1), ih h.2, List.cons_append]

lemma addRow_last {cases : List (Text × List Row)} {bug : Text} {rows : List Row} {row : Row}
    (h : bug ∉ cases.map Prod.fst) (hrow : row.bug = bug) :
    addRow (cases ++ [(bug, rows)]) row = cases ++ [(bug, rows ++ [row])] := by
  induction cases with
  | nil => rw [List.nil_append, addRow, if_pos hrow.symm, List.nil_append]
  | cons c cases ih =>
    simp only [List.map_cons, List.mem_cons, not_or] at h
    have hne : c.1 ≠ row.bug := fun heq => h.1 (hrow.symm.trans heq.symm)
    rw [List.cons_append, addRow, if_neg hne, ih h.2, List.cons_append]

/-- The rows of a bug that is new form a case of their own. -/
lemma foldl_addRow {cases : List (Text × List Row)} {bug : Text} {rows : List Row}
    (hne : rows ≠ []) (hrows : ∀ row ∈ rows, row.bug = bug) (h : bug ∉ cases.map Prod.fst) :
    rows.foldl addRow cases = cases ++ [(bug, rows)] := by
  induction rows using List.reverseRecOn with
  | nil => exact absurd rfl hne
  | append_singleton rows row ih =>
    have hrow : row.bug = bug := hrows row (by simp)
    rw [List.foldl_append, List.foldl_cons, List.foldl_nil]
    by_cases hnil : rows = []
    · subst hnil
      rw [List.foldl_nil, addRow_new (hrow ▸ h), hrow, List.nil_append]
    · rw [ih hnil (fun r hr => hrows r (by simp [hr])), addRow_last h hrow]

lemma rowsOf_ne_nil {b : Bug × List Outcome} (h : b.2 ≠ []) : rowsOf b ≠ [] := by
  intro hnil
  have ht : tally b.2 = [] := List.map_eq_nil_iff.mp hnil
  have hcount := counted_tally_all b.2
  rw [ht] at hcount
  exact h (List.length_eq_zero_iff.mp hcount.symm)

lemma casesOf_aux (column : Config) (cls : Text) {bs : List (Bug × List Outcome)}
    (hran : ∀ b ∈ bs, b.2 ≠ []) (hids : (bs.map fun b => b.1.id).Nodup)
    {cases : List (Text × List Row)} (hnew : ∀ b ∈ bs, b.1.id ∉ cases.map Prod.fst) :
    (((bs.map rowsOf).flatten.filter fun row =>
        !excluded column row.bug && row.cls = cls).foldl addRow cases) =
      cases ++ (bs.filter fun b => !excluded column b.1.id && b.1.cls = cls).map
        fun b => (b.1.id, rowsOf b) := by
  induction bs generalizing cases with
  | nil => simp
  | cons b bs ih =>
    obtain ⟨hb, hran⟩ := List.forall_mem_cons.mp hran
    obtain ⟨hbn, hnew⟩ := List.forall_mem_cons.mp hnew
    rw [List.map_cons, List.nodup_cons] at hids
    have hconst : ∀ row ∈ rowsOf b, row.bug = b.1.id ∧ row.cls = b.1.cls := by
      intro row hrow
      obtain ⟨t, -, rfl⟩ := List.mem_map.mp hrow
      exact ⟨rfl, rfl⟩
    rw [List.map_cons, List.flatten_cons, List.filter_append, List.foldl_append]
    by_cases hp : (!excluded column b.1.id && b.1.cls = cls) = true
    · have hall : (rowsOf b).filter (fun row => !excluded column row.bug && row.cls = cls) =
          rowsOf b := by
        refine List.filter_eq_self.mpr fun row hrow => ?_
        rw [(hconst row hrow).1, (hconst row hrow).2]
        exact hp
      rw [hall, foldl_addRow (rowsOf_ne_nil hb) (fun row hrow => (hconst row hrow).1) hbn,
        ih hran hids.2, List.filter_cons, if_pos hp, List.map_cons, List.append_assoc]
      · rfl
      · intro c hc
        rw [List.map_append, List.mem_append, not_or]
        refine ⟨hnew c hc, ?_⟩
        rw [List.map_singleton, List.mem_singleton]
        intro heq
        have hmem : c.1.id ∈ bs.map fun b => b.1.id := List.mem_map_of_mem hc
        rw [heq] at hmem
        exact hids.1 hmem
    · have hnone : (rowsOf b).filter (fun row => !excluded column row.bug && row.cls = cls) = [] := by
        refine List.filter_eq_nil_iff.mpr fun row hrow => ?_
        rw [(hconst row hrow).1, (hconst row hrow).2]
        exact hp
      rw [hnone, List.foldl_nil, ih hran hids.2 hnew, List.filter_cons, if_neg hp]

lemma Report.casesOf_rows (r : Report) (column : Config) (cls : Text) :
    casesOf column cls (r.cases.map rowsOf).flatten = (r.counted column cls).map rowsOf := by
  rw [casesOf, casesOf_aux column cls r.ran r.ids (by simp), List.nil_append, List.map_map]
  rfl

/-! ## What a cell says about the runs -/

def Outcome.HwTrap (o : Outcome) : Prop := o.outcome = "hw_trap".toList

def Outcome.Trapped (o : Outcome) : Prop := o.HwTrap ∧ o.timing = "access".toList

instance (o : Outcome) : Decidable o.HwTrap := inferInstanceAs (Decidable (_ = _))

instance (o : Outcome) : Decidable o.Trapped := inferInstanceAs (Decidable (_ ∧ _))

/-- What stopped a run. -/
inductive End where
  | trap
  | libc
  | os
  | crash
  | silent
  deriving DecidableEq

/-- A page fault on unmapped memory is told from the other crashes by its detail. -/
def Outcome.ending (o : Outcome) : Option End :=
  if o.outcome = "hw_trap".toList then some .trap
  else if o.outcome = "runtime_abort".toList then some .libc
  else if o.outcome = "crash".toList ∧ o.detail = "segv_maperr".toList then some .os
  else if o.outcome ∈ ["crash".toList, "hang".toList, "exit".toList, "unknown".toList] ∧
      o.detail ≠ "segv_maperr".toList then some .crash
  else if o.outcome = "silent".toList then some .silent
  else none

/-- The number of runs that ended in a way. -/
def freq (e : End) (os : List Outcome) : Nat := os.countP fun o => o.ending = some e

/-- The place of an end among equally frequent ones. -/
def End.rank : End → Nat
  | .libc => 0
  | .os => 1
  | .crash => 2
  | .silent => 3
  | .trap => 4

/-- No other way was more frequent. Of equally frequent ones the first prevails. -/
def Prevails (e : End) (os : List Outcome) : Prop :=
  ∀ e', freq e' os < freq e os ∨ freq e' os = freq e os ∧ e.rank ≤ e'.rank

lemma Prevails.unique {e e' : End} {os : List Outcome} (h : Prevails e os) (h' : Prevails e' os) :
    e = e' := by
  have hrank : e.rank = e'.rank := by
    have h1 := h e'
    have h2 := h' e
    omega
  cases e <;> cases e' <;> first | rfl | cases hrank

/-- The rows of a case count its runs. -/
structure RowsFaithful (os : List Outcome) (rows : List Row) : Prop where
  sum : total rows (fun _ => true) = os.length
  runs : ∀ row ∈ rows, row.runs = os.length
  share : os.toFinset.card ≤ maxDistinct →
    total rows (fun row => row.outcome = "hw_trap".toList) = os.countP (fun o => o.HwTrap)

/-- What a cell says about the runs of the cases of its class. -/
structure CellFaithful (cases : List (List Outcome)) (cell : Cell) : Prop where
  trap_of_all : (∀ os ∈ cases, ∀ o ∈ os, o.Trapped) → cell = .trap
  partially : cell = .partially → ∃ os ∈ cases, ∃ o ∈ os, o.HwTrap
  trap : (∀ os ∈ cases, os.toFinset.card ≤ maxDistinct) → cell = .trap →
    ∀ os ∈ cases, ∀ o ∈ os, o.Trapped
  miss : (∀ os ∈ cases, os.toFinset.card ≤ maxDistinct) → cell = .miss →
    (∃ os ∈ cases, ∀ e, e ≠ .silent → freq e os < freq .silent os) ∨
    ∃ os ∈ cases, ∃ os' ∈ cases, os ≠ os' ∧ ∃ e ∉ [End.trap, .silent], ∃ e' ∉ [End.trap, .silent],
      e ≠ e' ∧ Prevails e os ∧ Prevails e' os'

lemma total_rowsOf (b : Bug × List Outcome) (p : Row → Bool) (q : Outcome → Bool)
    (hpq : ∀ (bug cls : Text) (o : Outcome) (count runs : Nat),
      p ⟨bug, cls, o.outcome, o.detail, o.timing, count, runs⟩ = q o) :
    total (rowsOf b) p = counted q (tally b.2) := by
  rw [total, rowsOf, List.filter_map, List.map_map, counted]
  congr 1
  refine congrArg₂ _ ?_ ?_
  · rfl
  · refine List.filter_congr fun t _ => ?_
    exact hpq _ _ t.o _ _

lemma counted_le (p q : Outcome → Bool) (hpq : ∀ o, p o = true → q o = true) (t : List Tally) :
    counted p t ≤ counted q t := by
  induction t with
  | nil => simp
  | cons e t ih =>
    simp only [counted_cons]
    have he := hpq e.o
    by_cases hp : p e.o = true
    · simp only [hp, he hp, ite_true]
      omega
    · simp only [hp, Bool.false_eq_true, ite_false]
      omega

lemma counted_pos {p : Outcome → Bool} {t : List Tally} (h : 0 < counted p t) :
    ∃ e ∈ t, p e.o = true := by
  by_contra hc
  push Not at hc
  have hnone : t.filter (fun e => p e.o) = [] :=
    List.filter_eq_nil_iff.mpr fun e he => by simpa using hc e he
  rw [counted, hnone] at h
  simp at h

lemma counted_eq_of_forall {p : Outcome → Bool} {t : List Tally} (h : ∀ e ∈ t, p e.o = true) :
    counted p t = counted (fun _ => true) t := by
  rw [counted, counted, List.filter_eq_self.mpr h, List.filter_eq_self.mpr (fun _ _ => rfl)]

/-! ### One case -/

section
variable {b : Bug × List Outcome}

lemma head_rowsOf (hb : b.2 ≠ []) : ((rowsOf b).head?.map Row.runs).getD 0 = b.2.length := by
  cases hrows : rowsOf b with
  | nil => exact absurd hrows (rowsOf_ne_nil hb)
  | cons row rows =>
    have hmem : row ∈ rowsOf b := by
      rw [hrows]
      exact List.mem_cons_self ..
    obtain ⟨t, -, rfl⟩ := List.mem_map.mp hmem
    rfl

def detected (os : List Outcome) : Nat := counted (fun o => o.HwTrap) (tally os)

def stopped (e : End) (os : List Outcome) : Nat := counted (fun o => o.ending = some e) (tally os)

lemma ending_libc (o : Outcome) : o.ending = some .libc ↔ o.outcome = "runtime_abort".toList := by
  unfold Outcome.ending
  split_ifs <;> simp_all

lemma ending_os (o : Outcome) :
    o.ending = some .os ↔ o.outcome = "crash".toList ∧ o.detail = "segv_maperr".toList := by
  unfold Outcome.ending
  split_ifs <;> simp_all

lemma ending_crash (o : Outcome) : o.ending = some .crash ↔
    o.outcome ∈ ["crash".toList, "hang".toList, "exit".toList, "unknown".toList] ∧
      o.detail ≠ "segv_maperr".toList := by
  unfold Outcome.ending
  split_ifs <;> simp_all

lemma ending_silent (o : Outcome) : o.ending = some .silent ↔ o.outcome = "silent".toList := by
  unfold Outcome.ending
  split_ifs with h1 h2 h3 h4 h5
  · simp [h1]
  · simp [h2]
  · simp [h3.1]
  · simp only [reduceCtorEq, false_iff, Option.some.injEq]
    intro hs
    simp [hs] at h4
  · simp [h5]
  · simpa using h5

lemma ending_trap (o : Outcome) : o.ending = some .trap ↔ o.HwTrap := by
  unfold Outcome.ending Outcome.HwTrap
  split_ifs <;> simp_all

/-- The code's reduction of a case, in terms of the buckets of the runner. -/
lemma classifyCase_rowsOf (hb : b.2 ≠ []) : (classifyCase (rowsOf b)).1 =
    if detected b.2 = b.2.length then
      if counted (fun o => o.Trapped) (tally b.2) = b.2.length then .trap else .late
    else if 0 < detected b.2 then .prob
    else maxBucket (.libc, stopped .libc b.2)
      [(.os, stopped .os b.2), (.crash, stopped .crash b.2), (.miss, stopped .silent b.2)] := by
  have hdet : total (rowsOf b) (fun r => r.outcome = "hw_trap".toList) = detected b.2 :=
    total_rowsOf b _ _ fun _ _ _ _ _ => rfl
  have hacc : total (rowsOf b) (fun r => r.outcome = "hw_trap".toList && r.timing = "access".toList) =
      counted (fun o => o.Trapped) (tally b.2) :=
    total_rowsOf b _ _ fun _ _ o _ _ => by
      rw [Bool.eq_iff_iff, Bool.and_eq_true, decide_eq_true_eq, decide_eq_true_eq, decide_eq_true_eq]
      rfl
  have hlibc : total (rowsOf b) (fun r => r.outcome = "runtime_abort".toList) = stopped .libc b.2 :=
    total_rowsOf b _ _ fun _ _ o _ _ => by simp only [ending_libc]
  have hos : total (rowsOf b) (fun r => r.outcome = "crash".toList &&
      r.detail = "segv_maperr".toList) = stopped .os b.2 :=
    total_rowsOf b _ _ fun _ _ o _ _ => by simp only [ending_os, Bool.decide_and]
  have hcrash : total (rowsOf b) (fun r =>
      (["crash".toList, "hang".toList, "exit".toList, "unknown".toList].contains r.outcome) &&
        r.detail ≠ "segv_maperr".toList) = stopped .crash b.2 :=
    total_rowsOf b _ _ fun _ _ o _ _ => by
      simp only [ending_crash, Bool.decide_and, List.contains_eq_mem]
  have hmiss : total (rowsOf b) (fun r => r.outcome = "silent".toList) = stopped .silent b.2 :=
    total_rowsOf b _ _ fun _ _ o _ _ => by simp only [ending_silent]
  simp only [classifyCase, head_rowsOf hb, hdet, hacc, hlibc, hos, hcrash, hmiss]
  split_ifs <;> rfl

def Kind.ofEnd : End → Kind
  | .trap => .trap
  | .libc => .libc
  | .os => .os
  | .crash => .crash
  | .silent => .miss

/-- The buckets before the chosen one are smaller, and none of those behind it is larger. -/
lemma maxBucket_spec (best : Kind × Nat) (bs : List (Kind × Nat)) :
    ∃ pre x post, best :: bs = pre ++ x :: post ∧ maxBucket best bs = x.1 ∧
      (∀ y ∈ pre, y.2 < x.2) ∧ ∀ y ∈ post, y.2 ≤ x.2 := by
  induction bs generalizing best with
  | nil => exact ⟨[], best, [], rfl, rfl, by simp, by simp⟩
  | cons b bs ih =>
    rw [maxBucket]
    split_ifs with h
    · obtain ⟨pre, x, post, hlist, heq, hpre, hpost⟩ := ih b
      refine ⟨best :: pre, x, post, congrArg (best :: ·) hlist, heq, ?_, hpost⟩
      have hb : b.2 ≤ x.2 := by
        cases pre with
        | nil =>
          obtain ⟨rfl, -⟩ := List.cons.inj hlist
          exact le_refl _
        | cons y pre =>
          obtain ⟨rfl, -⟩ := List.cons.inj hlist
          exact (hpre b (List.mem_cons_self ..)).le
      exact List.forall_mem_cons.mpr ⟨h.trans_le hb, hpre⟩
    · obtain ⟨pre, x, post, hlist, heq, hpre, hpost⟩ := ih best
      cases pre with
      | nil =>
        obtain ⟨rfl, rfl⟩ := List.cons.inj hlist
        exact ⟨[], best, b :: bs, rfl, heq, hpre, List.forall_mem_cons.mpr ⟨not_lt.mp h, hpost⟩⟩
      | cons y pre =>
        obtain ⟨rfl, rfl⟩ := List.cons.inj hlist
        obtain ⟨hbest, hpre⟩ := List.forall_mem_cons.mp hpre
        exact ⟨best :: b :: pre, x, post, rfl, heq, List.forall_mem_cons.mpr
          ⟨hbest, List.forall_mem_cons.mpr ⟨(not_lt.mp h).trans_lt hbest, hpre⟩⟩, hpost⟩

/-- The bucket of the end that prevails. -/
lemma maxBucket_ends (f : End → Nat) :
    ∃ e, e ≠ .trap ∧
      maxBucket (.libc, f .libc) [(.os, f .os), (.crash, f .crash), (.miss, f .silent)] = .ofEnd e ∧
      ∀ e', e' ≠ .trap → f e' < f e ∨ f e' = f e ∧ e.rank ≤ e'.rank := by
  obtain ⟨pre, x, post, hlist, heq, hpre, hpost⟩ := maxBucket_spec (.libc, f .libc)
    [(.os, f .os), (.crash, f .crash), (.miss, f .silent)]
  change [End.libc, .os, .crash, .silent].map (fun e => (Kind.ofEnd e, f e)) = _ at hlist
  obtain ⟨es, fs, hends, rfl, htail⟩ := List.map_eq_append_iff.mp hlist
  obtain ⟨e, fs, rfl, rfl, rfl⟩ := List.map_eq_cons_iff.mp htail
  have hsorted : (es ++ e :: fs).Pairwise (fun a b => a.rank ≤ b.rank) := by
    rw [← hends]
    decide
  have hmem : ∀ e', e' ≠ .trap ↔ e' ∈ es ++ e :: fs := by
    rw [← hends]
    intro e'
    cases e' <;> decide
  refine ⟨e, (hmem e).mpr (by simp), heq, fun e' he' => ?_⟩
  rcases List.mem_append.mp ((hmem e').mp he') with h | h
  · exact Or.inl (hpre _ (List.mem_map_of_mem h))
  · rcases List.mem_cons.mp h with rfl | h
    · exact Or.inr ⟨rfl, le_refl _⟩
    · rcases (hpost _ (List.mem_map_of_mem h)).lt_or_eq with hlt | heq'
      · exact Or.inl hlt
      · have htail := (List.pairwise_append.mp hsorted).2.1
        exact Or.inr ⟨heq', (List.pairwise_cons.mp htail).1 e' h⟩

/-- Without a trap, the kind of a case is the end that prevails. -/
lemma kind_cases (hb : b.2 ≠ []) :
    ((classifyCase (rowsOf b)).1 ∈ [Kind.trap, .late, .prob] ∧ 0 < detected b.2) ∨
    detected b.2 = 0 ∧ ∃ e, e ≠ .trap ∧ (classifyCase (rowsOf b)).1 = .ofEnd e ∧
      ∀ e', e' ≠ .trap → stopped e' b.2 < stopped e b.2 ∨
        stopped e' b.2 = stopped e b.2 ∧ e.rank ≤ e'.rank := by
  have hlen : 0 < b.2.length := List.length_pos_iff.mpr hb
  rw [classifyCase_rowsOf hb]
  by_cases h1 : detected b.2 = b.2.length
  · left
    rw [if_pos h1]
    refine ⟨?_, by omega⟩
    split_ifs <;> simp
  · rw [if_neg h1]
    by_cases h2 : 0 < detected b.2
    · left
      rw [if_pos h2]
      exact ⟨by simp, h2⟩
    · right
      rw [if_neg h2]
      exact ⟨by omega, maxBucket_ends fun e => stopped e b.2⟩

lemma kind_trap_iff (hb : b.2 ≠ []) : (classifyCase (rowsOf b)).1 = .trap ↔
    counted (fun o => o.Trapped) (tally b.2) = b.2.length := by
  have hall := counted_tally_all b.2
  have h1 := counted_le (fun o => o.Trapped) (fun o => o.HwTrap)
    (fun o h => by simpa using (of_decide_eq_true h).1) (tally b.2)
  have h2 := counted_le (fun o => o.HwTrap) (fun _ => true) (fun _ _ => rfl) (tally b.2)
  rw [hall] at h2
  rw [classifyCase_rowsOf hb]
  constructor
  · intro h
    split_ifs at h with h3 h4 h5
    · exact h4
    · obtain ⟨e, he, heq, -⟩ := maxBucket_ends fun e => stopped e b.2
      rw [heq] at h
      cases e <;> cases h
      exact absurd rfl he
  · intro h
    have hdet : detected b.2 = b.2.length := le_antisymm h2 (by rw [← h]; exact h1)
    rw [if_pos hdet, if_pos h]

lemma stopped_eq (h : b.2.toFinset.card ≤ maxDistinct) (e : End) : stopped e b.2 = freq e b.2 :=
  (tally_exact h).2 _

lemma rows_faithful (b : Bug × List Outcome) : RowsFaithful b.2 (rowsOf b) := by
  refine ⟨?_, ?_, ?_⟩
  · rw [total_rowsOf b _ (fun _ => true) fun _ _ _ _ _ => rfl, counted_tally_all]
  · intro row hrow
    obtain ⟨t, -, rfl⟩ := List.mem_map.mp hrow
    rfl
  · intro h
    rw [total_rowsOf b _ (fun o => o.HwTrap) fun _ _ _ _ _ => rfl]
    exact (tally_exact h).2 _

lemma kind_trap_of_all (hb : b.2 ≠ []) (h : ∀ o ∈ b.2, o.Trapped) :
    (classifyCase (rowsOf b)).1 = .trap := by
  rw [kind_trap_iff hb, ← counted_tally_all]
  exact counted_eq_of_forall fun e he => decide_eq_true (h _ (tally_sound _ e he).1)

lemma trapped_of_kind (hb : b.2 ≠ []) (hexact : b.2.toFinset.card ≤ maxDistinct)
    (h : (classifyCase (rowsOf b)).1 = .trap) : ∀ o ∈ b.2, o.Trapped := by
  rw [kind_trap_iff hb, (tally_exact hexact).2, List.countP_eq_length] at h
  exact fun o ho => of_decide_eq_true (h o ho)

lemma hwTrap_of_detected (h : 0 < detected b.2) : ∃ o ∈ b.2, o.HwTrap := by
  obtain ⟨e, he, hp⟩ := counted_pos h
  exact ⟨e.o, (tally_sound _ e he).1, of_decide_eq_true hp⟩

/-- The kind of a case without a trap, as long as the buckets are exact. -/
lemma ends_of_kind (hb : b.2 ≠ []) (hexact : b.2.toFinset.card ≤ maxDistinct)
    (h : (classifyCase (rowsOf b)).1 ∉ [Kind.trap, .late, .prob]) :
    (∀ e, e ≠ .silent → freq e b.2 < freq .silent b.2) ∨
      ∃ e ∉ [End.trap, .silent], (classifyCase (rowsOf b)).1 = .ofEnd e ∧ Prevails e b.2 := by
  rcases kind_cases hb with ⟨hk, -⟩ | ⟨hzero, e, he, hk, hmax⟩
  · exact absurd hk h
  · simp only [stopped_eq hexact] at hmax
    have htrap : freq .trap b.2 = 0 := by
      rw [← hzero, detected, (tally_exact hexact).2, freq]
      exact List.countP_congr fun o _ => by simp [ending_trap]
    by_cases hs : e = .silent
    · left
      subst hs
      have hlt : ∀ e', e' ≠ .trap → e' ≠ .silent → freq e' b.2 < freq .silent b.2 := by
        intro e' ht hne
        refine (hmax e' ht).resolve_right ?_
        rintro ⟨-, hrank⟩
        cases e' <;> simp_all [End.rank]
      intro e' he'
      by_cases ht : e' = .trap
      · have hlibc := hlt .libc (by decide) (by decide)
        rw [ht, htrap]
        omega
      · exact hlt e' ht he'
    · right
      refine ⟨e, by simp [he, hs], hk, fun e' => ?_⟩
      by_cases ht : e' = .trap
      · rw [ht, htrap]
        rcases Nat.eq_zero_or_pos (freq e b.2) with h0 | hpos
        · exact Or.inr ⟨h0.symm, by cases e <;> decide⟩
        · exact Or.inl hpos
      · exact hmax e' ht

end

/-! ### One cell -/

theorem aggregate_faithful {column : Config} {cls : Text} {bs : List (Bug × List Outcome)}
    (hne : bs ≠ []) (hran : ∀ b ∈ bs, b.2 ≠ []) :
    ∃ cell probs, aggregate column cls (bs.map rowsOf) = some (cell, probs) ∧
      CellFaithful (bs.map Prod.snd) cell := by
  set kind : Bug × List Outcome → Kind := fun b => (classifyCase (rowsOf b)).1 with hkind
  have hkinds : ((bs.map rowsOf).map classifyCase).map Prod.fst = bs.map kind := by
    simp [hkind]
  have hall : ∀ k, ((bs.map kind).all (· = k)) = true ↔ ∀ b ∈ bs, kind b = k := by
    simp
  have hdetected : ∀ b ∈ bs, kind b ∈ [Kind.trap, .late, .prob] → ∃ o ∈ b.2, o.HwTrap := by
    intro b hb hk
    rcases kind_cases (hran b hb) with ⟨-, hpos⟩ | ⟨-, e, he, heq, -⟩
    · exact hwTrap_of_detected hpos
    · rw [hkind] at hk
      simp only [heq] at hk
      cases e <;> simp_all [Kind.ofEnd]
  -- the cell is not that of the other branches
  have hrest : ∀ cell : Cell, cell ≠ .trap → (∃ b ∈ bs, kind b ≠ .trap) →
      (cell = .partially → ∃ b ∈ bs, kind b ∈ [Kind.trap, .late, .prob]) →
      (cell = .miss → (∀ b ∈ bs, kind b ∉ [Kind.trap, .late, .prob]) ∧
        ∀ e, e ≠ .silent → ∃ b ∈ bs, kind b ≠ .ofEnd e) →
      CellFaithful (bs.map Prod.snd) cell := by
    intro cell hcell hnot hpart hmiss
    refine ⟨?_, ?_, fun _ h => absurd h hcell, ?_⟩
    · intro h
      obtain ⟨b, hb, hk⟩ := hnot
      exact absurd (kind_trap_of_all (hran b hb) (h b.2 (List.mem_map_of_mem hb))) hk
    · intro h
      obtain ⟨b, hb, hk⟩ := hpart h
      exact ⟨b.2, List.mem_map_of_mem hb, hdetected b hb hk⟩
    · intro hexact h
      obtain ⟨hno, hdiff⟩ := hmiss h
      have hends := fun b (hb : b ∈ bs) =>
        ends_of_kind (hran b hb) (hexact b.2 (List.mem_map_of_mem hb)) (hno b hb)
      obtain ⟨b, bs', rfl⟩ := List.exists_cons_of_ne_nil hne
      rcases hends b (by simp) with hs | ⟨e, he, hk, hprev⟩
      · exact Or.inl ⟨b.2, by simp, hs⟩
      · obtain ⟨c, hc, hkc⟩ := hdiff e (fun hs => he (by simp [hs]))
        rcases hends c hc with hs | ⟨e', he', hk', hprev'⟩
        · exact Or.inl ⟨c.2, List.mem_map_of_mem hc, hs⟩
        · have hne : e ≠ e' := by
            rintro rfl
            exact hkc hk'
          refine Or.inr ⟨b.2, by simp, c.2, List.mem_map_of_mem hc, fun heq => ?_, e, he, e', he',
            hne, hprev, hprev'⟩
          exact hne (hprev.unique (heq ▸ hprev'))
  rw [aggregate, if_neg (by simpa using hne)]
  dsimp only
  rw [hkinds]
  by_cases h1 : ((bs.map kind).all (· = .trap)) = true
  · rw [if_pos h1]
    have htrap := (hall .trap).mp h1
    refine ⟨.trap, _, rfl, fun _ => rfl, fun h => absurd h (by decide), ?_, fun _ h =>
      absurd h (by decide)⟩
    intro hexact _ os hos
    obtain ⟨b, hb, rfl⟩ := List.mem_map.mp hos
    exact trapped_of_kind (hran b hb) (hexact b.2 hos) (htrap b hb)
  · rw [if_neg h1]
    have hnot : ∃ b ∈ bs, kind b ≠ .trap := by
      by_contra hc
      push Not at hc
      exact h1 ((hall .trap).mpr hc)
    split_ifs with h2 h3 h4 h5 h6
    · exact ⟨_, _, rfl, hrest .noos (by decide) hnot (by simp) (by simp)⟩
    · refine ⟨_, _, rfl, hrest .partially (by decide) hnot (fun _ => ?_) (by simp)⟩
      simpa [or_assoc] using h3
    · exact ⟨_, _, rfl, hrest .libc (by decide) hnot (by simp) (by simp)⟩
    · exact ⟨_, _, rfl, hrest .os (by decide) hnot (by simp) (by simp)⟩
    · exact ⟨_, _, rfl, hrest .crash (by decide) hnot (by simp) (by simp)⟩
    · refine ⟨_, _, rfl, hrest .miss (by decide) hnot (by simp) (fun _ => ⟨?_, ?_⟩)⟩
      · simpa [or_assoc] using h3
      · intro e he
        by_contra hc
        push Not at hc
        cases e with
        | trap => exact h1 ((hall _).mpr hc)
        | libc => exact h4 ((hall _).mpr hc)
        | os => exact h5 ((hall _).mpr hc)
        | crash => exact h6 ((hall _).mpr hc)
        | silent => exact he rfl

def silentRun : Outcome := classify none ⟨2, 0, 0⟩ (.exited exitObsBase) []

def abortedRun : Outcome :=
  classify none ⟨1, 0, 0⟩ (.signaled sigabrt) "free(): double free detected".toList

def faultingRun : Outcome := classify none ⟨1, sigsegv, segvMaperr⟩ (.exited exitTrapped) []

def trappedRun (code : Nat) : Outcome := classify (some 34) ⟨1, 34, code⟩ (.exited exitTrapped) []

def nullDeref : Bug := ⟨"null_deref".toList, "Null pointer dereference".toList⟩

def nullWrite : Bug := ⟨"null_write".toList, "Null pointer dereference".toList⟩

/-- One case is stopped by the C library, the other by a page fault. -/
def mixedReport : Report where
  config := "mte".toList
  cases := [(nullDeref, [abortedRun, abortedRun]), (nullWrite, [faultingRun, faultingRun])]
  config_plain := by decide
  bug_plain := by decide
  outcome_plain := by
    have haborted : abortedRun.Plain := classify_plain _ _ _ (by decide)
    have hfaulting : faultingRun.Plain := classify_plain _ _ _ List.not_mem_nil
    simp [haborted, hfaulting]
  ids := by decide
  ran := by decide

/-- Sixteen different traps and a silent run, which is counted as one more trap. -/
def crowdedReport : Report where
  config := "cheri".toList
  cases := [(nullDeref, (List.range 16).map trappedRun ++ [silentRun])]
  config_plain := by decide
  bug_plain := by decide
  outcome_plain := by
    intro b hb o ho
    obtain rfl := List.mem_singleton.mp hb
    rcases List.mem_append.mp ho with ho | ho
    · obtain ⟨code, -, rfl⟩ := List.mem_map.mp ho
      exact classify_plain _ _ _ List.not_mem_nil
    · obtain rfl := List.mem_singleton.mp ho
      exact classify_plain _ _ _ List.not_mem_nil
  ids := by decide
  ran := by decide

end MemSafeDB.BugClasses
