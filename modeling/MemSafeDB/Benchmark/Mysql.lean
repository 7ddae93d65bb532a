import MemSafeDB.Benchmark.Quarters

/-!
# The runs of MySQL

`run_mysql` announces each of its runs by a line with the label of the variant. The parser
collects what stands behind each label, and what stands before the first one as a run of its own,
and then goes through the first two of these runs only. So the results of a labelled run are
passed over if two runs stand before it, and the text before the first label counts as one.
-/

namespace MemSafeDB.Benchmark
open Lib

variable (T : Tables) {ν : Type} (F : ParserFloats ν) (repetition : Int)

/-! ## The parser -/

/-- `[\d.]` -/
def isNumeral (c : Char) : Bool := T.isDigit c || c == '.'

/-- `tps_pattern` and `qps_pattern` -/
def sysbenchRate (name : String) : Pattern :=
  Pattern.literal name ++ blanks :: .many false T.isDigit :: blanks ::
    (Pattern.literal "(" ++ .many true (isNumeral T) :: Pattern.literal " per sec.)")

/-- `lat_avg_pattern` and its siblings -/
def sysbenchLatency (name : String) : Pattern :=
  .any Text.isSpace :: (Pattern.literalIgnoreCase name ++ [blanks, .many true (isNumeral T)])

/-- `marker_pattern` of MySQL -/
def mysqlMarker : Pattern :=
  Pattern.literalIgnoreCase "=== Running mysql (" ++
    .many true (fun c => c != ')') :: Pattern.literal ") ==="

/-- A run: its label, if it has one, and its output. -/
abbrev MysqlRun := Option Text × Text

/-- `runs`, `current_label` and `current_lines` -/
structure MysqlRuns where
  runs : List MysqlRun
  currentLabel : Option Text
  currentLines : List Text

/-- The runs up to the current one, which counts if it has a line. -/
def MysqlRuns.closed (st : MysqlRuns) : List MysqlRun :=
  if st.currentLines = [] then st.runs
  else st.runs ++ [(st.currentLabel, Text.joinLines st.currentLines)]

def collectStep (st : MysqlRuns) (line : Text) : MysqlRuns :=
  match mysqlMarker.matchLine (Text.strip line) with
  | some m => ⟨st.closed, some (lower (Text.strip (m.headD []))), []⟩
  | none => { st with currentLines := st.currentLines ++ [line] }

/-- The runs that the loop goes through. -/
def mysqlRuns (output : Text) : List MysqlRun :=
  let runs := ((Text.splitLines output).foldl collectStep ⟨[], none, []⟩).closed
  if runs.any fun run => run.1.getD [] ≠ [] then runs
  else ((Text.split "SQL statistics:".toList output).filter fun c => Text.strip c ≠ []).map
    fun chunk => (none, chunk)

/-- `variants` of MySQL -/
def mysqlVariants : List String := ["release", "release-mte"]

/-- The label overrides the variant. An empty label holds neither of the two texts. -/
def mysqlVariant (variant : String) (label : Option Text) : String :=
  let label := label.getD []
  if "mte".toList <:+: label then "release-mte"
  else if "release".toList <:+: label then "release"
  else variant

def mysqlMetric (variant metricName : String) (value : ν) (unit : String) : Metric ν where
  database := "mysql"
  variant := variant.toList
  benchmark := "sysbench"
  workload := "oltp_read_write".toList
  metricName := metricName
  metricValue := .inl value
  unit := unit
  repetition := repetition

/-- The row of a rate, if the output has it. -/
def rateRow (variant name metricName unit : String) (output : Text) : Option (List (Metric ν)) :=
  match (sysbenchRate T name).search output with
  | none => some []
  | some m => do
    let value ← F.float (m.headD [])
    pure [mysqlMetric repetition variant metricName value unit]

/-- `lat_avg_match`, `lat_95_match` or `lat_99_match`, with the name of the metric. -/
def latencyMatch (line : Text) : Option (String × Text) :=
  match (sysbenchLatency T "avg:").matchAt line with
  | some (m, _) => some ("latency_avg", m.headD [])
  | none =>
    match (sysbenchLatency T "95th percentile:").matchAt line with
    | some (m, _) => some ("latency_p95", m.headD [])
    | none =>
      ((sysbenchLatency T "99th percentile:").matchAt line).map fun m =>
        ("latency_p99", m.1.headD [])

/-- Whether a line begins the latencies. -/
def opensLatency (line : Text) : Bool := "Latency (ms):".toList.isPrefixOf (Text.strip line)

/-- Whether a line ends them. -/
def closesLatency (line : Text) : Bool :=
  Text.strip line = [] || "Threads fairness:".toList.isPrefixOf (Text.strip line)

/-- The state is `in_latency`. -/
def latencyStep (variant : String) : Lines.Step Bool (Metric ν) := fun inLatency line =>
  let line := Text.rstrip line
  if opensLatency line then some (true, [])
  else if inLatency && closesLatency line then some (false, [])
  else if !inLatency then some (false, [])
  else
    match latencyMatch T line with
    | none => some (true, [])
    | some (metricName, value) => do
      let value ← F.float value
      pure (true, [mysqlMetric repetition variant metricName value "ms"])

/-- The rows of a run. -/
def runRows (variant : String) (output : Text) : Option (List (Metric ν)) := do
  let tps ← rateRow T F repetition variant "transactions:" "tps" "txn/sec" output
  let qps ← rateRow T F repetition variant "queries:" "qps" "queries/sec" output
  let latencies ← Lines.read (latencyStep T F repetition variant) false output
  pure (tps ++ qps ++ latencies)

/-- The loop over the runs, which breaks where the variants end. -/
def mysqlRows : (varIdx : Nat) → List MysqlRun → Option (List (Metric ν))
  | _, [] => some []
  | varIdx, run :: runs =>
    match mysqlVariants[varIdx]? with
    | none => some []
    | some variant => do
      let rows ← runRows T F repetition (mysqlVariant variant run.1) run.2
      let rest ← mysqlRows (varIdx + 1) runs
      pure (rows ++ rest)

/-- `parse_mysql_output` -/
def parseMysqlOutput (output : Text) : Option (List (Metric ν)) :=
  mysqlRows T F repetition 0 (mysqlRuns output)

/-! ## Outputs -/

/-- The labels that `run_mysql` prints. -/
inductive MysqlLabel where
  | release
  | releaseMte
  deriving DecidableEq, Repr

/-- The label, which is the name of the variant too. -/
def MysqlLabel.name : MysqlLabel → String
  | release => "release"
  | releaseMte => "release-mte"

/-- `echo "=== Running mysql (${label}) ==="` -/
def MysqlLabel.marker (label : MysqlLabel) : Text :=
  "=== Running mysql (".toList ++ label.name.toList ++ ") ===".toList

structure MysqlSection where
  label : MysqlLabel
  /-- what the run prints behind its label -/
  lines : List Text

namespace MysqlSection

def text (s : MysqlSection) : Text := Text.joinLines s.lines

/-- The rows of the section: its rates and latencies, for the variant of its label. -/
def rows (s : MysqlSection) : Option (List (Metric ν)) :=
  runRows T F repetition s.label.name s.text

end MysqlSection

/-- Nothing is announced by the line. -/
def Unlabelled (line : Text) : Prop := mysqlMarker.matchLine (Text.strip line) = none

instance : DecidablePred Unlabelled := fun _ => inferInstanceAs (Decidable (_ = _))

/-- Some line of a block of latencies has one. -/
def HasLatency : (inLatency : Bool) → List Text → Prop
  | _, [] => False
  | inLatency, line :: lines =>
    if opensLatency (Text.rstrip line) then HasLatency true lines
    else if closesLatency (Text.rstrip line) then HasLatency false lines
    else (inLatency = true ∧ (latencyMatch T (Text.rstrip line)).isSome = true) ∨
      HasLatency inLatency lines

/-- A text without sysbench results. -/
structure WithoutResults (text : Text) : Prop where
  tps : (sysbenchRate T "transactions:").search text = none
  qps : (sysbenchRate T "queries:").search text = none
  latency : ¬HasLatency T false (Text.splitLines text)

/-- A text with neither of the rates and no heading of latencies. -/
structure Plain (text : Text) : Prop where
  tps : (sysbenchRate T "transactions:").search text = none
  qps : (sysbenchRate T "queries:").search text = none
  heading : ¬"Latency (ms):".toList <:+: text

/-- What `run_mysql` prints, behind some lines that it does not announce. -/
structure MysqlOutput where
  before : List Text
  sections : List MysqlSection
  noNewline : ∀ line ∈ before ++ sections.flatMap MysqlSection.lines, '\n' ∉ line
  unlabelled : ∀ line ∈ before ++ sections.flatMap MysqlSection.lines, Unlabelled line
  before_plain : Plain T (Text.joinLines before)

/-- The rows of some sections, one after the other. -/
def sectionRows : List MysqlSection → Option (List (Metric ν))
  | [] => some []
  | s :: ss => do
    let rows ← s.rows T F repetition
    let rest ← sectionRows ss
    pure (rows ++ rest)

namespace MysqlOutput

variable {T} (o : MysqlOutput T)

def lines : List Text := o.before ++ o.sections.flatMap fun s => s.label.marker :: s.lines

def output : Text := Text.joinLines o.lines

/-- The rows of all sections. -/
def rows : Option (List (Metric ν)) := sectionRows T F repetition o.sections

/-- The sections that the parser takes for runs: those with a line. -/
def runSections : List MysqlSection := o.sections.filter fun s => s.lines ≠ []

/-- How many of them the loop comes to: what stands before the first label is a run, too. -/
def reached : Nat := if o.before = [] then 2 else 1

/-- The sections with two runs before them. -/
def overlooked : List MysqlSection := o.runSections.drop o.reached

end MysqlOutput

/-! ## The rows of a run -/

section Rows

variable {T F repetition} {variant : String} {text : Text}

lemma rateRow_of_none {name metricName unit : String}
    (h : (sysbenchRate T name).search text = none) :
    rateRow T F repetition variant name metricName unit text = some [] := by
  rw [rateRow, h]

lemma rateRow_ne_nil {name metricName unit : String} {rows : List (Metric ν)}
    (h : (sysbenchRate T name).search text ≠ none)
    (hrows : rateRow T F repetition variant name metricName unit text = some rows) :
    rows ≠ [] := by
  obtain ⟨m, hm⟩ := Option.ne_none_iff_exists'.mp h
  rw [rateRow, hm] at hrows
  obtain ⟨value, -, hvalue⟩ := Option.bind_eq_some_iff.mp hrows
  obtain rfl := Option.some.inj hvalue
  exact List.cons_ne_nil _ _

/-- A block of latencies without one gives no rows. -/
lemma run_latencyStep {inLatency : Bool} {lines : List Text} (h : ¬HasLatency T inLatency lines) :
    ∃ b, Lines.run (latencyStep T F repetition variant) inLatency lines = some (b, []) := by
  induction lines generalizing inLatency with
  | nil => exact ⟨inLatency, rfl⟩
  | cons line lines ih =>
    have hstep : ∀ b, ¬HasLatency T b lines →
        latencyStep T F repetition variant inLatency line = some (b, []) →
        ∃ b', Lines.run (latencyStep T F repetition variant) inLatency (line :: lines) =
          some (b', []) := by
      intro b hb hline
      obtain ⟨b', hb'⟩ := ih hb
      exact ⟨b', Lines.run_cons.mpr ⟨b, [], [], hline, hb', rfl⟩⟩
    rw [HasLatency] at h
    split_ifs at h with hopens hcloses
    · apply hstep true h
      simp [latencyStep, hopens]
    · apply hstep false h
      cases inLatency <;> simp [latencyStep, hopens, hcloses]
    · obtain ⟨hmatch, hrest⟩ := not_or.mp h
      apply hstep inLatency hrest
      cases inLatency with
      | false => simp [latencyStep, hopens]
      | true =>
        have hnone : latencyMatch T (Text.rstrip line) = none := by simpa using hmatch
        simp [latencyStep, hopens, hcloses, hnone]

/-- One with a latency gives a row, if its numbers can be read. -/
lemma run_latencyStep_ne_nil {inLatency : Bool} {lines : List Text}
    (h : HasLatency T inLatency lines) {r : Bool × List (Metric ν)}
    (hr : Lines.run (latencyStep T F repetition variant) inLatency lines = some r) : r.2 ≠ [] := by
  induction lines generalizing inLatency r with
  | nil => exact h.elim
  | cons line lines ih =>
    obtain ⟨b, rows, rest, hline, hrest, hrows⟩ := Lines.run_cons.mp hr
    have hbehind : HasLatency T b lines → r.2 ≠ [] := by
      intro hb hnil
      rw [hrows, List.append_eq_nil_iff] at hnil
      exact ih hb hrest hnil.2
    rw [HasLatency] at h
    split_ifs at h with hopens hcloses
    · apply hbehind
      obtain ⟨rfl, -⟩ : true = b ∧ [] = rows := by simpa [latencyStep, hopens] using hline
      exact h
    · apply hbehind
      obtain ⟨rfl, -⟩ : false = b ∧ [] = rows := by
        cases inLatency <;> simpa [latencyStep, hopens, hcloses] using hline
      exact h
    · cases inLatency with
      | false =>
        apply hbehind
        obtain ⟨rfl, -⟩ : false = b ∧ [] = rows := by simpa [latencyStep, hopens] using hline
        simpa using h
      | true =>
        cases hmatch : latencyMatch T (Text.rstrip line) with
        | none =>
          apply hbehind
          obtain ⟨rfl, -⟩ : true = b ∧ [] = rows := by
            simpa [latencyStep, hopens, hcloses, hmatch] using hline
          simpa [hmatch] using h
        | some m =>
          simp only [latencyStep, hopens, hcloses, hmatch, Bool.and_false, Bool.not_true,
            Bool.false_eq_true, if_false] at hline
          obtain ⟨value, -, hvalue⟩ := Option.bind_eq_some_iff.mp hline
          obtain ⟨-, rfl⟩ := Prod.mk.inj (Option.some.inj hvalue)
          rw [hrows]
          exact List.cons_ne_nil _ _

lemma WithoutResults.runRows_eq (h : WithoutResults T text) :
    runRows T F repetition variant text = some [] := by
  obtain ⟨b, hb⟩ : ∃ b, Lines.run (latencyStep T F repetition variant) false
      (Text.splitLines text) = some (b, []) := run_latencyStep h.latency
  rw [runRows, rateRow_of_none h.tps, rateRow_of_none h.qps, Lines.read, hb]
  rfl

/-- A run gives no rows exactly if it has no results. -/
lemma runRows_eq_nil_iff {rows : List (Metric ν)}
    (h : runRows T F repetition variant text = some rows) : rows = [] ↔ WithoutResults T text := by
  constructor
  · rintro rfl
    obtain ⟨tps, htps, h⟩ := Option.bind_eq_some_iff.mp h
    obtain ⟨qps, hqps, h⟩ := Option.bind_eq_some_iff.mp h
    obtain ⟨latencies, hlat, h⟩ := Option.bind_eq_some_iff.mp h
    have hnil := Option.some.inj h
    rw [List.append_eq_nil_iff, List.append_eq_nil_iff] at hnil
    obtain ⟨⟨rfl, rfl⟩, rfl⟩ := hnil
    obtain ⟨r, hr, hnil⟩ := Option.map_eq_some_iff.mp hlat
    refine ⟨?_, ?_, fun hlatency => run_latencyStep_ne_nil hlatency hr hnil⟩
    · by_contra hne
      exact rateRow_ne_nil hne htps rfl
    · by_contra hne
      exact rateRow_ne_nil hne hqps rfl
  · intro hwithout
    rw [hwithout.runRows_eq] at h
    exact (Option.some.inj h).symm

/-- What the rows of a run have in common. -/
def IsRowOf (variant : String) (names : List String) (m : Metric ν) : Prop :=
  m.variant = variant.toList ∧ m.metricName ∈ names

lemma isRowOf_rateRow {name metricName unit : String} {rows : List (Metric ν)}
    (h : rateRow T F repetition variant name metricName unit text = some rows) :
    ∀ m ∈ rows, IsRowOf variant [metricName] m := by
  rw [rateRow] at h
  split at h
  · obtain rfl := Option.some.inj h
    exact fun m hm => absurd hm List.not_mem_nil
  · obtain ⟨value, -, hvalue⟩ := Option.bind_eq_some_iff.mp h
    obtain rfl := Option.some.inj hvalue
    intro m hm
    obtain rfl := List.mem_singleton.mp hm
    exact ⟨rfl, List.mem_singleton_self _⟩

lemma latencyMatch_name {line : Text} {m : String × Text} (h : latencyMatch T line = some m) :
    m.1 ∈ ["latency_avg", "latency_p95", "latency_p99"] := by
  rw [latencyMatch] at h
  split at h
  · obtain rfl := Option.some.inj h
    exact List.mem_cons_self
  · split at h
    · obtain rfl := Option.some.inj h
      simp
    · obtain ⟨m', -, rfl⟩ := Option.map_eq_some_iff.mp h
      simp

lemma isRowOf_latencyStep {inLatency : Bool} {lines : List Text} {r : Bool × List (Metric ν)}
    (h : Lines.run (latencyStep T F repetition variant) inLatency lines = some r) :
    ∀ m ∈ r.2, IsRowOf variant ["latency_avg", "latency_p95", "latency_p99"] m := by
  induction lines generalizing inLatency r with
  | nil =>
    obtain rfl := Option.some.inj h
    exact fun m hm => absurd hm List.not_mem_nil
  | cons line lines ih =>
    obtain ⟨b, rows, rest, hline, hrest, hrows⟩ := Lines.run_cons.mp h
    rw [hrows]
    refine List.forall_mem_append.mpr ⟨?_, ih hrest⟩
    have hnil : rows = [] → ∀ m ∈ rows,
        IsRowOf variant ["latency_avg", "latency_p95", "latency_p99"] m := by
      rintro rfl m hm
      cases hm
    simp only [latencyStep] at hline
    split_ifs at hline
    · exact hnil (Prod.mk.inj (Option.some.inj hline)).2.symm
    · exact hnil (Prod.mk.inj (Option.some.inj hline)).2.symm
    · exact hnil (Prod.mk.inj (Option.some.inj hline)).2.symm
    · cases hmatch : latencyMatch T (Text.rstrip line) with
      | none =>
        rw [hmatch] at hline
        exact hnil (Prod.mk.inj (Option.some.inj hline)).2.symm
      | some m =>
        rw [hmatch] at hline
        obtain ⟨value, -, hvalue⟩ := Option.bind_eq_some_iff.mp hline
        obtain ⟨-, rfl⟩ := Prod.mk.inj (Option.some.inj hvalue)
        intro row hrow
        obtain rfl := List.mem_singleton.mp hrow
        exact ⟨rfl, latencyMatch_name hmatch⟩

lemma filter_isRowOf {names : List String} {rows : List (Metric ν)} {name : String}
    (h : ∀ m ∈ rows, IsRowOf variant names m) (hname : name ∉ names) :
    rows.filter (fun m => m.metricName = name) = [] := by
  refine List.filter_eq_nil_iff.mpr (fun m hm heq => hname ?_)
  rw [← of_decide_eq_true heq]
  exact (h m hm).2

lemma filter_isRowOf_self {rows : List (Metric ν)} {name : String}
    (h : ∀ m ∈ rows, IsRowOf variant [name] m) :
    rows.filter (fun m => m.metricName = name) = rows :=
  List.filter_eq_self.mpr (fun m hm => decide_eq_true (List.mem_singleton.mp (h m hm).2))

/-- The rates of a run are those that its output shows first, and all its rows are filed under its
variant. -/
theorem runRows_rates {rows : List (Metric ν)}
    (h : runRows T F repetition variant text = some rows) :
    rateRow T F repetition variant "transactions:" "tps" "txn/sec" text =
        some (rows.filter fun m => m.metricName = "tps") ∧
      rateRow T F repetition variant "queries:" "qps" "queries/sec" text =
        some (rows.filter fun m => m.metricName = "qps") ∧
      ∀ m ∈ rows, m.variant = variant.toList := by
  obtain ⟨tps, htps, h⟩ := Option.bind_eq_some_iff.mp h
  obtain ⟨qps, hqps, h⟩ := Option.bind_eq_some_iff.mp h
  obtain ⟨latencies, hlat, h⟩ := Option.bind_eq_some_iff.mp h
  obtain ⟨r, hr, rfl⟩ := Option.map_eq_some_iff.mp hlat
  obtain rfl := Option.some.inj h
  have hrow := isRowOf_rateRow htps
  have hrow' := isRowOf_rateRow hqps
  have hrow'' := isRowOf_latencyStep hr
  refine ⟨?_, ?_, ?_⟩
  · rw [List.filter_append, List.filter_append, filter_isRowOf_self hrow,
      filter_isRowOf hrow' (by decide), filter_isRowOf hrow'' (by decide), List.append_nil,
      List.append_nil, htps]
  · rw [List.filter_append, List.filter_append, filter_isRowOf hrow (by decide),
      filter_isRowOf_self hrow', filter_isRowOf hrow'' (by decide), List.append_nil,
      List.nil_append, hqps]
  · intro m hm
    rcases List.mem_append.mp hm with hm | hm
    · rcases List.mem_append.mp hm with hm | hm
      · exact (hrow m hm).1
      · exact (hrow' m hm).1
    · exact (hrow'' m hm).1

end Rows

/-! ## Collecting the runs -/

lemma collectStep_unlabelled {line : Text} (h : Unlabelled line) (st : MysqlRuns) :
    collectStep st line = { st with currentLines := st.currentLines ++ [line] } := by
  rw [collectStep, show mysqlMarker.matchLine (Text.strip line) = none from h]

lemma foldl_unlabelled {lines : List Text} (h : ∀ line ∈ lines, Unlabelled line) (st : MysqlRuns) :
    lines.foldl collectStep st = { st with currentLines := st.currentLines ++ lines } := by
  induction lines generalizing st with
  | nil => rw [List.append_nil, List.foldl_nil]
  | cons line lines ih =>
    obtain ⟨hline, hlines⟩ := List.forall_mem_cons.mp h
    rw [List.foldl_cons, collectStep_unlabelled hline, ih hlines, List.append_assoc,
      List.singleton_append]

namespace MysqlSection

/-- What the parser makes of the section, if it has a line. -/
def run (s : MysqlSection) : MysqlRun := (some s.label.name.toList, s.text)

end MysqlSection

lemma collectStep_marker (label : MysqlLabel) (st : MysqlRuns) :
    collectStep st label.marker = ⟨st.closed, some label.name.toList, []⟩ := by
  have hmarker : (mysqlMarker.matchLine (Text.strip label.marker)).map
      (fun m => lower (Text.strip (m.headD []))) = some label.name.toList := by
    cases label with
    | release => decide +kernel
    | releaseMte => decide +kernel
  obtain ⟨m, hm, hlabel⟩ := Option.map_eq_some_iff.mp hmarker
  rw [collectStep, hm]
  exact congrArg (fun label => MysqlRuns.mk st.closed (some label) []) hlabel

lemma closed_foldl {sections : List MysqlSection}
    (h : ∀ line ∈ sections.flatMap MysqlSection.lines, Unlabelled line) (st : MysqlRuns) :
    ((sections.flatMap fun s => s.label.marker :: s.lines).foldl collectStep st).closed =
      st.closed ++ (sections.filter fun s => s.lines ≠ []).map MysqlSection.run := by
  induction sections generalizing st with
  | nil => simp
  | cons s sections ih =>
    rw [List.flatMap_cons, List.forall_mem_append] at h
    rw [List.flatMap_cons, List.foldl_append, List.foldl_cons, collectStep_marker,
      foldl_unlabelled h.1, ih h.2]
    by_cases hs : s.lines = []
    · simp [MysqlRuns.closed, hs]
    · simp [MysqlRuns.closed, hs, MysqlSection.run, MysqlSection.text]

namespace MysqlOutput

variable {T} (o : MysqlOutput T)

/-- What stands before the first label, as a run of its own. -/
def unlabelledRuns : List MysqlRun :=
  if o.before = [] then [] else [(none, Text.joinLines o.before)]

lemma closed_lines : (o.lines.foldl collectStep ⟨[], none, []⟩).closed =
    o.unlabelledRuns ++ (o.sections.filter fun s => s.lines ≠ []).map MysqlSection.run := by
  obtain ⟨hbefore, hsections⟩ := List.forall_mem_append.mp o.unlabelled
  rw [lines, List.foldl_append, foldl_unlabelled hbefore, closed_foldl hsections]
  by_cases hnil : o.before = []
  · simp [MysqlRuns.closed, unlabelledRuns, hnil]
  · simp [MysqlRuns.closed, unlabelledRuns, hnil]

end MysqlOutput

/-! ## The first two runs -/

section Loop

variable {T F repetition}

lemma mysqlVariant_label (variant : String) (label : MysqlLabel) :
    mysqlVariant variant (some label.name.toList) = label.name := by
  cases label with
  | release => rfl
  | releaseMte => rfl

/-- The rows of labelled runs are those of the sections, up to the second run of all. -/
lemma mysqlRows_run (varIdx : Nat) (sections : List MysqlSection) :
    mysqlRows T F repetition varIdx (sections.map MysqlSection.run) =
      sectionRows T F repetition (sections.take (2 - varIdx)) := by
  induction sections generalizing varIdx with
  | nil => simp [mysqlRows, sectionRows]
  | cons s sections ih =>
    rw [List.map_cons, mysqlRows]
    rcases Nat.lt_or_ge varIdx 2 with hlt | hge
    · obtain ⟨variant, hvariant⟩ : ∃ variant, mysqlVariants[varIdx]? = some variant :=
        ⟨_, List.getElem?_eq_getElem hlt⟩
      have htake : 2 - varIdx = 2 - (varIdx + 1) + 1 := by omega
      rw [hvariant, htake, List.take_succ_cons, sectionRows, ih]
      simp only [MysqlSection.run, mysqlVariant_label]
      rfl
    · rw [List.getElem?_eq_none hge, Nat.sub_eq_zero_of_le hge]
      rfl

lemma sectionRows_cons {s : MysqlSection} {ss : List MysqlSection} {rows : List (Metric ν)} :
    sectionRows T F repetition (s :: ss) = some rows ↔ ∃ r r',
      s.rows T F repetition = some r ∧ sectionRows T F repetition ss = some r' ∧
        rows = r ++ r' := by
  simp only [sectionRows, Option.bind_eq_bind, Option.bind_eq_some_iff, Option.pure_def,
    Option.some_inj, eq_comm (a := rows)]
  tauto

lemma sectionRows_append {ss ss' : List MysqlSection} {rows : List (Metric ν)}
    (h : sectionRows T F repetition (ss ++ ss') = some rows) : ∃ r r',
      sectionRows T F repetition ss = some r ∧ sectionRows T F repetition ss' = some r' ∧
        rows = r ++ r' := by
  induction ss generalizing rows with
  | nil => exact ⟨[], rows, rfl, h, rfl⟩
  | cons s ss ih =>
    obtain ⟨r, rest, hs, hrest, rfl⟩ := sectionRows_cons.mp h
    obtain ⟨r', r'', hss, hss', rfl⟩ := ih hrest
    exact ⟨r ++ r', r'', sectionRows_cons.mpr ⟨r, r', hs, hss, rfl⟩, hss',
      (List.append_assoc _ _ _).symm⟩

lemma sectionRows_eq_nil {ss : List MysqlSection} {rows : List (Metric ν)}
    (h : sectionRows T F repetition ss = some rows) :
    rows = [] ↔ ∀ s ∈ ss, WithoutResults T s.text := by
  induction ss generalizing rows with
  | nil => simpa [sectionRows] using h.symm
  | cons s ss ih =>
    obtain ⟨r, r', hs, hss, rfl⟩ := sectionRows_cons.mp h
    rw [List.append_eq_nil_iff, List.forall_mem_cons, ih hss, runRows_eq_nil_iff hs]

/-- A section without lines gives no rows. -/
lemma sectionRows_filter (ss : List MysqlSection) :
    sectionRows T F repetition (ss.filter fun s => s.lines ≠ []) =
      sectionRows T F repetition ss := by
  induction ss with
  | nil => rfl
  | cons s ss ih =>
    by_cases hs : s.lines = []
    · have hempty : WithoutResults T s.text := by
        rw [MysqlSection.text, hs]
        exact ⟨rfl, rfl, by simp [Text.joinLines, Text.splitLines, HasLatency]⟩
      rw [List.filter_cons_of_neg (by simp [hs]), ih, sectionRows, MysqlSection.rows,
        hempty.runRows_eq]
      cases sectionRows T F repetition ss with
      | none => rfl
      | some rows => rfl
    · rw [List.filter_cons_of_pos (by simp [hs]), sectionRows, sectionRows, ih]

lemma mysqlRows_withoutResults {runs : List MysqlRun} (h : ∀ run ∈ runs, WithoutResults T run.2)
    (varIdx : Nat) : mysqlRows T F repetition varIdx runs = some [] := by
  induction runs generalizing varIdx with
  | nil => rfl
  | cons run runs ih =>
    obtain ⟨hrun, hruns⟩ := List.forall_mem_cons.mp h
    rw [mysqlRows]
    cases mysqlVariants[varIdx]? with
    | none => rfl
    | some variant =>
      simp only [hrun.runRows_eq, ih hruns]
      rfl

end Loop

/-! ## Texts without results -/

section Plain

variable {T} {text : Text} {name : String}

lemma opensLatency_isInfix {line : Text} (h : opensLatency (Text.rstrip line) = true) :
    "Latency (ms):".toList <:+: line :=
  (List.isPrefixOf_iff_prefix.mp h).isInfix.trans
    ((Text.strip_isInfix _).trans (Text.rstrip_isInfix line))

lemma HasLatency.exists_opens {lines : List Text} (h : HasLatency T false lines) :
    ∃ line ∈ lines, "Latency (ms):".toList <:+: line := by
  induction lines with
  | nil => exact h.elim
  | cons line lines ih =>
    rw [HasLatency] at h
    by_cases hopens : opensLatency (Text.rstrip line) = true
    · exact ⟨line, List.mem_cons_self, opensLatency_isInfix hopens⟩
    · have hrest : HasLatency T false lines := by
        rw [if_neg hopens] at h
        split_ifs at h
        · exact h
        · simpa using h
      obtain ⟨l, hl, hpart⟩ := ih hrest
      exact ⟨l, List.mem_cons_of_mem line hl, hpart⟩

lemma Plain.withoutResults (h : Plain T text) : WithoutResults T text := by
  refine ⟨h.tps, h.qps, fun hlatency => ?_⟩
  obtain ⟨line, hline, hpart⟩ := hlatency.exists_opens
  exact h.heading (hpart.trans (Text.infix_of_mem_splitLines hline))

lemma nonEmpty_sysbenchRate : ∀ p ∈ sysbenchRate T name, p.nonEmpty = true := by
  intro p hp
  simp only [sysbenchRate, Pattern.literal, blanks, List.mem_append, List.mem_cons,
    List.mem_map] at hp
  rcases hp with ⟨c, -, rfl⟩ | rfl | rfl | rfl | ⟨c, -, rfl⟩ | rfl | ⟨c, -, rfl⟩
  all_goals rfl

lemma ends_sysbenchRate (c : Char) : Pattern.Ends c (sysbenchRate T name) := by
  apply Pattern.ends_literal
  have hlast : Pattern.Ends c (Pattern.literal " per sec.)" ++ []) := Pattern.ends_literal c _ trivial
  rw [List.append_nil] at hlast
  exact ⟨Or.inr rfl, Or.inr rfl, Or.inr rfl, Or.inr rfl, hlast⟩

/-- An equals sign is no part of a rate. -/
lemma accepts_sysbenchRate (hname : '=' ∉ name.toList) :
    ∀ p ∈ sysbenchRate T name, p.accepts '=' = false := by
  have hdigit : T.isDigit '=' = false := T.isDigit_ascii '=' (by decide)
  intro p hp
  simp only [sysbenchRate, Pattern.literal, blanks, List.mem_append, List.mem_cons,
    List.mem_map] at hp
  rcases hp with ⟨c, hc, rfl⟩ | rfl | rfl | rfl | ⟨c, hc, rfl⟩ | rfl | ⟨c, hc, rfl⟩
  · exact decide_eq_false fun h => hname (h ▸ hc)
  · rfl
  · exact hdigit
  · rfl
  · exact decide_eq_false fun h => absurd (h ▸ hc) (by decide)
  · change (T.isDigit '=' || '=' == '.') = false
    rw [hdigit]
    rfl
  · exact decide_eq_false fun h => absurd (h ▸ hc) (by decide)

lemma last_sysbenchRate {c : Char} (hc : c ≠ ')') :
    ∀ p ∈ (sysbenchRate T name).getLast?, p.accepts c = false := by
  intro p hp
  have hlast : (sysbenchRate T name).getLast? = some (.char false fun d => d = ')') := by
    simp [sysbenchRate, Pattern.literal, List.getLast?_append, List.getLast?_cons]
  obtain rfl := Option.some.inj (hlast.symm.trans hp)
  exact decide_eq_false hc

/-- A rate behind equals signs is one of the text before them, or it has a colon behind them. -/
lemma search_sysbenchRate (hcolon : ':' ∈ name.toList) (hname : '=' ∉ name.toList) {s t : Text}
    (ht : ':' ∉ t) (hs : (sysbenchRate T name).search s = none) :
    (sysbenchRate T name).search (s ++ '\n' :: '=' :: t) = none := by
  have hmem : Piece.char false (fun d => decide (d = ':')) ∈ sysbenchRate T name :=
    List.mem_append_left _ (List.mem_map.mpr ⟨':', hcolon, rfl⟩)
  have heq : s ++ '\n' :: '=' :: t = (s ++ ['\n']) ++ '=' :: t := by simp
  by_contra hne
  rw [← ne_eq, ← Option.isSome_iff_ne_none, heq] at hne
  rcases Pattern.search_around (accepts_sysbenchRate hname) hne with h | h
  · have h' := Pattern.search_concat nonEmpty_sysbenchRate (last_sysbenchRate (by decide)) h
    rw [hs] at h'
    cases h'
  · obtain ⟨c, hc, hcolon'⟩ := Pattern.exists_of_search hmem h
    exact ht (of_decide_eq_true hcolon' ▸ hc)

lemma plain_of_noColon (h : ':' ∉ text) : Plain T text := by
  have hsearch : ∀ name : String, ':' ∈ name.toList → (sysbenchRate T name).search text = none := by
    intro name hname
    by_contra hne
    rw [← ne_eq, ← Option.isSome_iff_ne_none] at hne
    obtain ⟨c, hc, hcolon⟩ := Pattern.exists_of_search
      (List.mem_append_left _ (List.mem_map.mpr ⟨':', hname, rfl⟩)) hne
    exact h (of_decide_eq_true hcolon ▸ hc)
  exact ⟨hsearch _ (by decide), hsearch _ (by decide), fun hpart => h (hpart.subset (by decide))⟩

lemma Plain.append {s t : Text} (h : Plain T s) (ht : ':' ∉ t) :
    Plain T (s ++ '\n' :: '=' :: t) := by
  refine ⟨search_sysbenchRate (by decide) (by decide) ht h.tps,
    search_sysbenchRate (by decide) (by decide) ht h.qps, fun hpart => ?_⟩
  rcases Text.infix_append_cons (by decide) hpart with hs | ht'
  · exact h.heading hs
  · rcases List.mem_cons.mp (ht'.subset (show ':' ∈ "Latency (ms):".toList by decide)) with hc | hc
    · cases hc
    · exact ht hc

lemma Plain.part {c : Text} (h : Plain T text) (hc : c <:+: text) : Plain T c := by
  have hsearch : ∀ name : String, (sysbenchRate T name).search text = none →
      (sysbenchRate T name).search c = none := by
    intro name hnone
    by_contra hne
    rw [← ne_eq, ← Option.isSome_iff_ne_none] at hne
    have hsome := Pattern.search_part ends_sysbenchRate hc hne
    rw [hnone] at hsome
    cases hsome
  exact ⟨hsearch _ h.tps, hsearch _ h.qps, fun hpart => h.heading (hpart.trans hc)⟩

end Plain

lemma mem_joinLines {ls : List Text} {c : Char} (h : c ∈ Text.joinLines ls) :
    c = '\n' ∨ ∃ l ∈ ls, c ∈ l := by
  induction ls with
  | nil => cases h
  | cons l ls ih =>
    cases ls with
    | nil => exact Or.inr ⟨l, List.mem_cons_self, by simpa [Text.joinLines] using h⟩
    | cons l' ls =>
      rw [Text.joinLines_cons_cons, List.mem_append, List.mem_cons] at h
      rcases h with h | rfl | h
      · exact Or.inr ⟨l, List.mem_cons_self, h⟩
      · exact Or.inl rfl
      · rcases ih h with hnl | ⟨l'', hl'', hc⟩
        · exact Or.inl hnl
        · exact Or.inr ⟨l'', List.mem_cons_of_mem l hl'', hc⟩

lemma joinLines_markers {labels : List MysqlLabel} (h : labels ≠ []) :
    ∃ t, Text.joinLines (labels.map MysqlLabel.marker) = '=' :: t ∧ ':' ∉ t := by
  have hcolon : ':' ∉ Text.joinLines (labels.map MysqlLabel.marker) := by
    intro hmem
    rcases mem_joinLines hmem with heq | ⟨l, hl, hc⟩
    · cases heq
    · obtain ⟨label, -, rfl⟩ := List.mem_map.mp hl
      revert hc
      cases label <;> decide
  obtain ⟨label, labels, rfl⟩ := List.exists_cons_of_ne_nil h
  obtain ⟨t, ht⟩ : ∃ t, Text.joinLines ((label :: labels).map MysqlLabel.marker) = '=' :: t := by
    cases labels with
    | nil => exact ⟨_, rfl⟩
    | cons label' labels => exact ⟨_, Text.joinLines_cons_cons _ _ _⟩
  rw [ht, List.mem_cons, not_or] at hcolon
  exact ⟨t, ht, hcolon.2⟩

namespace MysqlOutput

variable {T} (o : MysqlOutput T)

/-- Without a line behind any label, there are no results anywhere. -/
lemma plain_output (h : o.sections.filter (fun s => s.lines ≠ []) = []) : Plain T o.output := by
  have hlines : o.lines = o.before ++ (o.sections.map MysqlSection.label).map MysqlLabel.marker := by
    rw [lines, List.map_map]
    apply congrArg
    rw [List.map_eq_flatMap]
    refine List.flatMap_congr (fun s hs => ?_)
    have hnil : s.lines = [] := by simpa using List.filter_eq_nil_iff.mp h s hs
    rw [hnil]
    rfl
  rw [output, hlines]
  generalize o.sections.map MysqlSection.label = labels
  by_cases hlabels : labels = []
  · rw [hlabels, List.map_nil, List.append_nil]
    exact o.before_plain
  · obtain ⟨t, ht, hcolon⟩ := joinLines_markers hlabels
    by_cases hbefore : o.before = []
    · rw [hbefore, List.nil_append, ht]
      apply plain_of_noColon
      simpa using hcolon
    · rw [Text.joinLines_append hbefore (by simpa using hlabels), ht]
      exact o.before_plain.append hcolon

lemma splitLines_output (h : o.lines ≠ []) : Text.splitLines o.output = o.lines := by
  refine Text.splitLines_joinLines h (fun line hline => ?_)
  rcases List.mem_append.mp hline with hbefore | hsections
  · exact o.noNewline line (List.mem_append_left _ hbefore)
  · obtain ⟨s, hs, hmem⟩ := List.mem_flatMap.mp hsections
    rcases List.mem_cons.mp hmem with rfl | hmem
    · cases s.label <;> decide
    · exact o.noNewline line (List.mem_append_right _ (List.mem_flatMap.mpr ⟨s, hs, hmem⟩))

/-- With a line behind some label, the labels tell the runs. -/
lemma mysqlRuns_labelled (h : o.runSections ≠ []) :
    mysqlRuns o.output = o.unlabelledRuns ++ o.runSections.map MysqlSection.run := by
  have hne : o.lines ≠ [] := by
    intro hnil
    obtain ⟨s, hs⟩ := List.exists_mem_of_ne_nil _ h
    have hmem : s.label.marker ∈ o.lines := List.mem_append_right _
      (List.mem_flatMap.mpr ⟨s, List.mem_of_mem_filter hs, List.mem_cons_self⟩)
    rw [hnil] at hmem
    cases hmem
  have hany : (o.unlabelledRuns ++ o.runSections.map MysqlSection.run).any
      (fun run => run.1.getD [] ≠ []) = true := by
    obtain ⟨s, hs⟩ := List.exists_mem_of_ne_nil _ h
    refine List.any_eq_true.mpr ⟨s.run, List.mem_append_right _ (List.mem_map_of_mem hs), ?_⟩
    cases hlabel : s.label <;> simp [MysqlSection.run, hlabel, MysqlLabel.name]
  rw [mysqlRuns, o.splitLines_output hne, o.closed_lines]
  exact if_pos hany

/-- Without one, the parser looks for results in all of the output. -/
lemma mysqlRuns_unlabelled (h : o.runSections = []) :
    ∀ run ∈ mysqlRuns o.output, WithoutResults T run.2 := by
  intro run hrun
  have hchunks : mysqlRuns o.output = ((Text.split "SQL statistics:".toList o.output).filter
      fun c => Text.strip c ≠ []).map fun chunk => (none, chunk) := by
    by_cases hne : o.lines = []
    · rw [output, hne]
      decide
    · rw [mysqlRuns, o.splitLines_output hne, o.closed_lines]
      change o.sections.filter _ = [] at h
      rw [h, List.map_nil, List.append_nil, unlabelledRuns]
      apply if_neg
      split_ifs <;> simp
  rw [hchunks] at hrun
  obtain ⟨c, hc, rfl⟩ := List.mem_map.mp hrun
  have hpart := Text.infix_of_mem_split (List.mem_of_mem_filter hc)
  exact ((o.plain_output h).part hpart).withoutResults

/-- The parser gives the rows of the sections that it comes to. -/
lemma parse_output : parseMysqlOutput T F repetition o.output =
    sectionRows T F repetition (o.runSections.take o.reached) := by
  by_cases h : o.runSections = []
  · rw [parseMysqlOutput, mysqlRows_withoutResults (o.mysqlRuns_unlabelled h), h, List.take_nil]
    rfl
  · rw [parseMysqlOutput, o.mysqlRuns_labelled h, unlabelledRuns, reached]
    by_cases hbefore : o.before = []
    · rw [if_pos hbefore, if_pos hbefore, List.nil_append, mysqlRows_run]
    · have hfirst : runRows T F repetition (mysqlVariant "release" none)
          (Text.joinLines o.before) = some [] := o.before_plain.withoutResults.runRows_eq
      rw [if_neg hbefore, if_neg hbefore, List.singleton_append, mysqlRows]
      simp only [mysqlVariants, List.getElem?_cons_zero, hfirst, mysqlRows_run]
      cases sectionRows T F repetition (o.runSections.take 1) with
      | none => rfl
      | some rows => rfl

/-- If the numbers of all sections can be read, the parser gives the rows of all sections exactly
if those that it overlooks have no results. -/
theorem parseMysqlOutput_eq_iff {rows : List (Metric ν)}
    (h : o.rows F repetition = some rows) :
    parseMysqlOutput T F repetition o.output = some rows ↔
      ∀ s ∈ o.overlooked, WithoutResults T s.text := by
  have hsplit : sectionRows T F repetition
      (o.runSections.take o.reached ++ o.overlooked) = some rows := by
    rw [overlooked, List.take_append_drop, runSections, sectionRows_filter]
    exact h
  obtain ⟨r, r', hr, hr', rfl⟩ := sectionRows_append hsplit
  rw [o.parse_output, hr, ← sectionRows_eq_nil hr', Option.some_inj, List.self_eq_append_right]

end MysqlOutput

/-! ## A prelude -/

def sysbenchLines : List Text :=
  ["    transactions:                        10000  (166 per sec.)".toList,
    "Latency (ms):".toList,
    "         avg:                                    4".toList]

/-- Both variants, with some lines before them. -/
def bothVariants (before : List Text) (hbefore : before = [] ∨ before = ["starting".toList]) :
    MysqlOutput asciiTables where
  before := before
  sections := [⟨.release, sysbenchLines⟩, ⟨.releaseMte, sysbenchLines⟩]
  noNewline := by rcases hbefore with rfl | rfl <;> decide +kernel
  unlabelled := by rcases hbefore with rfl | rfl <;> decide +kernel
  before_plain := by
    apply plain_of_noColon
    rcases hbefore with rfl | rfl <;> decide +kernel

theorem parse_bothVariants : (bothVariants [] (Or.inl rfl)).rows wholeParserFloats 1 ≠ none ∧
    parseMysqlOutput asciiTables wholeParserFloats 1 (bothVariants [] (Or.inl rfl)).output =
      (bothVariants [] (Or.inl rfl)).rows wholeParserFloats 1 := by
  have hsome : ((bothVariants [] (Or.inl rfl)).rows wholeParserFloats 1).isSome = true := by
    decide +kernel
  obtain ⟨rows, hrows⟩ := Option.isSome_iff_exists.mp hsome
  have hnone : ∀ s ∈ (bothVariants [] (Or.inl rfl)).overlooked,
      WithoutResults asciiTables s.text := fun s hs => absurd hs List.not_mem_nil
  rw [hrows]
  exact ⟨Option.some_ne_none rows,
    ((bothVariants [] (Or.inl rfl)).parseMysqlOutput_eq_iff wholeParserFloats 1 hrows).mpr hnone⟩

/-- Behind a line of its own, the run of `release-mte` is overlooked. -/
theorem parse_bothVariants_starting :
    (bothVariants ["starting".toList] (Or.inr rfl)).rows wholeParserFloats 1 ≠ none ∧
      parseMysqlOutput asciiTables wholeParserFloats 1
          (bothVariants ["starting".toList] (Or.inr rfl)).output ≠
        (bothVariants ["starting".toList] (Or.inr rfl)).rows wholeParserFloats 1 := by
  have hrows : ((bothVariants ["starting".toList] (Or.inr rfl)).rows wholeParserFloats 1).map
      List.length = some 4 := by
    decide +kernel
  have hparse : (parseMysqlOutput asciiTables wholeParserFloats 1
      (bothVariants ["starting".toList] (Or.inr rfl)).output).map List.length = some 2 := by
    decide +kernel
  refine ⟨fun hnone => ?_, fun heq => ?_⟩
  · rw [hnone] at hrows
    cases hrows
  · rw [heq, hrows] at hparse
    cases hparse

end MemSafeDB.Benchmark
