import MemSafeDB.Lib.Csv
import MemSafeDB.Lib.Pattern

/-!
# The YCSB runner

For each variant of a database one script loads the data and runs the workloads. The script
echoes a marker in front of each run. The outputs of all scripts are put together and cut at the
markers, and each block gives the rows of one run.
-/

namespace MemSafeDB.Benchmark
open Lib

/-! ## Scripts -/

inductive Database where
  | leveldb
  | redis
  deriving DecidableEq

/-- The name of a build. -/
structure Variant where
  name : Text
  ne : name ≠ []
  word : ∀ c ∈ name, (c.isAlphanum || c == '_') = true

/-- The run that a marker announces. -/
structure RunTag where
  workload : Char
  threads : Nat
  variant : Variant

/-- Commands that are neither loads nor runs. -/
inductive Shell where
  | setOptions
  | makeDirectory
  | removeDatabase
  | reapServers
  | removeDump
  | startServer
  | savePid
  | waitForServer
  | flushAll
  | shutdown
  | killServer
  | wait

inductive Command where
  | shell (c : Shell)
  | load (workload : Char) (threads : Nat)
  | echo (tag : RunTag)
  | run (tag : RunTag)

def roWorkloads : List Char := ['a', 'b', 'c', 'f']
def insWorkloads : List Char := ['d', 'e']
def allWorkloads : List Char := roWorkloads ++ insWorkloads

/-- The thread counts of the runs. -/
structure ThreadSet where
  counts : List Nat
  ne : counts ≠ []

/-- `max(thread_set)` -/
def ThreadSet.max (threads : ThreadSet) : Nat := threads.counts.foldr Nat.max 0

/-- A marker and its run, behind some preparation, for each workload and thread count. -/
def runCommands (variant : Variant) (threads : ThreadSet) (workloads : List Char)
    (prepare : Char → List Command) : List Command :=
  workloads.flatMap fun w => threads.counts.flatMap fun t =>
    prepare w ++ [.echo ⟨w, t, variant⟩, .run ⟨w, t, variant⟩]

def leveldbScript (variant : Variant) (threads : ThreadSet) : List Command :=
  [.shell .setOptions, .shell .makeDirectory, .shell .removeDatabase,
    -- one shared load serves every read-only workload and thread count
    .load 'a' threads.max] ++
  runCommands variant threads roWorkloads (fun _ => []) ++
  runCommands variant threads insWorkloads
    (fun w => [.shell .removeDatabase, .load w threads.max]) ++
  [.shell .removeDatabase]

def redisScript (variant : Variant) (threads : ThreadSet) : List Command :=
  [.shell .setOptions, .shell .reapServers, .shell .removeDump, .shell .startServer,
    .shell .savePid, .shell .waitForServer, .load 'a' threads.max] ++
  runCommands variant threads roWorkloads (fun _ => []) ++
  runCommands variant threads insWorkloads
    (fun w => [.shell .flushAll, .load w threads.max]) ++
  [.shell .shutdown, .shell .killServer, .shell .reapServers, .shell .removeDump, .shell .wait]

def Database.script : Database → Variant → ThreadSet → List Command
  | .leveldb => leveldbScript
  | .redis => redisScript

/-! ## Markers -/

def Database.markerStart : Database → String
  | .leveldb => "=== LDB workload="
  | .redis => "=== REDIS workload="

/-- What `echo` prints. -/
def markerLine (db : Database) (tag : RunTag) : Text :=
  db.markerStart.toList ++ tag.workload :: (" threads=".toList ++ (decimal tag.threads ++
    (" variant=".toList ++ (tag.variant.name ++ " ===".toList))))

variable (T : Tables)

/-- `_LDB_MARKER` and `_REDIS_MARKER` -/
def Database.marker (db : Database) : Pattern :=
  Pattern.literal db.markerStart ++ .char true (fun c => 'a' ≤ c && c ≤ 'f') ::
    (Pattern.literal " threads=" ++ .many true T.isDigit ::
      (Pattern.literal " variant=" ++ .many true T.isWord :: Pattern.literal " ==="))

def Database.markerGroups (db : Database) (line : Text) : Option (List Text) :=
  (db.marker T).matchLine (Text.strip line)

structure Block where
  groups : List Text
  lines : List Text

def blockStep (db : Database) (st : List Block × Option Block) (line : Text) :
    List Block × Option Block :=
  match db.markerGroups T line with
  | some groups => (st.1 ++ st.2.toList, some ⟨groups, []⟩)
  | none => (st.1, st.2.map fun b => { b with lines := b.lines ++ [line] })

def finishBlocks (st : List Block × Option Block) : List Block := st.1 ++ st.2.toList

/-- `_blocks` -/
def blocks (db : Database) (output : Text) : List Block :=
  finishBlocks ((Text.splitLines output).foldl (blockStep T db) ([], none))

/-! ## Rows -/

/-- What the floating-point arithmetic gives. -/
structure Floats (ν : Type) where
  /-- `float`, with `none` where it raises -/
  float : Text → Option ν
  /-- the average with these weights to three decimals, with `none` where it raises -/
  mean : List (Nat × ν) → Option Text

/-- The arguments of `make_exec` that are copied into the rows, and the repetition. -/
structure RunConfig where
  workingSet : Nat
  persistence : Option Text
  repetition : Nat

structure Row (ν : Type) where
  database : String
  variant : Text
  benchmark : String
  workload : Text
  repetition : Nat
  persistence : Text
  workingSet : Nat
  threads : Nat
  metricName : String
  metricValue : ν ⊕ Text
  unit : String

variable {ν : Type} (F : Floats ν) (cfg : RunConfig)

/-- `_row`, with the metric -/
def row (db : String) (variant workload : Text) (persistence : Option Text) (threads : Nat)
    (metricName : String) (metricValue : ν ⊕ Text) (unit : String) : Row ν where
  database := db
  variant := "release-".toList ++ variant
  benchmark := "ycsb"
  workload := workload
  repetition := cfg.repetition
  persistence := persistence.getD "na".toList
  workingSet := cfg.workingSet
  threads := threads
  metricName := metricName
  metricValue := metricValue
  unit := unit

def isDecimal (c : Char) : Bool := c.isDigit || c == '.'

/-- `_LDB_TP` -/
def ldbTp : Pattern :=
  Pattern.literal "Run throughput(ops/sec):" ++
    [.many false Text.isSpace, .many true fun c => T.isDigit c || c == '.']

/-- `_LDB_OP` -/
def ldbOp : Pattern :=
  .char false (· == '[') :: .many true Char.isUpper :: (Pattern.literal ": Count=" ++
    .many true T.isDigit :: (Pattern.literal " Max=" ++ .many false isDecimal ::
      (Pattern.literal " Min=" ++ .many false isDecimal ::
        (Pattern.literal " Avg=" ++ [.many true isDecimal, .char false (· == ']')]))))

/-- `_REDIS_OVERALL` -/
def redisOverall : Pattern :=
  Pattern.literalIgnoreCase "[OVERALL]," ++ .any Text.isSpace ::
    (Pattern.literalIgnoreCase "Throughput(ops/sec)," ++
      [.any Text.isSpace, .many true isDecimal])

/-- `_REDIS_CUR` -/
def redisCur : Pattern :=
  Pattern.literal "operations;" ++ .any Text.isSpace :: .many true isDecimal ::
    .many false Text.isSpace :: Pattern.literal "current ops/sec;"

def isStatus (line : Text) : Bool :=
  decide ("operations;".toList <:+: line) && line.contains '[' && line.contains ']'

/-- The last status line. -/
def lastStatus (lines : List Text) : Option Text := lines.reverse.find? isStatus

/-- The average latency that a status line gives; the outer `none` stands for an exception. -/
def latency : Option Text → Option (Option Text)
  | none => some none
  | some stat => do
    let ops ← ((ldbOp T).findAll stat).mapM fun op => do
      let count ← T.int (op.getD 1 [])
      let avg ← F.float (op.getD 2 [])
      pure (count, avg)
    if 0 < (ops.map Prod.fst).sum then (F.mean ops).map some else some none

/-- The rows of one block of `_parse_leveldb`; `none` where it raises. -/
def leveldbRows (groups : List Text) (text : Text) : Option (List (Row ν)) :=
  match (ldbTp T).search text with
  | none => some []
  | some tp => do
    let threads ← T.int (groups.getD 1 [])
    let value ← F.float (tp.headD [])
    let latencyAvg ← latency T F (lastStatus (Text.splitLines text))
    let row := row cfg "leveldb" (groups.getD 2 [])
      (groups.getD 0 [] ++ "_t".toList ++ groups.getD 1 []) cfg.persistence threads
    pure (row "throughput" (.inl value) "ops/sec" ::
      (latencyAvg.toList.map fun avg => row "latency_avg" (.inr avg) "us"))

/-- The text of the throughput that `_parse_redis` uses. -/
def redisRate (text : Text) : Option Text :=
  match redisOverall.search text with
  | some m => some (m.headD [])
  | none => (redisCur.findAll text).getLast?.map fun cur => cur.headD []

/-- The rows of one block of `_parse_redis`; `none` where it raises. -/
def redisRows (groups : List Text) (text : Text) : Option (List (Row ν)) :=
  match redisRate text with
  | none => some []
  | some rate => do
    let tp ← F.float rate
    let threads ← T.int (groups.getD 1 [])
    pure [row cfg "redis" (groups.getD 2 []) (groups.getD 0 []) cfg.persistence threads
      "throughput" (.inl tp) "ops/sec"]

def Database.rows : Database → List Text → Text → Option (List (Row ν))
  | .leveldb => leveldbRows T F cfg
  | .redis => redisRows T F cfg

/-- `_parse_leveldb` and `_parse_redis` -/
def parse (db : Database) (output : Text) : Option (List (Row ν)) :=
  ((blocks T db output).mapM fun b => db.rows T F cfg b.groups (Text.joinLines b.lines)).map
    List.flatten

/-! ## The whole experiment -/

/-- A line that is not a marker. -/
structure Line (db : Database) where
  text : Text
  noNewline : '\n' ∉ text
  noMarker : db.markerGroups T text = none

/-- One script with the lines that its commands print; those of an `echo` do not count. -/
structure Session (db : Database) (threads : ThreadSet) where
  variant : Variant
  steps : List (Command × List (Line T db))
  script : steps.map Prod.fst = db.script variant threads

/-- A command with what it prints. -/
abbrev Entry := Option Command × List Text

/-- The lines of an entry in the output. -/
def Entry.lines (db : Database) : Entry → List Text
  | (some (.echo tag), _) => [markerLine db tag]
  | (_, out) => out

variable {T} {db : Database} {threads : ThreadSet}

/-- What the commands print, and an empty line where the outputs of the scripts are put
together. -/
def Session.entries (s : Session T db threads) : List Entry :=
  s.steps.map (fun step => (some step.1, step.2.map Line.text)) ++ [(none, [[]])]

/-- `p.stdout` -/
def Session.output (s : Session T db threads) : Text :=
  (s.steps.flatMap fun step => Entry.lines db (some step.1, step.2.map Line.text)).flatMap
    fun line => line ++ ['\n']

def fullOutput (sessions : List (Session T db threads)) : Text :=
  Text.joinLines (sessions.map Session.output)

/-- `exec`; the outer `none` stands for an exception. -/
def exec (F : Floats ν) (cfg : RunConfig) (sessions : List (Session T db threads)) (rcOk : Bool) :
    Option (List (Row ν) × Bool) := do
  let rows ← parse T F cfg db (fullOutput sessions)
  let expected := sessions.length * allWorkloads.length * threads.counts.length
  let got := (rows.filter fun r => r.metricName == "throughput").length
  pure (rows, rcOk && got == expected)

/-! ## Runs -/

/-- A run with its own output and what is printed between it and the next marker. -/
structure Run where
  tag : RunTag
  own : List Text
  rest : List Text

def Run.groups (r : Run) : List Text := [[r.tag.workload], decimal r.tag.threads, r.tag.variant.name]

def Entry.isEcho : Entry → Bool
  | (some (.echo _), _) => true
  | _ => false

/-- What is printed before the next marker. -/
def before (entries : List Entry) : List Text :=
  (entries.takeWhile fun e => !e.isEcho).flatMap Prod.snd

def runs : List Entry → List Run
  | (some (.echo tag), _) :: (some (.run _), own) :: entries =>
    { tag, own, rest := before entries } :: runs entries
  | _ :: entries => runs entries
  | [] => []

/-- What a run prints is no marker, and a run follows the echo of its own marker. -/
inductive Paired (T : Tables) (db : Database) : List Entry → Prop where
  | nil : Paired T db []
  | run {tag : RunTag} {out own : List Text} {entries : List Entry}
      (htag : tag.workload ∈ allWorkloads)
      (hown : ∀ l ∈ own, '\n' ∉ l ∧ db.markerGroups T l = none) (h : Paired T db entries) :
      Paired T db ((some (.echo tag), out) :: (some (.run tag), own) :: entries)
  | other {c : Option Command} {out : List Text} {entries : List Entry}
      (hc : ∀ tag, c ≠ some (.echo tag) ∧ c ≠ some (.run tag))
      (hout : ∀ l ∈ out, '\n' ∉ l ∧ db.markerGroups T l = none) (h : Paired T db entries) :
      Paired T db ((c, out) :: entries)

end MemSafeDB.Benchmark
