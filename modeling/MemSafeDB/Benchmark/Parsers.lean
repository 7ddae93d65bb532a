import MemSafeDB.Benchmark.Ycsb
import MemSafeDB.Lib.Lines

/-!
# The output parsers

Each parser turns the output of one benchmark script into rows. That of Redis cuts the output at
its markers, that of DuckDB cuts its query lines into quarters, and the others read it line by
line. `none` stands for an exception.
-/

namespace MemSafeDB.Benchmark
open Lib

/-- What the floating-point arithmetic of the parsers gives. -/
structure ParserFloats (ν : Type) extends Floats ν where
  /-- `/` of integers, with `none` where it raises -/
  quotient : Nat → Nat → Option ν

/-- A row as the parsers yield it. -/
structure Metric (ν : Type) where
  database : String
  variant : Text
  benchmark : String
  workload : Text
  metricName : String
  metricValue : ν ⊕ Text
  unit : String
  repetition : Int

/-! ## Texts -/

/-- `str.lower` of a character that `[a-z]` matches without regard to case, or of any other
character of ASCII. -/
def lowerChar (c : Char) : Text :=
  if c = 'İ' then ['i', '\u0307'] else if c = '\u212a' then ['k'] else [c.toLower]

def lower (s : Text) : Text := s.flatMap lowerChar

/-- `[a-zA-Z]` without regard to case -/
def isLetterIgnoreCase (c : Char) : Bool :=
  c.isAlpha || c == 'İ' || c == 'ı' || c == 'ſ' || c == '\u212a'

/-- `[a-zA-Z0-9_-]` without regard to case -/
def isNameIgnoreCase (c : Char) : Bool :=
  isLetterIgnoreCase c || c.isDigit || c == '_' || c == '-'

/-- `[a-z0-9-]` without regard to case -/
def isVariantIgnoreCase (c : Char) : Bool := isLetterIgnoreCase c || c.isDigit || c == '-'

/-- `[a-f]` without regard to case -/
def isWorkloadIgnoreCase (c : Char) : Bool := ('a' ≤ c && c ≤ 'f') || ('A' ≤ c && c ≤ 'F')

/-- The name of the variant in the rows. The known names have branches of their own, all with
the same result. -/
def releaseVariant (raw : Text) : Text := "release-".toList ++ lower raw

/-- `\s+` -/
def blanks : Piece := .many false Text.isSpace

variable (T : Tables) {ν : Type} (F : ParserFloats ν) (repetition : Int)

/-! ## Redis -/

/-- `marker_pattern` of Redis, with one of the two phases -/
def redisMarker (phase : String) : Pattern :=
  Pattern.literalIgnoreCase "REDIS_YCSB" ++ blanks ::
    (Pattern.literalIgnoreCase "workload=" ++ .char true isWorkloadIgnoreCase :: blanks ::
      (Pattern.literalIgnoreCase "variant=" ++ .many true isVariantIgnoreCase :: blanks ::
        (Pattern.literalIgnoreCase "phase=" ++ Pattern.literalIgnoreCase phase)))

/-- A match of the marker at the beginning of a text, with the phase in lower case as the last
group. -/
def redisMatch (s : Text) : Option (List Text × Text) :=
  match (redisMarker "load").matchAt s with
  | some (groups, rest) => some (groups ++ ["load".toList], rest)
  | none =>
    ((redisMarker "run").matchAt s).map fun m => (m.1 ++ ["run".toList], m.2)

def redisMetric (workload variant : Text) (throughput : ν) : Metric ν where
  database := "redis"
  variant := variant
  benchmark := "ycsb"
  workload := workload
  metricName := "throughput"
  metricValue := .inl throughput
  unit := "ops/sec"
  repetition := repetition

/-- The rows of the segment behind a marker. -/
def redisSegment (groups : List Text) (segment : Text) : Option (List (Metric ν)) :=
  if groups.getD 2 [] ≠ "run".toList then some []
  else
    match redisRate segment with
    | none => some []
    | some rate => do
      let throughput ← F.float rate
      pure [redisMetric repetition (lower (groups.getD 0 [])) (releaseVariant (groups.getD 1 []))
        throughput]

/-- The segments behind the markers: each ends where the next marker begins. -/
def segments (output : Text) : List Pattern.Match → List (List Text × Text)
  | [] => []
  | marker :: markers =>
    let stop := (markers.head?.map Pattern.Match.start).getD output.length
    (marker.groups, (output.take stop).drop marker.stop) :: segments output markers

/-- `parse_redis_output` -/
def parseRedisOutput (output : Text) : Option (List (Metric ν)) :=
  ((segments output (Pattern.finditer redisMatch output)).mapM fun g =>
    redisSegment F repetition g.1 g.2).map List.flatten

/-! ## LevelDB db_bench -/

/-- `marker_pattern` of db_bench -/
def benchMarker : Pattern :=
  Pattern.literal "===" ++ blanks :: (Pattern.literalIgnoreCase "Running threads" ++ blanks ::
    .many true T.isDigit :: blanks :: .char false (· == '-') :: blanks ::
      .many true isNameIgnoreCase :: blanks :: Pattern.literal "===")

/-- `data_pattern` -/
def benchData : Pattern :=
  .many true (fun c => c.isAlphanum || c == '_') :: .any Text.isSpace :: .char false (· == ':') ::
    blanks :: .many true isDecimal :: blanks :: Pattern.literal "micros/op;"

/-- `stat_std_pattern` and its siblings -/
def benchStat (name : String) : Pattern :=
  Pattern.literal name ++ [blanks, .many true isDecimal]

/-- `last_benchmark_info` -/
structure BenchmarkInfo where
  variant : Text
  workload : Text

def benchMetric (info : BenchmarkInfo) (metricName : String) (value : ν) : Metric ν where
  database := "leveldb_motiv"
  variant := info.variant
  benchmark := "db_bench"
  workload := info.workload
  metricName := metricName
  metricValue := .inl value
  unit := "us"
  repetition := repetition

/-- The row of a statistic, if the line has it. -/
def statRow (info : BenchmarkInfo) (name metricName : String) (line : Text) :
    Option (List (Metric ν)) :=
  match (benchStat name).search line with
  | none => some []
  | some m => do
    let value ← F.float (m.headD [])
    pure [benchMetric repetition info metricName value]

def statRows (info : BenchmarkInfo) (line : Text) : Option (List (Metric ν)) :=
  if "Average:".toList <:+: line then statRow F repetition info "StdDev:" "latency_stddev" line
  else if "Min:".toList <:+: line then do
    let min ← statRow F repetition info "Min:" "latency_min" line
    let med ← statRow F repetition info "Median:" "latency_median" line
    let max ← statRow F repetition info "Max:" "latency_max" line
    pure (min ++ med ++ max)
  else some []

/-- The thread count and the variant of the current section, and the last benchmark. -/
abbrev BenchState := (Nat × Option Text) × Option BenchmarkInfo

def benchStep (st : BenchState) (line : Text) : Option (BenchState × List (Metric ν)) :=
  let line := Text.strip line
  if line = [] then some (st, [])
  else
    match (benchMarker T).matchLine line with
    | some m => do
      let threads ← T.int (m.getD 0 [])
      pure (((threads, some (releaseVariant (m.getD 1 []))), st.2), [])
    | none =>
      match benchData.matchAt line, st.1.2 with
      | some (m, _), some variant => do
        let micros ← F.float (m.getD 1 [])
        let info := ⟨variant, m.getD 0 [] ++ "_t".toList ++ decimal st.1.1⟩
        pure ((st.1, some info), [benchMetric repetition info "latency_avg" micros])
      | _, _ =>
        match st.2 with
        | some info => (statRows F repetition info line).map fun rows => (st, rows)
        | none => some (st, [])

/-- `parse_leveldb_bench_output` -/
def parseLeveldbBenchOutput (output : Text) : Option (List (Metric ν)) :=
  Lines.read (benchStep T F repetition) ((1, none), none) output

/-! ## LevelDB YCSB -/

/-- `marker_pattern` of LevelDB -/
def leveldbMarker : Pattern :=
  Pattern.literal "===" ++ blanks :: (Pattern.literalIgnoreCase "Running workload" ++
    .char true isWorkloadIgnoreCase :: blanks :: .char false (· == '-') :: blanks ::
      (Pattern.literalIgnoreCase "threads:" ++ blanks :: .many true T.isDigit :: blanks ::
        .char false (· == '-') :: blanks :: .many true isNameIgnoreCase :: blanks ::
          Pattern.literal "==="))

/-- The workload, the threads and the variant of the section, if there is one, and its lines. -/
structure LeveldbState where
  current : Option (Text × Nat × Text)
  block : List Text

def leveldbMetric (variant workload : Text) (metricName : String) (value : ν ⊕ Text)
    (unit : String) : Metric ν where
  database := "leveldb"
  variant := variant
  benchmark := "ycsb"
  workload := workload
  metricName := metricName
  metricValue := value
  unit := unit
  repetition := repetition

def leveldbStep (st : LeveldbState) (line : Text) : Option (LeveldbState × List (Metric ν)) :=
  let line := Text.strip line
  match (leveldbMarker T).matchLine line with
  | some m => do
    let threads ← T.int (m.getD 1 [])
    pure (⟨some (m.getD 0 [], threads, releaseVariant (m.getD 2 [])), []⟩, [])
  | none =>
    let st' : LeveldbState := { st with block := st.block ++ [line] }
    match (ldbTp T).search line, st.current with
    | some m, some (workload, threads, variant) => do
      let throughput ← F.float (m.headD [])
      let workload := workload ++ "_t".toList ++ decimal threads
      let avg ← latency T F.toFloats (lastStatus (st.block.map Text.strip))
      pure (st', leveldbMetric repetition variant workload "throughput" (.inl throughput) "ops/sec"
        :: avg.toList.map fun avg =>
          leveldbMetric repetition variant workload "latency_avg" (.inr avg) "us")
    | _, _ => some (st', [])

/-- `parse_leveldb_output` -/
def parseLeveldbOutput (output : Text) : Option (List (Metric ν)) :=
  Lines.read (leveldbStep T F repetition) ⟨none, []⟩ output

/-! ## SQLite -/

/-- `variant_pattern` of SQLite -/
def sqliteVariant : Pattern :=
  Pattern.literal "===" ++ blanks :: (Pattern.literalIgnoreCase "Executing" ++ blanks ::
    .many true isNameIgnoreCase :: blanks :: Pattern.literal "===")

/-- `duration_pattern` -/
def sqliteDuration : Pattern :=
  Pattern.literalIgnoreCase "Execution Results after" ++ blanks :: .many true T.isDigit ::
    blanks :: Pattern.literalIgnoreCase "seconds"

/-- `total_pattern`: no word goes on behind the digits. -/
def sqliteTotal (line : Text) : Option (List Text) :=
  match Pattern.matchAt (.any Text.isSpace :: (Pattern.literalIgnoreCase "TOTAL" ++
    [blanks, .many true T.isDigit])) line with
  | some (m, []) => some m
  | some (m, c :: _) => if T.isWord c then none else some m
  | none => none

def sqliteMetric (variant : Text) (tps : ν) : Metric ν where
  database := "sqlite"
  variant := variant
  benchmark := "tpcc"
  workload := "tpcc".toList
  metricName := "tps"
  metricValue := .inl tps
  unit := "txn/sec"
  repetition := repetition

/-- The variant and the duration. -/
def sqliteStep (st : Option Text × Option Nat) (line : Text) :
    Option ((Option Text × Option Nat) × List (Metric ν)) :=
  let line := Text.strip line
  match sqliteVariant.search line with
  | some m => some ((some (releaseVariant (m.headD [])), none), [])
  | none =>
    match (sqliteDuration T).search line with
    | some m => do
      let duration ← T.int (m.headD [])
      pure ((st.1, some duration), [])
    | none =>
      match sqliteTotal T line, st.1, st.2 with
      | some m, some variant, some duration =>
        if duration = 0 then some (st, [])
        else do
          let total ← T.int (m.headD [])
          let tps ← F.quotient total duration
          pure ((st.1, none), [sqliteMetric repetition variant tps])
      | _, _, _ => some (st, [])

/-- `parse_sqlite_output` -/
def parseSqliteOutput (output : Text) : Option (List (Metric ν)) :=
  Lines.read (sqliteStep T F repetition) (none, none) output

/-! ## Ladybug -/

/-- `variant_pattern` of Ladybug -/
def ladybugVariant : Pattern :=
  Pattern.literal "===" ++ blanks :: (Pattern.literalIgnoreCase "Executing" ++ blanks ::
    .many true isNameIgnoreCase :: blanks :: .char false (· == '-') :: blanks ::
      (Pattern.literalIgnoreCase "threads:" ++ blanks :: .many false T.isDigit :: blanks ::
        Pattern.literal "==="))

/-- `query_pattern` -/
def ladybugQuery : Pattern :=
  Pattern.literalIgnoreCase "Running benchmark" ++ blanks :: .many true isNameIgnoreCase ::
    blanks :: Pattern.literalIgnoreCase "with"

/-- `time_pattern` -/
def ladybugTime : Pattern :=
  Pattern.literalIgnoreCase "Time Taken (Average of Last 3 runs) (ms):" ++
    [blanks, .many true fun c => T.isDigit c || c == '.']

def ladybugMetric (variant query : Text) (ms : ν) : Metric ν where
  database := "ladybug"
  variant := variant
  benchmark := "ldbc"
  workload := query
  metricName := "query_time"
  metricValue := .inl ms
  unit := "ms"
  repetition := repetition

/-- The variant and the query. -/
def ladybugStep (st : Option Text × Option Text) (line : Text) :
    Option ((Option Text × Option Text) × List (Metric ν)) :=
  let line := Text.strip line
  match (ladybugVariant T).search line with
  | some m => some ((some (releaseVariant (m.headD [])), st.2), [])
  | none =>
    match ladybugQuery.search line with
    | some m => some ((st.1, some (m.headD [])), [])
    | none =>
      match (ladybugTime T).search line, st.1, st.2 with
      | some m, some variant, some query => do
        let ms ← F.float (m.headD [])
        pure (st, [ladybugMetric repetition variant query ms])
      | _, _, _ => some (st, [])

/-- `parse_ladybug_output` -/
def parseLadybugOutput (output : Text) : Option (List (Metric ν)) :=
  Lines.read (ladybugStep T F repetition) (none, none) output

/-! ## DuckDB -/

/-- The pattern of the query lines. -/
def duckdbQuery : Pattern :=
  .char true (· == 'q') :: .many true T.isDigit :: .char false (· == ',') ::
    [.many true fun c => T.isDigit c || c == '.']

def duckdbMetric (variant : String) (query : Text) (time : ν) : Metric ν where
  database := "duckdb"
  variant := variant.toList
  benchmark := "tpch"
  workload := query
  metricName := "query_time"
  metricValue := .inl time
  unit := "seconds"
  repetition := repetition

/-- The rows of the query lines of one variant. -/
def duckdbRows (variant : String) (lines : List Text) : Option (List (Metric ν)) :=
  (lines.mapM fun line =>
    match (duckdbQuery T).matchAt line with
    | none => some []
    | some (m, _) => do
      let time ← F.float (m.getD 2 [])
      pure [duckdbMetric repetition variant (m.getD 0 [] ++ m.getD 1 []) time]).map List.flatten

/-- `parse_duckdb_output` -/
def parseDuckdbOutput (output : Text) : Option (List (Metric ν)) := do
  let lines := Text.strippedLines (Text.strip output)
  let queryLines := lines.filter fun line => ((duckdbQuery T).matchAt line).isSome
  if queryLines.length < 4 then some []
  else
    let quarter := queryLines.length / 4
    let release ← duckdbRows T F repetition "release" (queryLines.take quarter)
    let mte ← duckdbRows T F repetition "release-mte"
      ((queryLines.take (quarter * 2)).drop quarter)
    let releaseCold ← duckdbRows T F repetition "release-cold"
      ((queryLines.take (quarter * 3)).drop (quarter * 2))
    let mteCold ← duckdbRows T F repetition "release-mte-cold" (queryLines.drop (quarter * 3))
    pure (release ++ mte ++ releaseCold ++ mteCold)

end MemSafeDB.Benchmark
