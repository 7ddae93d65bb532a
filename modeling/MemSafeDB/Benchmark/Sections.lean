import MemSafeDB.Benchmark.Markers
import MemSafeDB.Benchmark.Quarters

/-!
# Sections

A header announces the variant of the lines behind it. If two outputs are put together, the second
of which begins with a header, the rows should be those of the two. The parsers that read line by
line remember more than the variant, and two of them keep a part of it across a header: that of
db_bench the last benchmark, and that of Ladybug the query.
-/

namespace MemSafeDB.Benchmark
open Lib

variable (T : Tables) {ν : Type} (F : ParserFloats ν) (repetition : Int)

/-! ## Headers that reset everything -/

lemma leveldbStep_header {line : Text}
    (h : ((leveldbMarker T).matchLine (Text.strip line)).isSome = true) (st st' : LeveldbState) :
    leveldbStep T F repetition st line = leveldbStep T F repetition st' line := by
  obtain ⟨m, hm⟩ := Option.isSome_iff_exists.mp h
  simp only [leveldbStep, hm]

lemma sqliteStep_header {line : Text} (h : (sqliteVariant.search (Text.strip line)).isSome = true)
    (st st' : Option Text × Option Nat) :
    sqliteStep T F repetition st line = sqliteStep T F repetition st' line := by
  obtain ⟨m, hm⟩ := Option.isSome_iff_exists.mp h
  simp only [sqliteStep, hm]

/-! ## The last benchmark of db_bench -/

/-- A header of db_bench. -/
def IsBenchHeader (line : Text) : Prop := ((benchMarker T).matchLine (Text.strip line)).isSome = true

/-- A line with the time of a benchmark. -/
def IsBenchData (line : Text) : Prop :=
  ¬IsBenchHeader T line ∧ (benchData.matchAt (Text.strip line)).isSome = true

/-- Whether the line has the statistic. -/
def HasStat (name : String) (line : Text) : Prop :=
  ((benchStat name).search (Text.strip line)).isSome = true

/-- A line with statistics of a benchmark. -/
def IsBenchStats (line : Text) : Prop :=
  ¬IsBenchHeader T line ∧
    if "Average:".toList <:+: Text.strip line then HasStat "StdDev:" line
    else "Min:".toList <:+: Text.strip line ∧
      (HasStat "Min:" line ∨ HasStat "Median:" line ∨ HasStat "Max:" line)

instance : DecidablePred (IsBenchHeader T) := fun _ => inferInstanceAs (Decidable (_ = true))

instance : DecidablePred (IsBenchData T) := fun _ => inferInstanceAs (Decidable (¬_ ∧ _ = true))

instance (name : String) : DecidablePred (HasStat name) :=
  fun _ => inferInstanceAs (Decidable (_ = true))

instance : DecidablePred (IsBenchStats T) :=
  fun line => inferInstanceAs (Decidable (_ ∧ if "Average:".toList <:+: Text.strip line then _ else _))

variable {T F repetition}

section Bench

variable {info : BenchmarkInfo} {line : Text} {name metricName : String}
  {threads : Nat} {variant? : Option Text} {last : Option BenchmarkInfo}

lemma statRow_eq_nil (h : ¬HasStat name line) :
    statRow F repetition info name metricName (Text.strip line) = some [] := by
  rw [HasStat, Bool.not_eq_true, Option.isSome_eq_false_iff, Option.isNone_iff_eq_none] at h
  rw [statRow, h]

lemma statRow_ne_nil (h : HasStat name line) {rows : List (Metric ν)}
    (hrows : statRow F repetition info name metricName (Text.strip line) = some rows) :
    rows ≠ [] := by
  obtain ⟨m, hm⟩ := Option.isSome_iff_exists.mp h
  rw [statRow, hm] at hrows
  obtain ⟨value, -, hvalue⟩ := Option.bind_eq_some_iff.mp hrows
  obtain rfl := Option.some.inj hvalue
  exact List.cons_ne_nil _ _

/-- Statistics give rows, if their numbers can be read, and other lines give none. -/
lemma statRows_spec (F : ParserFloats ν) (repetition : Int) (info : BenchmarkInfo)
    (hheader : ¬IsBenchHeader T line) :
    (¬IsBenchStats T line → statRows F repetition info (Text.strip line) = some []) ∧
      (IsBenchStats T line → ∀ rows, statRows F repetition info (Text.strip line) = some rows →
        rows ≠ []) := by
  unfold statRows
  by_cases havg : "Average:".toList <:+: Text.strip line
  · simp only [IsBenchStats, hheader, not_false_eq_true, true_and, if_pos havg]
    exact ⟨statRow_eq_nil, fun h rows => statRow_ne_nil h⟩
  · simp only [IsBenchStats, hheader, not_false_eq_true, true_and, if_neg havg]
    by_cases hmin : "Min:".toList <:+: Text.strip line
    · simp only [hmin, true_and, if_true]
      constructor
      · intro h
        rw [not_or, not_or] at h
        rw [statRow_eq_nil h.1, statRow_eq_nil h.2.1, statRow_eq_nil h.2.2]
        rfl
      · intro h rows hrows
        obtain ⟨r1, h1, hrows⟩ := Option.bind_eq_some_iff.mp hrows
        obtain ⟨r2, h2, hrows⟩ := Option.bind_eq_some_iff.mp hrows
        obtain ⟨r3, h3, hrows⟩ := Option.bind_eq_some_iff.mp hrows
        obtain rfl := Option.some.inj hrows
        intro hnil
        rw [List.append_eq_nil_iff, List.append_eq_nil_iff] at hnil
        rcases h with h | h | h
        · exact statRow_ne_nil h h1 hnil.1.1
        · exact statRow_ne_nil h h2 hnil.1.2
        · exact statRow_ne_nil h h3 hnil.2
    · simp only [hmin, false_and, not_false_eq_true, if_false, true_implies, false_implies,
        and_true]

lemma matchLine_eq_none (h : ¬IsBenchHeader T line) :
    (benchMarker T).matchLine (Text.strip line) = none := by
  rwa [IsBenchHeader, Bool.not_eq_true, Option.isSome_eq_false_iff, Option.isNone_iff_eq_none] at h

lemma benchStep_header {m : List Text} (h : (benchMarker T).matchLine (Text.strip line) = some m)
    (st : BenchState) : benchStep T F repetition st line = (T.int (m.getD 0 [])).map
      (fun threads => (((threads, some (releaseVariant (m.getD 1 []))), st.2), [])) := by
  have hne : Text.strip line ≠ [] := by
    intro hnil
    rw [hnil] at h
    cases h
  simp only [benchStep, if_neg hne, h]
  cases T.int (m.getD 0 []) with
  | none => rfl
  | some threads => rfl

/-- A line that is neither a header nor the time of a benchmark leaves the state as it is. -/
lemma benchStep_other (hheader : ¬IsBenchHeader T line) (hdata : ¬IsBenchData T line)
    (st : BenchState) : benchStep T F repetition st line = match st.2 with
      | some info => (statRows F repetition info (Text.strip line)).map fun rows => (st, rows)
      | none => some (st, []) := by
  have hmatch := matchLine_eq_none hheader
  have hnodata : benchData.matchAt (Text.strip line) = none := by
    rw [IsBenchData, not_and, Bool.not_eq_true, Option.isSome_eq_false_iff,
      Option.isNone_iff_eq_none] at hdata
    exact hdata hheader
  by_cases hnil : Text.strip line = []
  · have hstep : benchStep T F repetition st line = some (st, []) := by
      simp only [benchStep, if_pos hnil]
    rw [hstep, hnil]
    cases st.2 with
    | none => rfl
    | some info => rfl
  · obtain ⟨current, last⟩ := st
    cases last with
    | none => simp only [benchStep, if_neg hnil, hmatch, hnodata]
    | some info => simp only [benchStep, if_neg hnil, hmatch, hnodata]

lemma benchStep_data {threads : Nat} {variant : Text} {m : List Text} {rest : Text}
    (hheader : ¬IsBenchHeader T line) (hdata : benchData.matchAt (Text.strip line) = some (m, rest))
    (last : Option BenchmarkInfo) :
    benchStep T F repetition ((threads, some variant), last) line =
      (F.float (m.getD 1 [])).map (fun micros =>
        let info := ⟨variant, m.getD 0 [] ++ "_t".toList ++ decimal threads⟩
        (((threads, some variant), some info),
          [benchMetric repetition info "latency_avg" micros])) := by
  have hmatch := matchLine_eq_none hheader
  have hnil : Text.strip line ≠ [] := by
    intro hnil
    rw [hnil] at hdata
    cases hdata
  simp only [benchStep, if_neg hnil, hmatch, hdata]
  cases F.float (m.getD 1 []) with
  | none => rfl
  | some micros => rfl

/-- db_bench remembers the last benchmark. -/
theorem bench_remembers : Lines.Remembers (benchStep T F repetition) (fun c => c.2 ≠ none)
    (IsBenchData T) (IsBenchStats T) where
  ready_step := by
    intro c last line r hready hstep
    by_cases hheader : IsBenchHeader T line
    · obtain ⟨m, hm⟩ := Option.isSome_iff_exists.mp hheader
      rw [benchStep_header hm] at hstep
      obtain ⟨threads, -, rfl⟩ := Option.map_eq_some_iff.mp hstep
      exact Option.some_ne_none _
    · by_cases hdata : IsBenchData T line
      · obtain ⟨⟨m, rest⟩, hm⟩ := Option.isSome_iff_exists.mp hdata.2
        obtain ⟨threads, variant?⟩ := c
        obtain ⟨variant, rfl⟩ := Option.ne_none_iff_exists'.mp hready
        rw [benchStep_data hheader hm] at hstep
        obtain ⟨micros, -, rfl⟩ := Option.map_eq_some_iff.mp hstep
        exact hready
      · rw [benchStep_other hheader hdata] at hstep
        cases last with
        | none =>
          obtain rfl := Option.some.inj hstep
          exact hready
        | some info =>
          obtain ⟨rows, -, rfl⟩ := Option.map_eq_some_iff.mp hstep
          exact hready
  set := by
    intro c line last last' hready hdata
    obtain ⟨⟨m, rest⟩, hm⟩ := Option.isSome_iff_exists.mp hdata.2
    obtain ⟨threads, variant?⟩ := c
    obtain ⟨variant, rfl⟩ := Option.ne_none_iff_exists'.mp hready
    rw [benchStep_data hdata.1 hm, benchStep_data hdata.1 hm]
  keep := by
    intro c line r hready hdata hstep
    by_cases hheader : IsBenchHeader T line
    · obtain ⟨m, hm⟩ := Option.isSome_iff_exists.mp hheader
      rw [benchStep_header hm] at hstep
      obtain ⟨threads, hthreads, rfl⟩ := Option.map_eq_some_iff.mp hstep
      refine ⟨rfl, rfl, fun info => ⟨fun _ => ?_, fun huse => absurd hheader huse.1⟩⟩
      rw [benchStep_header hm, hthreads]
      rfl
    · rw [benchStep_other hheader hdata] at hstep
      obtain rfl := Option.some.inj hstep
      refine ⟨rfl, rfl, fun info => ?_⟩
      obtain ⟨hunused, hused⟩ := statRows_spec F repetition info hheader
      rw [benchStep_other hheader hdata]
      refine ⟨fun h => ?_, fun h r' hr' => ?_⟩
      · change (statRows F repetition info (Text.strip line)).map _ = _
        rw [hunused h]
        rfl
      · obtain ⟨rows, hrows, rfl⟩ := Option.map_eq_some_iff.mp hr'
        exact ⟨rfl, hused h rows hrows⟩

/-- The time of a benchmark stands behind a header. -/
def NamesBenchmark (T : Tables) : List Text → Prop
  | [] => False
  | l :: ls => (IsBenchHeader T l ∧ ∃ line ∈ ls, IsBenchData T line) ∨ NamesBenchmark T ls

instance decidableNamesBenchmark (T : Tables) : (ls : List Text) → Decidable (NamesBenchmark T ls)
  | [] => inferInstanceAs (Decidable False)
  | l :: ls =>
    have := decidableNamesBenchmark T ls
    inferInstanceAs (Decidable ((IsBenchHeader T l ∧ ∃ line ∈ ls, IsBenchData T line) ∨ _))

/-- A line without a variant leaves the last benchmark as it is. -/
lemma benchStep_noVariant (hheader : ¬IsBenchHeader T line) {threads : Nat}
    {r : BenchState × List (Metric ν)}
    (h : benchStep T F repetition ((threads, none), last) line = some r) :
    r.1 = ((threads, none), last) := by
  have hmatch := matchLine_eq_none hheader
  by_cases hnil : Text.strip line = []
  · simp only [benchStep, if_pos hnil, Option.some_inj] at h
    rw [← h]
  · cases last with
    | none =>
      rcases hdata : benchData.matchAt (Text.strip line) with _ | ⟨m, rest⟩
      · simp only [benchStep, if_neg hnil, hmatch, hdata, Option.some_inj] at h
        rw [← h]
      · simp only [benchStep, if_neg hnil, hmatch, hdata, Option.some_inj] at h
        rw [← h]
    | some info =>
      rcases hdata : benchData.matchAt (Text.strip line) with _ | ⟨m, rest⟩
      · simp only [benchStep, if_neg hnil, hmatch, hdata] at h
        obtain ⟨rows, -, rfl⟩ := Option.map_eq_some_iff.mp h
        rfl
      · simp only [benchStep, if_neg hnil, hmatch, hdata] at h
        obtain ⟨rows, -, rfl⟩ := Option.map_eq_some_iff.mp h
        rfl

lemma benchStep_state {st : BenchState} {r : BenchState × List (Metric ν)}
    (h : benchStep T F repetition st line = some r) :
    (r.1.2 ≠ none ↔ st.2 ≠ none ∨ (st.1.2 ≠ none ∧ IsBenchData T line)) ∧
      (r.1.1.2 ≠ none ↔ st.1.2 ≠ none ∨ IsBenchHeader T line) := by
  obtain ⟨⟨threads, variant?⟩, last⟩ := st
  by_cases hheader : IsBenchHeader T line
  · have hdata : ¬IsBenchData T line := fun hdata => hdata.1 hheader
    obtain ⟨m, hm⟩ := Option.isSome_iff_exists.mp hheader
    rw [benchStep_header hm] at h
    obtain ⟨threads', -, rfl⟩ := Option.map_eq_some_iff.mp h
    simp [hheader, hdata]
  · cases variant? with
    | none => simp [benchStep_noVariant hheader h, hheader]
    | some variant =>
      by_cases hdata : IsBenchData T line
      · obtain ⟨⟨m, rest⟩, hm⟩ := Option.isSome_iff_exists.mp hdata.2
        rw [benchStep_data hheader hm] at h
        obtain ⟨micros, -, rfl⟩ := Option.map_eq_some_iff.mp h
        simp [hdata]
      · rw [benchStep_other hheader hdata] at h
        have hst : r.1 = ((threads, some variant), last) := by
          cases last with
          | none => rw [← Option.some.inj h]
          | some info =>
            obtain ⟨rows, -, rfl⟩ := Option.map_eq_some_iff.mp h
            rfl
        simp [hst, hdata]

lemma bench_last {ls : List Text} {st : BenchState} {r : BenchState × List (Metric ν)}
    (h : Lines.run (benchStep T F repetition) st ls = some r) :
    r.1.2 ≠ none ↔ st.2 ≠ none ∨ (st.1.2 ≠ none ∧ ∃ line ∈ ls, IsBenchData T line) ∨
      NamesBenchmark T ls := by
  induction ls generalizing st r with
  | nil =>
    obtain rfl := Option.some.inj h
    simp [NamesBenchmark]
  | cons line ls ih =>
    obtain ⟨st', rows, rest, hstep, hrest, -⟩ := Lines.run_cons.mp h
    obtain ⟨hlast, hvariant⟩ := benchStep_state hstep
    rw [NamesBenchmark, List.exists_mem_cons_iff, ih hrest, hlast, hvariant]
    generalize (st.2 ≠ none) = remembered
    generalize (st.1.2 ≠ none) = ready
    generalize (∃ line ∈ ls, IsBenchData T line) = data
    generalize NamesBenchmark T ls = named
    grind

end Bench

/-! ## The query of Ladybug -/

section Ladybug

/-- A header of Ladybug. -/
def IsLadybugHeader (T : Tables) (line : Text) : Prop :=
  ((ladybugVariant T).search (Text.strip line)).isSome = true

/-- A line that names a query. -/
def IsLadybugQuery (T : Tables) (line : Text) : Prop :=
  ¬IsLadybugHeader T line ∧ (ladybugQuery.search (Text.strip line)).isSome = true

/-- A line with a time. -/
def IsLadybugTime (T : Tables) (line : Text) : Prop :=
  ¬IsLadybugHeader T line ∧ ((ladybugTime T).search (Text.strip line)).isSome = true

instance (T : Tables) : DecidablePred (IsLadybugHeader T) :=
  fun _ => inferInstanceAs (Decidable (_ = true))

instance (T : Tables) : DecidablePred (IsLadybugQuery T) :=
  fun _ => inferInstanceAs (Decidable (¬_ ∧ _ = true))

instance (T : Tables) : DecidablePred (IsLadybugTime T) :=
  fun _ => inferInstanceAs (Decidable (¬_ ∧ _ = true))

variable {line : Text}

lemma ladybugStep_header {m : List Text} (h : (ladybugVariant T).search (Text.strip line) = some m)
    (st : Option Text × Option Text) : ladybugStep T F repetition st line =
      some ((some (releaseVariant (m.headD [])), st.2), []) := by
  simp only [ladybugStep, h]

lemma ladybugStep_query {m : List Text} (hheader : ¬IsLadybugHeader T line)
    (h : ladybugQuery.search (Text.strip line) = some m) (st : Option Text × Option Text) :
    ladybugStep T F repetition st line = some ((st.1, some (m.headD [])), []) := by
  rw [IsLadybugHeader, Bool.not_eq_true, Option.isSome_eq_false_iff, Option.isNone_iff_eq_none]
    at hheader
  simp only [ladybugStep, hheader, h]

lemma ladybugStep_other (hheader : ¬IsLadybugHeader T line) (hquery : ¬IsLadybugQuery T line)
    (st : Option Text × Option Text) : ladybugStep T F repetition st line =
      match (ladybugTime T).search (Text.strip line), st.1, st.2 with
      | some m, some variant, some query =>
        (F.float (m.headD [])).map fun ms => (st, [ladybugMetric repetition variant query ms])
      | _, _, _ => some (st, []) := by
  rw [IsLadybugQuery, not_and, Bool.not_eq_true, Option.isSome_eq_false_iff,
    Option.isNone_iff_eq_none] at hquery
  have hnone := hquery hheader
  rw [IsLadybugHeader, Bool.not_eq_true, Option.isSome_eq_false_iff, Option.isNone_iff_eq_none]
    at hheader
  obtain ⟨variant?, query?⟩ := st
  simp only [ladybugStep, hheader, hnone]
  cases (ladybugTime T).search (Text.strip line) with
  | none => rfl
  | some m =>
    cases variant? with
    | none => rfl
    | some variant =>
      cases query? with
      | none => rfl
      | some query =>
        change F.float (m.headD []) >>= _ = (F.float (m.headD [])).map _
        cases F.float (m.headD []) with
        | none => rfl
        | some ms => rfl

/-- Ladybug remembers the query. -/
theorem ladybug_remembers : Lines.Remembers (ladybugStep T F repetition) (fun c => c ≠ none)
    (IsLadybugQuery T) (IsLadybugTime T) where
  ready_step := by
    intro c query? line r hready hstep
    by_cases hheader : IsLadybugHeader T line
    · obtain ⟨m, hm⟩ := Option.isSome_iff_exists.mp hheader
      rw [ladybugStep_header hm, Option.some_inj] at hstep
      subst hstep
      exact Option.some_ne_none _
    · by_cases hquery : IsLadybugQuery T line
      · obtain ⟨m, hm⟩ := Option.isSome_iff_exists.mp hquery.2
        rw [ladybugStep_query hheader hm, Option.some_inj] at hstep
        subst hstep
        exact hready
      · rw [ladybugStep_other hheader hquery] at hstep
        split at hstep
        · obtain ⟨ms, -, rfl⟩ := Option.map_eq_some_iff.mp hstep
          exact hready
        · obtain rfl := Option.some.inj hstep
          exact hready
  set := by
    intro c line query? query?' hready hquery
    obtain ⟨m, hm⟩ := Option.isSome_iff_exists.mp hquery.2
    rw [ladybugStep_query hquery.1 hm, ladybugStep_query hquery.1 hm]
  keep := by
    intro c line r hready hquery hstep
    by_cases hheader : IsLadybugHeader T line
    · obtain ⟨m, hm⟩ := Option.isSome_iff_exists.mp hheader
      rw [ladybugStep_header hm, Option.some_inj] at hstep
      subst hstep
      refine ⟨rfl, rfl, fun query => ⟨fun _ => ?_, fun htime => absurd hheader htime.1⟩⟩
      rw [ladybugStep_header hm]
    · obtain ⟨variant, rfl⟩ := Option.ne_none_iff_exists'.mp hready
      rw [ladybugStep_other hheader hquery] at hstep
      have hr : r = ((some variant, none), []) := by
        cases htime : (ladybugTime T).search (Text.strip line) with
        | none =>
          rw [htime] at hstep
          exact (Option.some.inj hstep).symm
        | some m =>
          rw [htime] at hstep
          exact (Option.some.inj hstep).symm
      subst hr
      refine ⟨rfl, rfl, fun query => ?_⟩
      rw [ladybugStep_other hheader hquery]
      constructor
      · intro hnotime
        rw [IsLadybugTime, not_and, Bool.not_eq_true, Option.isSome_eq_false_iff,
          Option.isNone_iff_eq_none] at hnotime
        rw [hnotime hheader]
      · intro htime r' hr'
        obtain ⟨m, hm⟩ := Option.isSome_iff_exists.mp htime.2
        rw [hm] at hr'
        obtain ⟨ms, -, rfl⟩ := Option.map_eq_some_iff.mp hr'
        exact ⟨rfl, List.cons_ne_nil _ _⟩

lemma ladybug_last {ls : List Text} {st : Option Text × Option Text}
    {r : (Option Text × Option Text) × List (Metric ν)}
    (h : Lines.run (ladybugStep T F repetition) st ls = some r) :
    r.1.2 ≠ none ↔ st.2 ≠ none ∨ ∃ line ∈ ls, IsLadybugQuery T line := by
  induction ls generalizing st r with
  | nil =>
    obtain rfl := Option.some.inj h
    simp
  | cons line ls ih =>
    obtain ⟨st', rows, rest, hstep, hrest, -⟩ := Lines.run_cons.mp h
    have hst : st'.2 ≠ none ↔ st.2 ≠ none ∨ IsLadybugQuery T line := by
      by_cases hheader : IsLadybugHeader T line
      · obtain ⟨m, hm⟩ := Option.isSome_iff_exists.mp hheader
        have hquery : ¬IsLadybugQuery T line := fun hquery => hquery.1 hheader
        rw [ladybugStep_header hm, Option.some_inj, Prod.mk.injEq] at hstep
        rw [← hstep.1]
        simp [hquery]
      · by_cases hquery : IsLadybugQuery T line
        · obtain ⟨m, hm⟩ := Option.isSome_iff_exists.mp hquery.2
          rw [ladybugStep_query hheader hm, Option.some_inj, Prod.mk.injEq] at hstep
          rw [← hstep.1]
          simp [hquery]
        · rw [ladybugStep_other hheader hquery] at hstep
          have hsame : st' = st := by
            split at hstep
            · obtain ⟨ms, -, heq⟩ := Option.map_eq_some_iff.mp hstep
              exact (Prod.mk.inj heq).1.symm
            · exact (Prod.mk.inj (Option.some.inj hstep)).1.symm
          simp [hsame, hquery]
    rw [List.exists_mem_cons_iff, ih hrest, hst, or_assoc]

end Ladybug

/-! ## The parsers with markers -/

/-- The parsers that find the variant in a marker. -/
inductive MarkerParser
  | redis
  | leveldbBench
  | leveldb
  | sqlite
  | ladybug

namespace MarkerParser

variable (T F repetition)

def parse : MarkerParser → Text → Option (List (Metric ν))
  | redis => parseRedisOutput F repetition
  | leveldbBench => parseLeveldbBenchOutput T F repetition
  | leveldb => parseLeveldbOutput T F repetition
  | sqlite => parseSqliteOutput T F repetition
  | ladybug => parseLadybugOutput T F repetition

/-- A line that is a whole header. -/
def IsHeader (line : Text) : MarkerParser → Prop
  | redis => IsRedisHeader line
  | leveldbBench => IsBenchHeader T line
  | leveldb => ((leveldbMarker T).matchLine (Text.strip line)).isSome = true
  | sqlite => (sqliteVariant.search (Text.strip line)).isSome = true
  | ladybug => IsLadybugHeader T line

/-- What the lines of the first text leave to remember is used by those of the second one before
it is set again. -/
def CarriesOver (a b : List Text) : MarkerParser → Prop
  | leveldbBench => NamesBenchmark T a ∧ Lines.UsedFirst (IsBenchData T) (IsBenchStats T) b
  | ladybug => (∃ line ∈ a, IsLadybugQuery T line) ∧
      Lines.UsedFirst (IsLadybugQuery T) (IsLadybugTime T) b
  | _ => False

instance (a b : List Text) (p : MarkerParser) : Decidable (p.CarriesOver T a b) :=
  match p with
  | leveldbBench => inferInstanceAs (Decidable (_ ∧ _))
  | ladybug => inferInstanceAs (Decidable (_ ∧ _))
  | redis | leveldb | sqlite => inferInstanceAs (Decidable False)

variable {T F repetition} {a b line : Text} {rest : List Text} {rowsA rowsB : List (Metric ν)}

lemma bench_newline_iff (hb : Text.splitLines b = line :: rest) (hheader : IsBenchHeader T line)
    (ha : parseLeveldbBenchOutput T F repetition a = some rowsA)
    (hrows : parseLeveldbBenchOutput T F repetition b = some rowsB) :
    parseLeveldbBenchOutput T F repetition (a ++ '\n' :: b) = some (rowsA ++ rowsB) ↔
      ¬CarriesOver T (Text.splitLines a) (Text.splitLines b) leveldbBench := by
  obtain ⟨m, hm⟩ := Option.isSome_iff_exists.mp hheader
  obtain ⟨⟨⟨c, last⟩, rows⟩, hrun, rfl⟩ := Option.map_eq_some_iff.mp ha
  -- the threads of the header can be read, for the second text can
  obtain ⟨threads, hthreads⟩ : ∃ threads, T.int (m.getD 0 []) = some threads := by
    obtain ⟨r, hr, -⟩ := Option.map_eq_some_iff.mp hrows
    rw [hb] at hr
    obtain ⟨_, _, _, hstep, -⟩ := Lines.run_cons.mp hr
    rw [benchStep_header hm] at hstep
    obtain ⟨threads, hthreads, -⟩ := Option.map_eq_some_iff.mp hstep
    exact ⟨threads, hthreads⟩
  have hl : ∀ c last, benchStep T F repetition (c, last) line =
      some (((threads, some (releaseVariant (m.getD 1 []))), last), []) := by
    intro c last
    rw [benchStep_header hm, hthreads]
    rfl
  have hlast : last ≠ none ↔ NamesBenchmark T (Text.splitLines a) := by
    have hlast := bench_last hrun
    simpa using hlast
  have hfirst : Lines.UsedFirst (IsBenchData T) (IsBenchStats T) (Text.splitLines b) ↔
      Lines.UsedFirst (IsBenchData T) (IsBenchStats T) rest := by
    have hdata : ¬IsBenchData T line := fun h => h.1 hheader
    have hstats : ¬IsBenchStats T line := fun h => h.1 hheader
    simp [hb, Lines.UsedFirst, hdata, hstats]
  rw [CarriesOver, ← hlast, hfirst]
  exact bench_remembers.read_newline_iff (Option.some_ne_none _) hb hl hrun hrows

lemma ladybug_newline_iff (hb : Text.splitLines b = line :: rest) (hheader : IsLadybugHeader T line)
    (ha : parseLadybugOutput T F repetition a = some rowsA)
    (hrows : parseLadybugOutput T F repetition b = some rowsB) :
    parseLadybugOutput T F repetition (a ++ '\n' :: b) = some (rowsA ++ rowsB) ↔
      ¬CarriesOver T (Text.splitLines a) (Text.splitLines b) ladybug := by
  obtain ⟨m, hm⟩ := Option.isSome_iff_exists.mp hheader
  obtain ⟨⟨⟨variant?, query?⟩, rows⟩, hrun, rfl⟩ := Option.map_eq_some_iff.mp ha
  have hl : ∀ c query?, ladybugStep T F repetition (c, query?) line =
      some ((some (releaseVariant (m.headD [])), query?), []) :=
    fun c query? => ladybugStep_header hm (c, query?)
  have hquery : query? ≠ none ↔ ∃ line ∈ Text.splitLines a, IsLadybugQuery T line := by
    have hquery := ladybug_last hrun
    simpa using hquery
  have hfirst : Lines.UsedFirst (IsLadybugQuery T) (IsLadybugTime T) (Text.splitLines b) ↔
      Lines.UsedFirst (IsLadybugQuery T) (IsLadybugTime T) rest := by
    have hset : ¬IsLadybugQuery T line := fun h => h.1 hheader
    have htime : ¬IsLadybugTime T line := fun h => h.1 hheader
    simp [hb, Lines.UsedFirst, hset, htime]
  rw [CarriesOver, ← hquery, hfirst]
  exact ladybug_remembers.read_newline_iff (Option.some_ne_none _) hb hl hrun hrows

/-- A header cuts the output into two, unless something is carried over it. -/
theorem parse_newline_iff (p : MarkerParser) (hb : Text.splitLines b = line :: rest)
    (hheader : p.IsHeader T line) (ha : p.parse T F repetition a = some rowsA)
    (hrows : p.parse T F repetition b = some rowsB) :
    p.parse T F repetition (a ++ '\n' :: b) = some (rowsA ++ rowsB) ↔
      ¬p.CarriesOver T (Text.splitLines a) (Text.splitLines b) := by
  cases p with
  | redis => exact iff_of_true (parseRedisOutput_newline hb hheader ha hrows) not_false
  | leveldbBench => exact bench_newline_iff hb hheader ha hrows
  | leveldb =>
    exact iff_of_true (Lines.read_of_reset hb (leveldbStep_header T F repetition hheader) ha hrows)
      not_false
  | sqlite =>
    exact iff_of_true (Lines.read_of_reset hb (sqliteStep_header T F repetition hheader) ha hrows)
      not_false
  | ladybug => exact ladybug_newline_iff hb hheader ha hrows

/-! ## Runs that die early -/

/-- The rows of the two outputs put together are not those of the first and of the second. -/
def Misfiles (p : MarkerParser) (a b : Text) : Prop := ∃ rowsA rowsB,
  p.parse asciiTables wholeParserFloats 1 a = some rowsA ∧
    p.parse asciiTables wholeParserFloats 1 b = some rowsB ∧
      p.parse asciiTables wholeParserFloats 1 (a ++ '\n' :: b) ≠ some (rowsA ++ rowsB)

lemma misfiles_of_length {p : MarkerParser} {i j k : Nat}
    (ha : (p.parse asciiTables wholeParserFloats 1 a).map List.length = some i)
    (hb : (p.parse asciiTables wholeParserFloats 1 b).map List.length = some j)
    (hboth : (p.parse asciiTables wholeParserFloats 1 (a ++ '\n' :: b)).map List.length = some k)
    (hk : k ≠ i + j) : p.Misfiles a b := by
  obtain ⟨rowsA, hA, rfl⟩ := Option.map_eq_some_iff.mp ha
  obtain ⟨rowsB, hB, rfl⟩ := Option.map_eq_some_iff.mp hb
  refine ⟨rowsA, rowsB, hA, hB, fun h => hk ?_⟩
  rw [h, Option.map_some, Option.some_inj, List.length_append] at hboth
  exact hboth.symm

def statistics : Text := "Min: 1 Median: 2 Max: 9".toList

def fillseq : Text := "fillseq : 3 micros/op; 12 MB/s".toList

def benchHeader (variant : String) : Text :=
  "=== Running threads 1 - ".toList ++ variant.toList ++ " ===".toList

/-- A section of db_bench in which no benchmark prints its time. -/
def diedEarly : Text := Text.joinLines [benchHeader "Dynamic", statistics]

def fullSection : Text := Text.joinLines [benchHeader "MTE", fillseq, statistics]

theorem diedEarly_newline : leveldbBench.parse asciiTables wholeParserFloats 1
    (diedEarly ++ '\n' :: fullSection) =
      leveldbBench.parse asciiTables wholeParserFloats 1 fullSection := by
  have hsome : (leveldbBench.parse asciiTables wholeParserFloats 1 fullSection).isSome = true := by
    decide +kernel
  have hlength : (leveldbBench.parse asciiTables wholeParserFloats 1 diedEarly).map List.length =
      some 0 := by
    decide +kernel
  have hlines : Text.splitLines fullSection = [benchHeader "MTE", fillseq, statistics] := by
    decide +kernel
  have hheader : IsBenchHeader asciiTables (benchHeader "MTE") := by decide +kernel
  obtain ⟨rows, hrows⟩ := Option.isSome_iff_exists.mp hsome
  obtain ⟨none, hnone, hnil⟩ := Option.map_eq_some_iff.mp hlength
  obtain rfl := List.length_eq_zero_iff.mp hnil
  rw [hrows]
  exact (parse_newline_iff leveldbBench hlines hheader hnone hrows).mpr (by decide +kernel)

def ladybugHeader (variant : String) : Text :=
  "=== Executing ".toList ++ variant.toList ++ " - threads: 1 ===".toList

/-- A query that prints no time. -/
def diedInQuery : Text :=
  Text.joinLines [ladybugHeader "MTE", "Running benchmark q1 with".toList]

/-- A time without a query. -/
def timeOnly : Text := Text.joinLines [ladybugHeader "Dynamic",
  "Time Taken (Average of Last 3 runs) (ms): 12".toList]

/-- What stands behind the second header is filed under a benchmark, and a query, that stand in
front of it. -/
theorem diedEarly_misfiled :
    (leveldbBench.IsHeader asciiTables (benchHeader "Dynamic") ∧
      leveldbBench.Misfiles fullSection diedEarly) ∧
    (ladybug.IsHeader asciiTables (ladybugHeader "Dynamic") ∧
      ladybug.Misfiles diedInQuery timeOnly) := by
  have hbench : IsBenchHeader asciiTables (benchHeader "Dynamic") := by decide +kernel
  have hladybug : IsLadybugHeader asciiTables (ladybugHeader "Dynamic") := by decide +kernel
  refine ⟨⟨hbench, ?_⟩, ⟨hladybug, ?_⟩⟩
  · exact @misfiles_of_length _ _ _ 4 0 7 (by decide +kernel) (by decide +kernel)
      (by decide +kernel) (by decide)
  · exact @misfiles_of_length _ _ _ 0 0 1 (by decide +kernel) (by decide +kernel)
      (by decide +kernel) (by decide)

end MarkerParser

end MemSafeDB.Benchmark
