import MemSafeDB.Benchmark.Attribution
import MemSafeDB.Benchmark.Parsers

/-!
# The phases of DuckDB

`run_duckdb` announces each of its four phases with a line and prints the times of the queries
behind it. The parser passes over these lines and cuts the query lines into quarters, so its rows
are those of the phases only if the phases print the same number of lines.
-/

namespace MemSafeDB.Benchmark
open Lib

variable (T : Tables) {ν : Type} (F : ParserFloats ν) (repetition : Int)

/-! ## Lines -/

/-- The query and the time of a line `qN,seconds`. -/
def timing (line : Text) : Option (Text × ν) :=
  match (duckdbQuery T).matchAt (Text.strip line) with
  | none => none
  | some (m, _) => (F.float (m.getD 2 [])).map fun time => (m.getD 0 [] ++ m.getD 1 [], time)

/-- Whether the parser takes a line for a query line. -/
def isQueryLine (line : Text) : Bool := ((duckdbQuery T).matchAt (Text.strip line)).isSome

/-- What `run_duckdb` echoes before a phase. -/
def phaseLine (variant : String) : Text :=
  "=== Running ".toList ++ (variant.toList ++ " variant ===".toList)

/-- The lines that are printed before the first phase and in each of the phases. -/
structure DuckdbRun where
  before : List Text
  dynamicHot : List Text
  mteHot : List Text
  dynamicCold : List Text
  mteCold : List Text
  noNewline : ∀ line ∈ before ++ dynamicHot ++ mteHot ++ dynamicCold ++ mteCold, '\n' ∉ line
  before_other : ∀ line ∈ before, timing T F line = none

variable {T F}

namespace DuckdbRun

def lines (r : DuckdbRun T F) : List Text :=
  r.before ++ phaseLine "dynamic" :: (r.dynamicHot ++ phaseLine "mte" :: (r.mteHot ++
    phaseLine "dynamic-cold" :: (r.dynamicCold ++ phaseLine "mte-cold" :: r.mteCold)))

def output (r : DuckdbRun T F) : Text := Text.joinLines r.lines

variable (T F) in
/-- The rows of the lines of a phase. -/
def phaseRows (variant : String) (lines : List Text) : List (Metric ν) :=
  (lines.filterMap (timing T F)).map fun q => duckdbMetric repetition variant q.1 q.2

/-- One row for each line `qN,seconds`, with the variant of the phase that printed it. -/
def rows (r : DuckdbRun T F) : List (Metric ν) :=
  phaseRows T F repetition "release" r.dynamicHot ++
    phaseRows T F repetition "release-mte" r.mteHot ++
    phaseRows T F repetition "release-cold" r.dynamicCold ++
    phaseRows T F repetition "release-mte-cold" r.mteCold

/-- The times of all query lines can be read, the first three phases print equally many of them,
and the last one as many or up to three more. -/
structure Even (r : DuckdbRun T F) : Prop where
  readable : ∀ line ∈ r.lines, isQueryLine T line = true → timing T F line ≠ none
  hot : r.dynamicHot.countP (isQueryLine T) = r.mteHot.countP (isQueryLine T)
  dynamic : r.dynamicHot.countP (isQueryLine T) = r.dynamicCold.countP (isQueryLine T)
  le_last : r.dynamicHot.countP (isQueryLine T) ≤ r.mteCold.countP (isQueryLine T)
  last_le : r.mteCold.countP (isQueryLine T) ≤ r.dynamicHot.countP (isQueryLine T) + 3

/-- Fewer than four query lines give no rows. -/
def FiledByPhase (r : DuckdbRun T F) : Prop :=
  if r.lines.countP (isQueryLine T) < 4 then ∀ line ∈ r.lines, timing T F line = none
  else r.Even

end DuckdbRun

/-! ## Query lines -/

lemma timing_of_not_isQueryLine {line : Text} (h : isQueryLine T line = false) :
    timing T F line = none := by
  rw [isQueryLine, Option.isSome_eq_false_iff, Option.isNone_iff_eq_none] at h
  rw [timing, h]

lemma strip_ne_nil_of_isQueryLine {line : Text} (h : isQueryLine T line = true) :
    Text.strip line ≠ [] := by
  intro hnil
  rw [isQueryLine, hnil] at h
  cases h

lemma matchAt_equals (s : Text) : (duckdbQuery T).matchAt ('=' :: s) = none := by
  rw [duckdbQuery, Pattern.matchAt]
  rfl

/-- A line that begins and ends with an equals sign is no query line. -/
lemma not_isQueryLine_equals {first last : Text} (name a b : Text) (hfirst : first = '=' :: a)
    (hlast : last = b ++ ['=']) : isQueryLine T (first ++ (name ++ last)) = false := by
  have hends : first ++ (name ++ last) = '=' :: (a ++ (name ++ b) ++ ['=']) := by
    rw [hfirst, hlast, List.cons_append, List.append_assoc, List.append_assoc]
  rw [isQueryLine, hends, Text.strip_eq_self (by decide) (by decide), matchAt_equals]
  rfl

lemma isQueryLine_phaseLine (variant : String) : isQueryLine T (phaseLine variant) = false :=
  not_isQueryLine_equals variant.toList "== Running ".toList " variant ==".toList
    (by decide +kernel) (by decide +kernel)

lemma queryLines_strippedLines (text : Text) :
    ((Text.strippedLines text).filter fun line => ((duckdbQuery T).matchAt line).isSome) =
      ((Text.splitLines text).filter (isQueryLine T)).map Text.strip := by
  rw [Text.strippedLines, List.filter_map, List.filter_filter]
  congr 1
  refine List.filter_congr (fun line _ => ?_)
  cases hq : isQueryLine T line with
  | false =>
    rw [isQueryLine] at hq
    rw [Function.comp_apply, hq, Bool.false_and]
  | true =>
    have hne := strip_ne_nil_of_isQueryLine hq
    rw [isQueryLine] at hq
    rw [Function.comp_apply, hq, Bool.true_and]
    exact decide_eq_true hne

variable (T F) in
/-- The row of a query line, if its time can be read. -/
def queryRow (variant : String) (line : Text) : Option (List (Metric ν)) :=
  (timing T F line).map fun q => [duckdbMetric repetition variant q.1 q.2]

lemma duckdbRows_map_strip {variant : String} {ls : List Text}
    (hq : ∀ line ∈ ls, isQueryLine T line = true) :
    duckdbRows T F repetition variant (ls.map Text.strip) =
      (ls.mapM (queryRow T F repetition variant)).map List.flatten := by
  rw [duckdbRows, List.mapM_map]
  congr 1
  induction ls with
  | nil => rfl
  | cons line ls ih =>
    obtain ⟨hline, hls⟩ := List.forall_mem_cons.mp hq
    rw [List.mapM_cons, List.mapM_cons, ih hls]
    congr 1
    obtain ⟨⟨m, rest⟩, hm⟩ := Option.isSome_iff_exists.mp hline
    simp only [Function.comp_apply, queryRow, timing, hm]
    cases F.float (m.getD 2 []) with
    | none => rfl
    | some time => rfl

lemma duckdbRows_readable {variant : String} {ls : List Text}
    (hq : ∀ line ∈ ls, isQueryLine T line = true) (hr : ∀ line ∈ ls, timing T F line ≠ none) :
    duckdbRows T F repetition variant (ls.map Text.strip) =
      some (DuckdbRun.phaseRows T F repetition variant ls) := by
  rw [duckdbRows_map_strip repetition hq]
  induction ls with
  | nil => rfl
  | cons line ls ih =>
    obtain ⟨hline, hls⟩ := List.forall_mem_cons.mp hr
    obtain ⟨q, hq'⟩ := Option.ne_none_iff_exists'.mp hline
    obtain ⟨rows, hrows, heq⟩ :=
      Option.map_eq_some_iff.mp (ih (fun l hl => hq l (List.mem_cons_of_mem _ hl)) hls)
    rw [List.mapM_cons, queryRow, hq', hrows]
    change some (_ ++ rows.flatten) = _
    rw [heq, DuckdbRun.phaseRows, DuckdbRun.phaseRows, List.filterMap_cons, hq']
    rfl

lemma readable_of_duckdbRows {variant : String} {ls : List Text} {rows : List (Metric ν)}
    (hq : ∀ line ∈ ls, isQueryLine T line = true)
    (h : duckdbRows T F repetition variant (ls.map Text.strip) = some rows) :
    ∀ line ∈ ls, timing T F line ≠ none := by
  rw [duckdbRows_map_strip repetition hq] at h
  obtain ⟨lists, hlists, -⟩ := Option.map_eq_some_iff.mp h
  clear hq h
  induction ls generalizing lists with
  | nil => exact fun _ hline => absurd hline List.not_mem_nil
  | cons line ls ih =>
    rw [List.mapM_cons, Option.bind_eq_bind, Option.bind_eq_some_iff] at hlists
    obtain ⟨row, hrow, hrest⟩ := hlists
    obtain ⟨rest, hrest, -⟩ := Option.bind_eq_some_iff.mp hrest
    obtain ⟨q, hq, -⟩ := Option.map_eq_some_iff.mp hrow
    refine List.forall_mem_cons.mpr ⟨?_, ih rest hrest⟩
    rw [hq]
    exact Option.some_ne_none q

/-! ## Rows of a phase -/

namespace DuckdbRun

lemma phaseRows_filter (variant : String) (ls : List Text) :
    phaseRows T F repetition variant (ls.filter (isQueryLine T)) =
      phaseRows T F repetition variant ls := by
  rw [phaseRows, phaseRows, List.filterMap_filter]
  congr 1
  refine List.filterMap_congr (fun line _ => ?_)
  cases hq : isQueryLine T line with
  | false => exact (timing_of_not_isQueryLine hq).symm
  | true => rfl

/-- Whether a row has the variant. -/
def hasVariant (variant : String) (m : Metric ν) : Bool := m.variant = variant.toList

lemma countP_phaseRows {variant : String} {ls : List Text}
    (hr : ∀ line ∈ ls, timing T F line ≠ none) (other : String) :
    (phaseRows T F repetition variant ls).countP (hasVariant other) =
      if variant.toList = other.toList then ls.length else 0 := by
  induction ls with
  | nil => simp [phaseRows]
  | cons line ls ih =>
    obtain ⟨hline, hls⟩ := List.forall_mem_cons.mp hr
    obtain ⟨q, hq⟩ := Option.ne_none_iff_exists'.mp hline
    have hrows : phaseRows T F repetition variant (line :: ls) =
        duckdbMetric repetition variant q.1 q.2 :: phaseRows T F repetition variant ls := by
      rw [phaseRows, phaseRows, List.filterMap_cons, hq, List.map_cons]
    have hhead : hasVariant other (duckdbMetric repetition variant q.1 q.2) =
        decide (variant.toList = other.toList) := rfl
    rw [hrows, List.countP_cons, ih hls, hhead]
    by_cases heq : variant.toList = other.toList
    · simp [heq]
    · simp [heq]

lemma phaseRows_eq_nil {variant : String} {ls : List Text} :
    phaseRows T F repetition variant ls = [] ↔
      ∀ line ∈ ls, timing T F line = none := by
  rw [phaseRows, List.map_eq_nil_iff, List.filterMap_eq_nil_iff]

/-! ## Runs -/

variable (r : DuckdbRun T F)

lemma mem_lines {line : Text} (h : line ∈ r.lines) :
    line ∈ r.before ++ r.dynamicHot ++ r.mteHot ++ r.dynamicCold ++ r.mteCold ∨
      ∃ variant ∈ ["dynamic", "mte", "dynamic-cold", "mte-cold"], line = phaseLine variant := by
  simp only [lines, List.mem_append, List.mem_cons] at h ⊢
  grind

lemma splitLines_output : Text.splitLines r.output = r.lines := by
  refine Text.splitLines_joinLines (List.append_ne_nil_of_right_ne_nil _ (List.cons_ne_nil _ _)) ?_
  intro line hline
  rcases r.mem_lines hline with h | ⟨variant, hv, rfl⟩
  · exact r.noNewline line h
  · have hnone : ∀ variant ∈ ["dynamic", "mte", "dynamic-cold", "mte-cold"],
        '\n' ∉ phaseLine variant := by decide +kernel
    exact hnone variant hv

lemma filter_lines : r.lines.filter (isQueryLine T) =
    r.before.filter (isQueryLine T) ++ (r.dynamicHot.filter (isQueryLine T) ++
      (r.mteHot.filter (isQueryLine T) ++ (r.dynamicCold.filter (isQueryLine T) ++
        r.mteCold.filter (isQueryLine T)))) := by
  simp only [lines, List.filter_append, List.filter_cons, isQueryLine_phaseLine,
    Bool.false_eq_true, if_false]

/-! ## Quarters -/

lemma slices (q : Nat) (ls : List Text) :
    ls.take q ++ ((ls.take (q * 2)).drop q ++
      ((ls.take (q * 3)).drop (q * 2) ++ ls.drop (q * 3))) = ls := by
  have hstep : ∀ m n, m ≤ n → ls.take m ++ (ls.take n).drop m = ls.take n := by
    intro m n hmn
    have hsplit := List.take_append_drop m (ls.take n)
    rwa [List.take_take, Nat.min_eq_left hmn] at hsplit
  rw [← List.append_assoc, hstep q (q * 2) (by omega), ← List.append_assoc,
    hstep (q * 2) (q * 3) (by omega), List.take_append_drop]

/-- The slices of four lists, the first three of which have the length of a slice. -/
lemma slices_append {q : Nat} {a b c d : List Text} (ha : a.length = q) (hb : b.length = q)
    (hc : c.length = q) :
    (a ++ (b ++ (c ++ d))).take q = a ∧ ((a ++ (b ++ (c ++ d))).take (q * 2)).drop q = b ∧
      ((a ++ (b ++ (c ++ d))).take (q * 3)).drop (q * 2) = c ∧
        (a ++ (b ++ (c ++ d))).drop (q * 3) = d := by
  have hab : (a ++ b).length = q * 2 := by
    rw [List.length_append]
    omega
  have habc : (a ++ b ++ c).length = q * 3 := by
    rw [List.length_append]
    omega
  refine ⟨List.take_left' ha, ?_, ?_, ?_⟩
  · rw [← List.append_assoc, List.take_left' hab, List.drop_left' ha]
  · rw [← List.append_assoc, ← List.append_assoc, List.take_left' habc, List.drop_left' hab]
  · rw [← List.append_assoc, ← List.append_assoc, List.drop_left' habc]

variable (T F) in
/-- What the parser makes of the query lines. -/
def quarters (queries : List Text) : Option (List (Metric ν)) :=
  if queries.length < 4 then some []
  else do
    let quarter := queries.length / 4
    let release ← duckdbRows T F repetition "release" ((queries.take quarter).map Text.strip)
    let mte ← duckdbRows T F repetition "release-mte"
      (((queries.take (quarter * 2)).drop quarter).map Text.strip)
    let releaseCold ← duckdbRows T F repetition "release-cold"
      (((queries.take (quarter * 3)).drop (quarter * 2)).map Text.strip)
    let mteCold ← duckdbRows T F repetition "release-mte-cold"
      ((queries.drop (quarter * 3)).map Text.strip)
    pure (release ++ mte ++ releaseCold ++ mteCold)

lemma parseDuckdbOutput_output :
    parseDuckdbOutput T F repetition r.output =
      quarters T F repetition (r.lines.filter (isQueryLine T)) := by
  unfold parseDuckdbOutput quarters
  simp only [Text.strippedLines_strip, queryLines_strippedLines, splitLines_output,
    List.length_map, ← List.map_take, ← List.map_drop]

variable {queries : List Text}

lemma quarters_readable (hq : ∀ line ∈ queries, isQueryLine T line = true)
    (hr : ∀ line ∈ queries, timing T F line ≠ none) (hlen : ¬queries.length < 4) :
    quarters T F repetition queries =
      some (phaseRows T F repetition "release" (queries.take (queries.length / 4)) ++
        phaseRows T F repetition "release-mte"
          ((queries.take (queries.length / 4 * 2)).drop (queries.length / 4)) ++
        phaseRows T F repetition "release-cold"
          ((queries.take (queries.length / 4 * 3)).drop (queries.length / 4 * 2)) ++
        phaseRows T F repetition "release-mte-cold" (queries.drop (queries.length / 4 * 3))) := by
  have hrows : ∀ variant (ls : List Text), ls ⊆ queries →
      duckdbRows T F repetition variant (ls.map Text.strip) =
        some (phaseRows T F repetition variant ls) :=
    fun variant ls hsub => duckdbRows_readable repetition (fun line h => hq line (hsub h))
      (fun line h => hr line (hsub h))
  have htake : ∀ n, queries.take n ⊆ queries := fun n => List.take_subset n queries
  have hslice : ∀ m n, (queries.take n).drop m ⊆ queries :=
    fun m n => List.Subset.trans (List.drop_subset m _) (htake n)
  rw [quarters, if_neg hlen]
  simp only [hrows _ _ (htake _), hrows _ _ (hslice _ _), hrows _ _ (List.drop_subset _ queries)]
  rfl

/-- Without an exception, all times were read. -/
lemma readable_of_quarters {rows : List (Metric ν)}
    (hq : ∀ line ∈ queries, isQueryLine T line = true) (hlen : ¬queries.length < 4)
    (h : quarters T F repetition queries = some rows) :
    ∀ line ∈ queries, timing T F line ≠ none := by
  have hread : ∀ variant (ls : List Text) (out : List (Metric ν)), ls ⊆ queries →
      duckdbRows T F repetition variant (ls.map Text.strip) = some out →
        ∀ line ∈ ls, timing T F line ≠ none :=
    fun variant ls out hsub => readable_of_duckdbRows repetition (fun line h => hq line (hsub h))
  have htake : ∀ n, queries.take n ⊆ queries := fun n => List.take_subset n queries
  have hslice : ∀ m n, (queries.take n).drop m ⊆ queries :=
    fun m n => List.Subset.trans (List.drop_subset m _) (htake n)
  rw [quarters, if_neg hlen] at h
  obtain ⟨release, h1, h⟩ := Option.bind_eq_some_iff.mp h
  obtain ⟨mte, h2, h⟩ := Option.bind_eq_some_iff.mp h
  obtain ⟨releaseCold, h3, h⟩ := Option.bind_eq_some_iff.mp h
  obtain ⟨mteCold, h4, -⟩ := Option.bind_eq_some_iff.mp h
  intro line hline
  rw [← slices (queries.length / 4) queries] at hline
  simp only [List.mem_append] at hline
  rcases hline with h | h | h | h
  · exact hread _ _ _ (htake _) h1 line h
  · exact hread _ _ _ (hslice _ _) h2 line h
  · exact hread _ _ _ (hslice _ _) h3 line h
  · exact hread _ _ _ (List.drop_subset _ queries) h4 line h

/-- Rows of four variants tell how many lines of each of the first three there were. -/
lemma lengths_of_rows_eq {v₁ v₂ v₃ v₄ : String} (h12 : v₁.toList ≠ v₂.toList)
    (h13 : v₁.toList ≠ v₃.toList) (h14 : v₁.toList ≠ v₄.toList) (h23 : v₂.toList ≠ v₃.toList)
    (h24 : v₂.toList ≠ v₄.toList) (h34 : v₃.toList ≠ v₄.toList) {a b c d a' b' c' d' : List Text}
    (hr : ∀ line ∈ a ++ b ++ c ++ d, timing T F line ≠ none)
    (hr' : ∀ line ∈ a' ++ b' ++ c' ++ d', timing T F line ≠ none)
    (heq : phaseRows T F repetition v₁ a ++ phaseRows T F repetition v₂ b ++
        phaseRows T F repetition v₃ c ++ phaseRows T F repetition v₄ d =
      phaseRows T F repetition v₁ a' ++ phaseRows T F repetition v₂ b' ++
        phaseRows T F repetition v₃ c' ++ phaseRows T F repetition v₄ d') :
    a.length = a'.length ∧ b.length = b'.length ∧ c.length = c'.length := by
  simp only [List.forall_mem_append] at hr hr'
  obtain ⟨⟨⟨ha, hb⟩, hc⟩, hd⟩ := hr
  obtain ⟨⟨⟨ha', hb'⟩, hc'⟩, hd'⟩ := hr'
  have hcount : ∀ variant, _ = _ := fun variant => congrArg (List.countP (hasVariant variant)) heq
  simp only [List.countP_append, countP_phaseRows repetition ha, countP_phaseRows repetition hb,
    countP_phaseRows repetition hc, countP_phaseRows repetition hd,
    countP_phaseRows repetition ha', countP_phaseRows repetition hb',
    countP_phaseRows repetition hc', countP_phaseRows repetition hd'] at hcount
  refine ⟨?_, ?_, ?_⟩
  · simpa [h12.symm, h13.symm, h14.symm] using hcount v₁
  · simpa [h12, h23.symm, h24.symm] using hcount v₂
  · simpa [h13, h23, h34.symm] using hcount v₃

lemma timing_phaseLine (variant : String) : timing T F (phaseLine variant) = none :=
  timing_of_not_isQueryLine (isQueryLine_phaseLine variant)

/-- Nothing is timed in any line if nothing is timed in the phases. -/
lemma forall_lines_iff :
    (∀ line ∈ r.lines, timing T F line = none) ↔
      (∀ line ∈ r.dynamicHot, timing T F line = none) ∧
      (∀ line ∈ r.mteHot, timing T F line = none) ∧
      (∀ line ∈ r.dynamicCold, timing T F line = none) ∧
      ∀ line ∈ r.mteCold, timing T F line = none := by
  simp only [lines, List.forall_mem_append, List.forall_mem_cons, timing_phaseLine, true_and]
  exact and_iff_right r.before_other

lemma rows_eq_nil : r.rows repetition = [] ↔ ∀ line ∈ r.lines, timing T F line = none := by
  rw [forall_lines_iff, rows]
  simp only [List.append_eq_nil_iff, phaseRows_eq_nil, and_assoc]

/-- If all times can be read, the query lines are those of the phases. -/
lemma filter_lines_of_readable
    (hr : ∀ line ∈ r.lines.filter (isQueryLine T), timing T F line ≠ none) :
    r.lines.filter (isQueryLine T) =
      r.dynamicHot.filter (isQueryLine T) ++ (r.mteHot.filter (isQueryLine T) ++
        (r.dynamicCold.filter (isQueryLine T) ++ r.mteCold.filter (isQueryLine T))) := by
  have hbefore : r.before.filter (isQueryLine T) = [] := by
    refine List.eq_nil_iff_forall_not_mem.mpr (fun line hline => ?_)
    refine hr line ?_ (r.before_other line (List.mem_of_mem_filter hline))
    rw [filter_lines]
    exact List.mem_append_left _ hline
  rw [filter_lines, hbefore, List.nil_append]

/-- The parser files the times of DuckDB by phase exactly if fewer than four lines are taken for
query lines and none of them has a time, or all of them have one, the first three phases print
equally many, and the last one as many or up to three more. -/
theorem parseDuckdbOutput_eq_iff :
    parseDuckdbOutput T F repetition r.output = some (r.rows repetition) ↔ r.FiledByPhase := by
  rw [parseDuckdbOutput_output, FiledByPhase, List.countP_eq_length_filter]
  set queries := r.lines.filter (isQueryLine T) with hqueries
  have hq : ∀ line ∈ queries, isQueryLine T line = true :=
    fun line hline => List.of_mem_filter hline
  by_cases hlen : queries.length < 4
  · rw [if_pos hlen, quarters, if_pos hlen, Option.some_inj, eq_comm, rows_eq_nil]
  · rw [if_neg hlen]
    constructor
    · intro h
      have hr := readable_of_quarters repetition hq hlen h
      have hsplit := r.filter_lines_of_readable hr
      have hall : ∀ line ∈ r.dynamicHot.filter (isQueryLine T) ++
          r.mteHot.filter (isQueryLine T) ++ r.dynamicCold.filter (isQueryLine T) ++
            r.mteCold.filter (isQueryLine T), timing T F line ≠ none := by
        intro line hline
        refine hr line ?_
        rw [hqueries, hsplit, ← List.append_assoc, ← List.append_assoc]
        exact hline
      have hslices : ∀ line ∈ queries.take (queries.length / 4) ++
          (queries.take (queries.length / 4 * 2)).drop (queries.length / 4) ++
            (queries.take (queries.length / 4 * 3)).drop (queries.length / 4 * 2) ++
              queries.drop (queries.length / 4 * 3), timing T F line ≠ none := by
        intro line hline
        rw [List.append_assoc, List.append_assoc, slices] at hline
        exact hr line hline
      rw [quarters_readable repetition hq hr hlen, Option.some_inj, rows,
        ← phaseRows_filter repetition "release" r.dynamicHot,
        ← phaseRows_filter repetition "release-mte" r.mteHot,
        ← phaseRows_filter repetition "release-cold" r.dynamicCold,
        ← phaseRows_filter repetition "release-mte-cold" r.mteCold] at h
      obtain ⟨h1, h2, h3⟩ := lengths_of_rows_eq repetition (by decide +kernel) (by decide +kernel)
        (by decide +kernel) (by decide +kernel) (by decide +kernel) (by decide +kernel)
        hslices hall h
      have hlength := congrArg List.length hsplit
      simp only [← hqueries, List.length_append, List.length_take, List.length_drop]
        at h1 h2 h3 hlength
      refine ⟨fun line hline hquery => hr line (List.mem_filter.mpr ⟨hline, hquery⟩), ?_, ?_, ?_, ?_⟩
      all_goals
        simp only [List.countP_eq_length_filter]
        omega
    · intro h
      have hr : ∀ line ∈ queries, timing T F line ≠ none :=
        fun line hline => h.readable line (List.mem_of_mem_filter hline) (hq line hline)
      have hsplit := r.filter_lines_of_readable hr
      obtain ⟨-, hhot, hdynamic, hle, hlast⟩ := h
      simp only [List.countP_eq_length_filter] at hhot hdynamic hle hlast
      rw [quarters_readable repetition hq hr hlen, rows,
        ← phaseRows_filter repetition "release" r.dynamicHot,
        ← phaseRows_filter repetition "release-mte" r.mteHot,
        ← phaseRows_filter repetition "release-cold" r.dynamicCold,
        ← phaseRows_filter repetition "release-mte-cold" r.mteCold]
      have hlength := congrArg List.length hsplit
      simp only [← hqueries, List.length_append] at hlength
      have hquarter : queries.length / 4 = (r.dynamicHot.filter (isQueryLine T)).length := by omega
      obtain ⟨h1, h2, h3, h4⟩ := slices_append (d := r.mteCold.filter (isQueryLine T))
        hquarter.symm (hhot.symm.trans hquarter.symm) (hdynamic.symm.trans hquarter.symm)
      rw [← hsplit, ← hqueries] at h1 h2 h3 h4
      rw [h1, h2, h3, h4]

end DuckdbRun

/-- Arithmetic for whole numbers. -/
def wholeParserFloats : ParserFloats Nat :=
  { wholeFloats with quotient := fun a b => some (a / b) }

/-- In the first phase one of two queries fails. -/
def shortRun : DuckdbRun asciiTables wholeParserFloats where
  before := []
  dynamicHot := ["q1,1".toList]
  mteHot := ["q1,2".toList, "q2,3".toList]
  dynamicCold := ["q1,4".toList, "q2,5".toList]
  mteCold := ["q1,6".toList, "q2,7".toList]
  noNewline := by decide +kernel
  before_other := fun _ h => absurd h List.not_mem_nil

/-- The second time of the hot phase of `mte` is filed under `release-cold`. -/
theorem shortRun_misfiled :
    parseDuckdbOutput asciiTables wholeParserFloats 1 shortRun.output ≠ some (shortRun.rows 1) := by
  intro h
  have hvariants : (parseDuckdbOutput asciiTables wholeParserFloats 1 shortRun.output).map
      (List.map Metric.variant) ≠ some ((shortRun.rows 1).map Metric.variant) := by
    decide +kernel
  exact hvariants (congrArg (Option.map (List.map Metric.variant)) h)

end MemSafeDB.Benchmark
