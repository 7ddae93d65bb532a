import MemSafeDB.Benchmark.Ycsb

/-!
# Whose numbers the rows hold

A block holds the output of its own run and whatever the commands print up to the next marker:
the load of the next run, or the beginning of the next script. The rows are those of the run
alone as long as these do not print a status line.
-/

namespace MemSafeDB.Benchmark
open Lib

variable {T : Tables} {db : Database} {threads : ThreadSet}

/-! ## Markers -/

lemma isDigit_digitChar {d : Nat} (h : d < 10) : T.isDigit (Nat.digitChar d) = true := by
  have hall : ∀ d < 10, (Nat.digitChar d).toNat < 128 ∧ (Nat.digitChar d).isDigit = true := by decide
  rw [T.isDigit_ascii _ (hall d h).1, (hall d h).2]

lemma isDigit_of_mem_decimal (n : Nat) : ∀ c ∈ decimal n, T.isDigit c = true := by
  refine decimal_induction (P := fun _ s => ∀ c ∈ s, T.isDigit c = true) ?_ ?_ n
  · intro d hd c hc
    rw [List.mem_singleton.mp hc]
    exact isDigit_digitChar hd
  · intro n _ ih c hc
    rcases List.mem_append.mp hc with hc | hc
    · exact ih c hc
    · rw [List.mem_singleton.mp hc]
      exact isDigit_digitChar (Nat.mod_lt n (by decide))

/-- The characters of names are ASCII. -/
lemma toNat_lt_of_word {c : Char} (h : (c.isAlphanum || c == '_') = true) : c.toNat < 128 := by
  have hz : c.toNat = c.val.toNat := rfl
  rcases Bool.or_eq_true _ _ ▸ h with h | h
  · delta Char.isAlphanum Char.isAlpha Char.isUpper Char.isLower Char.isDigit at h
    simp only [Bool.or_eq_true, Bool.and_eq_true, decide_eq_true_eq, UInt32.le_iff_toNat_le,
      ge_iff_le] at h
    have h1 : 'Z'.val.toNat = 90 := rfl
    have h2 : 'z'.val.toNat = 122 := rfl
    have h3 : '9'.val.toNat = 57 := rfl
    omega
  · rw [beq_iff_eq.mp h]
    decide

lemma Variant.isWord (v : Variant) : ∀ c ∈ v.name, T.isWord c = true := by
  intro c hc
  rw [T.isWord_ascii c (toNat_lt_of_word (v.word c hc))]
  exact v.word c hc

lemma strip_markerLine (tag : RunTag) : Text.strip (markerLine db tag) = markerLine db tag := by
  have hends : ∃ m, markerLine db tag = '=' :: (m ++ ['=']) := by
    refine ⟨db.markerStart.toList.tail ++ tag.workload :: (" threads=".toList ++
      (decimal tag.threads ++ (" variant=".toList ++ (tag.variant.name ++ " ==".toList)))), ?_⟩
    cases db <;> simp [markerLine, Database.markerStart]
  obtain ⟨m, hm⟩ := hends
  rw [hm]
  exact Text.strip_eq_self (by decide) (by decide) m

/-- The parser reads from a marker what the script has put into it. -/
lemma markerGroups_markerLine {tag : RunTag} (h : tag.workload ∈ allWorkloads) :
    db.markerGroups T (markerLine db tag) =
      some [[tag.workload], decimal tag.threads, tag.variant.name] := by
  have hspace : T.isDigit ' ' = false ∧ T.isWord ' ' = false := by
    rw [T.isDigit_ascii _ (by decide), T.isWord_ascii _ (by decide)]
    decide
  have hw : ('a' ≤ tag.workload && tag.workload ≤ 'f') = true := by
    revert h
    generalize tag.workload = w
    revert w
    decide
  have hname : Pattern.matchAt (.many true T.isWord :: Pattern.literal " ===")
      (tag.variant.name ++ " ===".toList) = some ([tag.variant.name], []) :=
    Pattern.matchAt_many tag.variant.ne tag.variant.isWord hspace.2 _ "===".toList
  have hthreads : Pattern.matchAt (.many true T.isDigit ::
        (Pattern.literal " variant=" ++ .many true T.isWord :: Pattern.literal " ==="))
      (decimal tag.threads ++ (" variant=".toList ++ (tag.variant.name ++ " ===".toList))) =
      some ([decimal tag.threads, tag.variant.name], []) := by
    refine (Pattern.matchAt_many (decimal_plain tag.threads).1
      (isDigit_of_mem_decimal tag.threads) hspace.1 _
      ("variant=".toList ++ (tag.variant.name ++ " ===".toList))).trans ?_
    have hvariant := Pattern.matchAt_literal " variant="
      (.many true T.isWord :: Pattern.literal " ===") (tag.variant.name ++ " ===".toList)
    exact congrArg _ (hvariant.trans hname)
  rw [Database.markerGroups, strip_markerLine, Pattern.matchLine, markerLine, Database.marker,
    Pattern.matchAt_literal, Pattern.matchAt, if_pos hw, Pattern.matchAt_literal, hthreads]
  rfl

lemma newline_notMem_markerLine {tag : RunTag} (h : tag.workload ∈ allWorkloads) :
    '\n' ∉ markerLine db tag := by
  have hw : tag.workload ≠ '\n' := by
    revert h
    generalize tag.workload = w
    revert w
    decide
  have hdec : '\n' ∉ decimal tag.threads := fun hc => ((decimal_plain tag.threads).2.1 _ hc).2.1 rfl
  have hname : '\n' ∉ tag.variant.name := fun hc => absurd (tag.variant.word _ hc) (by decide)
  have hstart : '\n' ∉ db.markerStart.toList := by cases db <;> decide
  simp only [markerLine, List.mem_append, List.mem_cons, not_or]
  exact ⟨hstart, Ne.symm hw, by decide, hdec, by decide, hname, by decide⟩

/-! ## Blocks -/

/-- Lines without a marker go to the current block. -/
lemma foldl_blockStep {ls : List Text} (h : ∀ l ∈ ls, db.markerGroups T l = none)
    (done : List Block) (cur : Option Block) :
    ls.foldl (blockStep T db) (done, cur) =
      (done, cur.map fun b => { b with lines := b.lines ++ ls }) := by
  induction ls generalizing cur with
  | nil => simp
  | cons l ls ih =>
    obtain ⟨hl, hls⟩ := List.forall_mem_cons.mp h
    rw [List.foldl_cons, blockStep, hl, ih hls]
    cases cur <;> simp

lemma before_other {c : Option Command} (hc : ∀ tag, c ≠ some (.echo tag)) (out : List Text)
    (entries : List Entry) : before ((c, out) :: entries) = out ++ before entries := by
  have hecho : Entry.isEcho (c, out) = false := by
    rcases c with _ | _ | _ | tag | _ <;> first | rfl | exact absurd rfl (hc tag)
  simp [before, hecho]

lemma runs_other {c : Option Command} (hc : ∀ tag, c ≠ some (.echo tag)) (out : List Text)
    (entries : List Entry) : runs ((c, out) :: entries) = runs entries := by
  rcases c with _ | _ | _ | tag | _ <;> first | rfl | exact absurd rfl (hc tag)

lemma lines_other {c : Option Command} (hc : ∀ tag, c ≠ some (.echo tag)) (out : List Text) :
    Entry.lines db (c, out) = out := by
  rcases c with _ | _ | _ | tag | _ <;> first | rfl | exact absurd rfl (hc tag)

/-- The blocks are those of the runs, each with all that is printed up to the next marker. -/
lemma Paired.blocks {entries : List Entry} (h : Paired T db entries) (done : List Block)
    (cur : Option Block) :
    finishBlocks ((entries.flatMap (Entry.lines db)).foldl (blockStep T db) (done, cur)) =
      done ++ (cur.map fun b => { b with lines := b.lines ++ before entries }).toList ++
        (runs entries).map fun r => ⟨r.groups, r.own ++ r.rest⟩ := by
  induction h generalizing done cur with
  | nil => cases cur <;> simp [finishBlocks, before, runs]
  | @run tag out own entries htag hown h ih =>
    have hstep : blockStep T db (done, cur) (markerLine db tag) =
        (done ++ cur.toList, some ⟨[[tag.workload], decimal tag.threads, tag.variant.name], []⟩) := by
      rw [blockStep, markerGroups_markerLine htag]
    rw [List.flatMap_cons, List.flatMap_cons, List.foldl_append, List.foldl_append,
      Entry.lines, List.foldl_cons, List.foldl_nil, hstep, lines_other (by simp),
      foldl_blockStep (fun l hl => (hown l hl).2), ih]
    cases cur <;> simp [runs, Run.groups, before, Entry.isEcho]
  | @other c out entries hc hout h ih =>
    have hecho := fun tag => (hc tag).1
    rw [List.flatMap_cons, List.foldl_append, lines_other hecho,
      foldl_blockStep (fun l hl => (hout l hl).2), ih, before_other hecho, runs_other hecho]
    cases cur <;> simp

/-! ## Scripts -/

/-- Every run follows the echo of its own marker. -/
inductive WellPaired : List Command → Prop where
  | nil : WellPaired []
  | run {tag : RunTag} {cs : List Command} (htag : tag.workload ∈ allWorkloads)
      (h : WellPaired cs) : WellPaired (.echo tag :: .run tag :: cs)
  | shell {c : Shell} {cs : List Command} (h : WellPaired cs) : WellPaired (.shell c :: cs)
  | load {w : Char} {t : Nat} {cs : List Command} (h : WellPaired cs) :
      WellPaired (.load w t :: cs)

lemma WellPaired.append {cs cs' : List Command} (h : WellPaired cs) (h' : WellPaired cs') :
    WellPaired (cs ++ cs') := by
  induction h with
  | nil => exact h'
  | run htag _ ih => exact .run htag ih
  | shell _ ih => exact .shell ih
  | load _ ih => exact .load ih

lemma WellPaired.flatMap {α : Type} {l : List α} {f : α → List Command}
    (h : ∀ a ∈ l, WellPaired (f a)) : WellPaired (l.flatMap f) := by
  induction l with
  | nil => exact .nil
  | cons a l ih =>
    obtain ⟨ha, hl⟩ := List.forall_mem_cons.mp h
    exact ha.append (ih hl)

lemma wellPaired_runCommands {variant : Variant} {workloads : List Char}
    {prepare : Char → List Command} (hw : ∀ w ∈ workloads, w ∈ allWorkloads)
    (hprepare : ∀ w, WellPaired (prepare w)) :
    WellPaired (runCommands variant threads workloads prepare) :=
  .flatMap fun w hmem => .flatMap fun _ _ => (hprepare w).append (.run (hw w hmem) .nil)

lemma wellPaired_script (variant : Variant) : WellPaired (db.script variant threads) := by
  have hro : ∀ w ∈ roWorkloads, w ∈ allWorkloads := by decide
  have hins : ∀ w ∈ insWorkloads, w ∈ allWorkloads := by decide
  have hnil : ∀ _ : Char, WellPaired [] := fun _ => .nil
  have hload : ∀ (c : Shell) (w : Char), WellPaired [.shell c, .load w threads.max] :=
    fun _ _ => .shell (.load .nil)
  cases db with
  | leveldb =>
    refine (((WellPaired.append ?_ (wellPaired_runCommands hro hnil)).append
      (wellPaired_runCommands hins (hload _))).append ?_)
    · exact .shell (.shell (.shell (.load .nil)))
    · exact .shell .nil
  | redis =>
    refine (((WellPaired.append ?_ (wellPaired_runCommands hro hnil)).append
      (wellPaired_runCommands hins (hload _))).append ?_)
    · exact .shell (.shell (.shell (.shell (.shell (.shell (.load .nil))))))
    · exact .shell (.shell (.shell (.shell (.shell .nil))))

lemma Line.plain {out : List (Line T db)} :
    ∀ l ∈ out.map Line.text, '\n' ∉ l ∧ db.markerGroups T l = none := by
  intro l hl
  obtain ⟨line, -, rfl⟩ := List.mem_map.mp hl
  exact ⟨line.noNewline, line.noMarker⟩

lemma WellPaired.paired {cs : List Command} (h : WellPaired cs)
    {steps : List (Command × List (Line T db))} (hsteps : steps.map Prod.fst = cs)
    {entries : List Entry} (he : Paired T db entries) :
    Paired T db (steps.map (fun step => (some step.1, step.2.map Line.text)) ++ entries) := by
  induction h generalizing steps with
  | nil =>
    rw [List.map_eq_nil_iff.mp hsteps]
    exact he
  | run htag _ ih =>
    match steps, hsteps with
    | (_, _) :: (_, own) :: steps, hsteps =>
      simp only [List.map_cons, List.cons.injEq] at hsteps
      obtain ⟨rfl, rfl, hsteps⟩ := hsteps
      exact .run htag Line.plain (ih hsteps)
  | shell _ ih =>
    match steps, hsteps with
    | (_, out) :: steps, hsteps =>
      simp only [List.map_cons, List.cons.injEq] at hsteps
      obtain ⟨rfl, hsteps⟩ := hsteps
      exact .other (by simp) Line.plain (ih hsteps)
  | load _ ih =>
    match steps, hsteps with
    | (_, out) :: steps, hsteps =>
      simp only [List.map_cons, List.cons.injEq] at hsteps
      obtain ⟨rfl, hsteps⟩ := hsteps
      exact .other (by simp) Line.plain (ih hsteps)

lemma markerGroups_nil : db.markerGroups T [] = none := by
  cases db <;> rfl

lemma paired_entries (sessions : List (Session T db threads)) :
    Paired T db (sessions.flatMap Session.entries) := by
  induction sessions with
  | nil => exact .nil
  | cons s sessions ih =>
    rw [List.flatMap_cons, Session.entries, List.append_assoc]
    refine (wellPaired_script s.variant).paired s.script (.other (by simp) ?_ ih)
    simp [markerGroups_nil]

/-! ## The output -/

lemma splitLines_flatMap {ls : List Text} (h : ∀ l ∈ ls, '\n' ∉ l) (t : Text) :
    Text.splitLines (ls.flatMap (fun l => l ++ ['\n']) ++ t) = ls ++ Text.splitLines t := by
  induction ls with
  | nil => rfl
  | cons l ls ih =>
    obtain ⟨hl, hls⟩ := List.forall_mem_cons.mp h
    rw [List.flatMap_cons, List.append_assoc, List.append_assoc, List.singleton_append,
      Text.splitLines_line hl, ih hls, List.cons_append]

lemma Paired.noNewline {entries : List Entry} (h : Paired T db entries) :
    ∀ l ∈ entries.flatMap (Entry.lines db), '\n' ∉ l := by
  induction h with
  | nil => exact nofun
  | @run tag out own entries htag hown h ih =>
    rw [List.flatMap_cons, List.flatMap_cons, List.forall_mem_append, List.forall_mem_append]
    refine ⟨fun l hl => ?_, fun l hl => ?_, ih⟩
    · rw [List.mem_singleton.mp hl]
      exact newline_notMem_markerLine htag
    · rw [lines_other (by simp)] at hl
      exact (hown l hl).1
  | @other c out entries hc hout h ih =>
    rw [List.flatMap_cons, List.forall_mem_append, lines_other fun tag => (hc tag).1]
    exact ⟨fun l hl => (hout l hl).1, ih⟩

/-- The lines of the output of one script. -/
def Session.lines (s : Session T db threads) : List Text :=
  s.steps.flatMap fun step => Entry.lines db (some step.1, step.2.map Line.text)

lemma Session.lines_entries (s : Session T db threads) :
    s.entries.flatMap (Entry.lines db) = s.lines ++ [[]] := by
  simp [Session.entries, Session.lines, List.flatMap_append, List.flatMap_map, Entry.lines]

lemma Session.noNewline (s : Session T db threads) : ∀ l ∈ s.lines, '\n' ∉ l := by
  have h := (paired_entries [s]).noNewline
  rw [List.flatMap_cons, List.flatMap_nil, List.append_nil, s.lines_entries] at h
  exact fun l hl => h l (List.mem_append_left _ hl)

/-- The lines of the whole output are those of the entries. -/
lemma splitLines_fullOutput {sessions : List (Session T db threads)} (hne : sessions ≠ []) :
    Text.splitLines (fullOutput sessions) =
      (sessions.flatMap Session.entries).flatMap (Entry.lines db) := by
  induction sessions with
  | nil => exact absurd rfl hne
  | cons s sessions ih =>
    have houtput : s.output = s.lines.flatMap fun l => l ++ ['\n'] := rfl
    rw [List.flatMap_cons, List.flatMap_append, s.lines_entries, List.append_assoc]
    cases sessions with
    | nil =>
      have h := splitLines_flatMap s.noNewline []
      rw [List.append_nil, ← houtput] at h
      simpa [fullOutput, Text.joinLines, Text.splitLines] using h
    | cons s' sessions =>
      have h := splitLines_flatMap s.noNewline ('\n' :: fullOutput (s' :: sessions))
      rw [Text.splitLines, if_pos rfl, ← houtput, ih (List.cons_ne_nil _ _)] at h
      rw [fullOutput, List.map_cons, List.map_cons, Text.joinLines_cons_cons]
      exact h

/-- The runs of the scripts. -/
def allRuns (sessions : List (Session T db threads)) : List Run :=
  runs (sessions.flatMap Session.entries)

theorem blocks_fullOutput (sessions : List (Session T db threads)) :
    blocks T db (fullOutput sessions) =
      (allRuns sessions).map fun r => ⟨r.groups, r.own ++ r.rest⟩ := by
  cases sessions with
  | nil =>
    simp [blocks, fullOutput, Text.joinLines, Text.splitLines, blockStep, markerGroups_nil,
      finishBlocks, allRuns, runs]
  | cons s sessions =>
    rw [blocks, splitLines_fullOutput (List.cons_ne_nil _ _), (paired_entries _).blocks]
    rfl

lemma Paired.before_noNewline {entries : List Entry} (h : Paired T db entries) :
    ∀ l ∈ before entries, '\n' ∉ l := by
  induction h with
  | nil => exact nofun
  | run htag hown h ih => exact nofun
  | @other c out entries hc hout h ih =>
    rw [before_other fun tag => (hc tag).1, List.forall_mem_append]
    exact ⟨fun l hl => (hout l hl).1, ih⟩

lemma Paired.runs_noNewline {entries : List Entry} (h : Paired T db entries) :
    ∀ r ∈ runs entries, (∀ l ∈ r.own, '\n' ∉ l) ∧ ∀ l ∈ r.rest, '\n' ∉ l := by
  induction h with
  | nil => exact nofun
  | run htag hown h ih =>
    rw [runs, List.forall_mem_cons]
    exact ⟨⟨fun l hl => (hown l hl).1, h.before_noNewline⟩, ih⟩
  | other hc hout h ih =>
    rwa [runs_other fun tag => (hc tag).1]

/-! ## The rows of a block -/

variable {ν : Type} {F : Floats ν} {cfg : RunConfig}

lemma anchored_ldbTp : Pattern.Anchored (ldbTp T) := by
  have hdigit : T.isDigit 'R' = false := by
    rw [T.isDigit_ascii _ (by decide)]
    decide
  have hspace : Text.isSpace 'R' = false := by decide
  have htail : ∀ q ∈ (ldbTp T).tail, q.accepts 'R' = false := by
    simp [ldbTp, Pattern.literal, Piece.accepts, hdigit, hspace]
  intro c hc q hq
  obtain rfl : c = 'R' := of_decide_eq_true hc
  exact htail q hq

lemma ends_ldbTp : Pattern.Ends '\n' (ldbTp T) := by
  have hdigit : T.isDigit '\n' = false := by
    rw [T.isDigit_ascii _ (by decide)]
    decide
  simp [ldbTp, Pattern.literal, Pattern.Ends, Piece.nonEmpty, hdigit]

lemma anchored_redisOverall : Pattern.Anchored redisOverall := by
  have htail : ∀ q ∈ redisOverall.tail, q.accepts '[' = false := by decide
  intro c hc q hq
  have hsame : ∀ c, Pattern.sameLetter '[' c = (c = '[' || c = '[' || false || false || false) :=
    fun _ => rfl
  obtain rfl : c = '[' := by simpa [hsame] using (hsame c).symm.trans hc
  exact htail q hq

lemma ends_redisOverall : Pattern.Ends '\n' redisOverall := by
  simp [redisOverall, Pattern.literalIgnoreCase, Pattern.Ends, Piece.nonEmpty, isDecimal]

lemma lastStatus_append (own rest : List Text) :
    lastStatus (own ++ rest) = (lastStatus rest).or (lastStatus own) := by
  rw [lastStatus, List.reverse_append, List.find?_append]
  rfl

lemma lastStatus_splitLines {ls : List Text} (h : ∀ l ∈ ls, '\n' ∉ l) :
    lastStatus (Text.splitLines (Text.joinLines ls)) = lastStatus ls := by
  cases ls with
  | nil => decide
  | cons l ls => rw [Text.splitLines_joinLines (List.cons_ne_nil l ls) h]

variable (T F) in
/-- When the rows of a run do not depend on the lines that follow its own in the block. -/
def Database.KeepsRows (own rest : List Text) : Database → Prop
  | .leveldb =>
    match (ldbTp T).search (Text.joinLines own) with
    | none => (ldbTp T).search (Text.joinLines (own ++ rest)) = none
    | some tp => F.float (tp.headD []) ≠ none →
      ∀ stat, lastStatus rest = some stat → latency T F (some stat) = latency T F (lastStatus own)
  | .redis => redisOverall.search (Text.joinLines own) = none →
    match redisRate (Text.joinLines own) with
    | none => redisRate (Text.joinLines (own ++ rest)) = none
    | some rate => ∃ rate', redisRate (Text.joinLines (own ++ rest)) = some rate' ∧
      F.float rate' = F.float rate

/-- The rows of a LevelDB run with a throughput. -/
def leveldbRowList (cfg : RunConfig) (groups : List Text) (threads : Nat) (value : ν)
    (latencyAvg : Option Text) : List (Row ν) :=
  let row := row cfg "leveldb" (groups.getD 2 [])
    (groups.getD 0 [] ++ "_t".toList ++ groups.getD 1 []) cfg.persistence threads
  row "throughput" (.inl value) "ops/sec" ::
    (latencyAvg.toList.map fun avg => row "latency_avg" (.inr avg) "us")

lemma leveldbRowList_injective (groups : List Text) (threads : Nat) (value : ν) :
    Function.Injective (leveldbRowList cfg groups threads value) := by
  rintro (_ | a) (_ | b) h
  · rfl
  · simp [leveldbRowList] at h
  · simp [leveldbRowList] at h
  · simpa [leveldbRowList, row] using h

lemma leveldbRows_of_search {groups : List Text} {text : Text} {tp : List Text} {t : Nat}
    (h : (ldbTp T).search text = some tp) (ht : T.int (groups.getD 1 []) = some t) :
    leveldbRows T F cfg groups text = (F.float (tp.headD [])).bind fun value =>
      (latency T F (lastStatus (Text.splitLines text))).map
        (leveldbRowList cfg groups t value) := by
  simp only [leveldbRows, h, ht, Option.bind_eq_bind, Option.bind_some, Option.map_eq_bind]
  rfl

lemma leveldbRows_eq_iff {own rest : List Text} (hown : ∀ l ∈ own, '\n' ∉ l)
    (hrest : ∀ l ∈ rest, '\n' ∉ l) {groups : List Text} {t : Nat}
    (ht : T.int (groups.getD 1 []) = some t) :
    leveldbRows T F cfg groups (Text.joinLines (own ++ rest)) =
        leveldbRows T F cfg groups (Text.joinLines own) ↔
      Database.KeepsRows T F own rest .leveldb := by
  have hall : ∀ l ∈ own ++ rest, '\n' ∉ l := List.forall_mem_append.mpr ⟨hown, hrest⟩
  rw [Database.KeepsRows]
  cases hsearch : (ldbTp T).search (Text.joinLines own) with
  | none =>
    have hnone : leveldbRows T F cfg groups (Text.joinLines own) = some [] := by
      rw [leveldbRows, hsearch]
    rw [hnone]
    cases hblock : (ldbTp T).search (Text.joinLines (own ++ rest)) with
    | none => simp [leveldbRows, hblock]
    | some tp =>
      rw [leveldbRows_of_search hblock ht]
      simp [leveldbRowList, Option.bind_eq_some_iff]
  | some tp =>
    have hblock := Pattern.search_joinLines anchored_ldbTp ends_ldbTp hsearch rest
    rw [leveldbRows_of_search hsearch ht, leveldbRows_of_search hblock ht,
      lastStatus_splitLines hall, lastStatus_splitLines hown, lastStatus_append]
    change _ ↔ (F.float (tp.headD []) ≠ none → _)
    cases F.float (tp.headD []) with
    | none => exact iff_of_true rfl fun h => absurd rfl h
    | some value =>
      rw [Option.bind_some, Option.bind_some,
        (Option.map_injective (leveldbRowList_injective groups t value)).eq_iff]
      cases lastStatus rest <;> simp

/-- The rows of a Redis run with a throughput. -/
def redisRowList (cfg : RunConfig) (groups : List Text) (threads : Nat) (tp : ν) : List (Row ν) :=
  [row cfg "redis" (groups.getD 2 []) (groups.getD 0 []) cfg.persistence threads "throughput"
    (.inl tp) "ops/sec"]

lemma redisRows_of_rate {groups : List Text} {text rate : Text} {t : Nat}
    (h : redisRate text = some rate) (ht : T.int (groups.getD 1 []) = some t) :
    redisRows T F cfg groups text = (F.float rate).map (redisRowList cfg groups t) := by
  simp only [redisRows, h, ht, Option.bind_eq_bind, Option.bind_some, Option.map_eq_bind]
  rfl

lemma redisRows_eq_iff {own rest : List Text} {groups : List Text} {t : Nat}
    (ht : T.int (groups.getD 1 []) = some t) :
    redisRows T F cfg groups (Text.joinLines (own ++ rest)) =
        redisRows T F cfg groups (Text.joinLines own) ↔
      Database.KeepsRows T F own rest .redis := by
  have hinj : Function.Injective (redisRowList (ν := ν) cfg groups t) := by
    intro a b h
    simpa [redisRowList, row] using h
  rw [Database.KeepsRows]
  cases hsearch : redisOverall.search (Text.joinLines own) with
  | some m =>
    have hblock := Pattern.search_joinLines anchored_redisOverall ends_redisOverall hsearch rest
    simp [redisRows, redisRate, hsearch, hblock]
  | none =>
    rw [forall_prop_of_true rfl]
    cases hown : redisRate (Text.joinLines own) with
    | none =>
      have hnone : redisRows T F cfg groups (Text.joinLines own) = some [] := by
        rw [redisRows, hown]
      rw [hnone]
      cases hblock : redisRate (Text.joinLines (own ++ rest)) with
      | none => simp [redisRows, hblock]
      | some rate =>
        rw [redisRows_of_rate hblock ht]
        simp [redisRowList]
    | some rate =>
      rw [redisRows_of_rate hown ht]
      cases hblock : redisRate (Text.joinLines (own ++ rest)) with
      | none =>
        have hnone : redisRows T F cfg groups (Text.joinLines (own ++ rest)) = some [] := by
          rw [redisRows, hblock]
        rw [hnone]
        simp [redisRowList, eq_comm]
      | some rate' =>
        rw [redisRows_of_rate hblock ht, (Option.map_injective hinj).eq_iff]
        simp

/-! ## The number of rows -/

lemma Paired.length_runs {entries : List Entry} (h : Paired T db entries) :
    (runs entries).length = entries.countP Entry.isEcho := by
  induction h with
  | nil => rfl
  | run htag hown h ih =>
    rw [runs, List.length_cons, ih, List.countP_cons_of_pos rfl,
      List.countP_cons_of_neg Bool.false_ne_true]
  | @other c out entries hc hout h ih =>
    have hecho : Entry.isEcho (c, out) = false := by
      rcases c with _ | _ | _ | tag | _ <;> first | rfl | exact absurd rfl (hc tag).1
    rw [runs_other fun tag => (hc tag).1, ih, List.countP_cons_of_neg (by simp [hecho])]

def Command.isEcho : Command → Bool
  | .echo _ => true
  | _ => false

lemma countP_runCommands (variant : Variant) (threads : ThreadSet) (workloads : List Char)
    (prepare : Char → List Command) (h : ∀ w, (prepare w).countP Command.isEcho = 0) :
    (runCommands variant threads workloads prepare).countP Command.isEcho =
      workloads.length * threads.counts.length := by
  have hrun : ∀ w t, (prepare w ++ [Command.echo ⟨w, t, variant⟩,
      Command.run ⟨w, t, variant⟩]).countP Command.isEcho = 1 := by
    intro w t
    rw [List.countP_append, h]
    rfl
  simp [runCommands, List.countP_flatMap, Function.comp_def, hrun]

lemma countP_script (variant : Variant) :
    (db.script variant threads).countP Command.isEcho =
      allWorkloads.length * threads.counts.length := by
  have hro := countP_runCommands variant threads roWorkloads (fun _ => []) fun _ => rfl
  have hins := fun c => countP_runCommands variant threads insWorkloads
    (fun w => [.shell c, .load w threads.max]) fun _ => rfl
  have hall : allWorkloads.length = roWorkloads.length + insWorkloads.length := rfl
  rw [hall, Nat.add_mul]
  cases db <;>
    simp [Database.script, leveldbScript, redisScript, hro, hins, Command.isEcho]

lemma length_allRuns (sessions : List (Session T db threads)) :
    (allRuns sessions).length = sessions.length * allWorkloads.length * threads.counts.length := by
  rw [allRuns, (paired_entries sessions).length_runs, List.countP_flatMap]
  have hentries : ∀ s : Session T db threads, s.entries.countP Entry.isEcho =
      allWorkloads.length * threads.counts.length := by
    intro s
    rw [← @countP_script db threads s.variant, ← s.script, Session.entries, List.countP_append,
      List.countP_map, List.countP_map]
    refine Eq.trans (Nat.add_zero _) (List.countP_congr fun step _ => ?_)
    obtain ⟨c, out⟩ := step
    cases c <;> rfl
  simp [Function.comp_def, hentries, Nat.mul_assoc]

def isThroughput (r : Row ν) : Bool := r.metricName == "throughput"

lemma countP_rows_le {groups : List Text} {text : Text} {rows : List (Row ν)}
    (h : db.rows T F cfg groups text = some rows) : rows.countP isThroughput ≤ 1 := by
  cases db with
  | leveldb =>
    change leveldbRows T F cfg groups text = some rows at h
    rw [leveldbRows] at h
    split at h
    · rw [← Option.some.inj h]
      exact Nat.zero_le 1
    · simp only [Option.bind_eq_bind, Option.bind_eq_some_iff] at h
      obtain ⟨threads, -, value, -, latencyAvg, -, h⟩ := h
      rw [← Option.some.inj h]
      cases latencyAvg <;> simp [isThroughput, row]
  | redis =>
    change redisRows T F cfg groups text = some rows at h
    rw [redisRows] at h
    split at h
    · rw [← Option.some.inj h]
      exact Nat.zero_le 1
    · simp only [Option.bind_eq_bind, Option.bind_eq_some_iff] at h
      obtain ⟨tp, -, threads, -, h⟩ := h
      rw [← Option.some.inj h]
      exact List.countP_le_length

/-- When as many rows count as there are blocks, and each block has at most one of them, then each
block has one. -/
lemma countP_of_mapM {α : Type} {f : α → Option (List (Row ν))} {l : List α}
    {rows : List (List (Row ν))} (hle : ∀ a ∈ l, ∀ rs, f a = some rs → rs.countP isThroughput ≤ 1)
    (h : l.mapM f = some rows) :
    rows.flatten.countP isThroughput ≤ l.length ∧
      (rows.flatten.countP isThroughput = l.length →
        ∀ a ∈ l, ∃ rs, f a = some rs ∧ rs.countP isThroughput = 1) := by
  induction l generalizing rows with
  | nil =>
    obtain rfl := Option.some.inj h
    exact ⟨Nat.le_refl 0, fun _ => nofun⟩
  | cons a l ih =>
    obtain ⟨ha, hl⟩ := List.forall_mem_cons.mp hle
    simp only [List.mapM_cons, Option.bind_eq_bind, Option.bind_eq_some_iff] at h
    obtain ⟨rs, hrs, rss, hrss, h⟩ := h
    obtain rfl := Option.some.inj h
    obtain ⟨ih1, ih2⟩ := ih hl hrss
    have h1 := ha rs hrs
    rw [List.flatten_cons, List.countP_append, List.length_cons]
    refine ⟨by omega, fun heq => List.forall_mem_cons.mpr ⟨⟨rs, hrs, by omega⟩, ih2 (by omega)⟩⟩

/-! ## Every row holds the numbers of its own run -/

variable (T) in
/-- The output has a throughput. -/
def Database.Reports (text : Text) : Database → Prop
  | .leveldb => (ldbTp T).search text ≠ none
  | .redis => redisRate text ≠ none

lemma rows_of_not_reports {groups : List Text} {text : Text} (h : ¬db.Reports T text) :
    db.rows T F cfg groups text = some [] := by
  cases db with
  | leveldb => simp only [Database.rows, leveldbRows, not_not.mp h]
  | redis => simp only [Database.rows, redisRows, not_not.mp h]

variable (F cfg) in
/-- The rows of each block are those of the output of its run alone, and the experiment counts as
a success only if every run has reported a throughput. -/
structure RowsFromOwnRun (sessions : List (Session T db threads)) : Prop where
  rows : (blocks T db (fullOutput sessions)).map
      (fun b => db.rows T F cfg b.groups (Text.joinLines b.lines)) =
    (allRuns sessions).map fun r => db.rows T F cfg r.groups (Text.joinLines r.own)
  ok : ∀ rcOk rows, exec F cfg sessions rcOk = some (rows, true) →
    ∀ r ∈ allRuns sessions, db.Reports T (Text.joinLines r.own)

lemma rows_eq_iff (sessions : List (Session T db threads)) :
    (blocks T db (fullOutput sessions)).map
        (fun b => db.rows T F cfg b.groups (Text.joinLines b.lines)) =
      (allRuns sessions).map (fun r => db.rows T F cfg r.groups (Text.joinLines r.own)) ↔
    ∀ r ∈ allRuns sessions, db.KeepsRows T F r.own r.rest := by
  rw [blocks_fullOutput, List.map_map, List.map_inj_left]
  refine forall₂_congr fun r hr => ?_
  obtain ⟨hown, hrest⟩ := (paired_entries sessions).runs_noNewline r hr
  have hint : T.int (r.groups.getD 1 []) = some r.tag.threads := T.int_decimal r.tag.threads
  cases db with
  | leveldb => exact leveldbRows_eq_iff hown hrest hint
  | redis => exact redisRows_eq_iff hint

/-- The rows are those of the runs exactly when no run is followed by lines that change its
rows. -/
theorem rowsFromOwnRun_iff (F : Floats ν) (cfg : RunConfig) (sessions : List (Session T db threads)) :
    RowsFromOwnRun F cfg sessions ↔
      ∀ r ∈ allRuns sessions, db.KeepsRows T F r.own r.rest := by
  constructor
  · intro h
    exact (rows_eq_iff sessions).mp h.rows
  · intro h
    have hrows := (@rows_eq_iff _ _ _ _ F cfg sessions).mpr h
    refine ⟨hrows, fun rcOk rows hexec r hr => ?_⟩
    rw [blocks_fullOutput, List.map_map, List.map_inj_left] at hrows
    simp only [exec, parse, Option.bind_eq_bind, Option.bind_eq_some_iff, Option.map_eq_some_iff]
      at hexec
    obtain ⟨_, ⟨lists, hlists, rfl⟩, hexec⟩ := hexec
    obtain ⟨rfl, hok⟩ := Prod.mk.inj (Option.some.inj hexec)
    rw [Bool.and_eq_true, beq_iff_eq, ← length_allRuns, ← List.countP_eq_length_filter] at hok
    rw [blocks_fullOutput, List.mapM_map] at hlists
    obtain ⟨rs, hrs, hcount⟩ := (countP_of_mapM (fun _ _ _ => countP_rows_le) hlists).2 hok.2 r hr
    by_contra hno
    have heq := (hrows r hr).symm.trans hrs
    rw [rows_of_not_reports hno] at heq
    rw [← Option.some.inj heq] at hcount
    cases hcount

/-! ## A load behind the last run of a workload -/

/-- The tables as far as ASCII goes. -/
def asciiTables : Tables where
  isDigit := Char.isDigit
  isWord := fun c => c.isAlphanum || c == '_'
  int := parseNat
  isDigit_ascii := fun _ _ => rfl
  isWord_ascii := fun _ _ => rfl
  int_decimal := parseNat_decimal

/-- Arithmetic for whole numbers with whole averages. -/
def wholeFloats : Floats Nat where
  float := parseNat
  mean := fun ops => some (decimal ((ops.map fun op => op.1 * op.2).sum /
    (ops.map Prod.fst).sum) ++ ".000".toList)

/-- What the commands print: the average latency is 1 in all runs and 7 in all loads. -/
def sampleOutput : Command → List (Line asciiTables .leveldb)
  | .load _ _ =>
    [⟨"10 operations; [INSERT: Count=10 Max=9 Min=5 Avg=7]".toList, by decide, by decide⟩,
      ⟨"Load throughput(ops/sec): 50".toList, by decide, by decide⟩]
  | .run _ =>
    [⟨"10 operations; [READ: Count=10 Max=1 Min=1 Avg=1]".toList, by decide, by decide⟩,
      ⟨"Run throughput(ops/sec): 100".toList, by decide, by decide⟩]
  | _ => []

def dynamicVariant : Variant := ⟨"dynamic".toList, by decide, by decide⟩

def oneThread : ThreadSet := ⟨[1], by decide⟩

def sampleSession : Session asciiTables .leveldb oneThread where
  variant := dynamicVariant
  steps := (Database.leveldb.script dynamicVariant oneThread).map fun c => (c, sampleOutput c)
  script := by
    rw [List.map_map]
    exact List.map_id _

/-- Behind the last run of workload `f` comes the load of workload `d`, whose latency is reported
as that of the run. -/
theorem not_rowsFromOwnRun_sample :
    ¬RowsFromOwnRun wholeFloats ⟨100, none, 1⟩ [sampleSession] := by
  intro h
  have hrun : (allRuns [sampleSession])[3]? = some
      { tag := ⟨'f', 1, dynamicVariant⟩
        own := (sampleOutput (.run ⟨'f', 1, dynamicVariant⟩)).map Line.text
        rest := (sampleOutput (.load 'd' 1)).map Line.text } := rfl
  have hkeep := (rows_eq_iff [sampleSession]).mp h.rows _ (List.mem_of_getElem? hrun)
  have hsearch : (ldbTp asciiTables).search (Text.joinLines
      ((sampleOutput (.run ⟨'f', 1, dynamicVariant⟩)).map Line.text)) = some ["100".toList] := by
    decide +kernel
  have hlatency : latency asciiTables wholeFloats
        (lastStatus ((sampleOutput (.load 'd' 1)).map Line.text)) ≠
      latency asciiTables wholeFloats
        (lastStatus ((sampleOutput (.run ⟨'f', 1, dynamicVariant⟩)).map Line.text)) := by
    decide +kernel
  rw [Database.KeepsRows, hsearch] at hkeep
  exact hlatency (hkeep (by decide) _ rfl)

end MemSafeDB.Benchmark
