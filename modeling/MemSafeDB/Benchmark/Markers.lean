import MemSafeDB.Benchmark.Parsers
import MemSafeDB.Lib.Matches

/-!
# The markers of Redis

The output of Redis is cut at its markers. If an output that begins with a marker is put behind
another one, the markers are those of the two outputs, and the last segment of the first one only
gets a new line and what stands in front of the marker in its line.
-/

namespace MemSafeDB.Benchmark
open Lib Lib.Pattern

variable {ν : Type} {F : ParserFloats ν} {repetition : Int}

/-- Blanks and equals signs. -/
def IsLead (s : Text) : Prop := ∀ c ∈ s, Text.isSpace c = true ∨ c = '='

/-- A line with a marker, in front of which there are only blanks and equals signs. -/
def IsRedisHeader (line : Text) : Prop :=
  ∃ lead marker, line = lead ++ marker ∧ IsLead lead ∧
    (redisMatch marker).isSome = true

/-! ## The marker -/

lemma sameLetter_R {c : Char} (h : sameLetter 'R' c = true) : c = 'r' ∨ c = 'R' := by
  have hsame : sameLetter 'R' c = (c = 'r' || c = 'R' || false || false || false) := rfl
  simpa [hsame] using h

lemma redisMarker_eq (phase : String) : ∃ ps,
    redisMarker phase = .char false (sameLetter 'R') :: ps := by
  have hletters : "REDIS_YCSB".toList = 'R' :: "EDIS_YCSB".toList := by decide
  rw [redisMarker, literalIgnoreCase, hletters]
  exact ⟨_, rfl⟩

lemma redisMatch_eq_none {c : Char} (hc : sameLetter 'R' c = false) (s : Text) :
    redisMatch (c :: s) = none := by
  have hnone : ∀ phase, (redisMarker phase).matchAt (c :: s) = none := by
    intro phase
    obtain ⟨ps, hps⟩ := redisMarker_eq phase
    rw [hps, matchAt, if_neg (by rw [hc]; exact Bool.false_ne_true)]
  rw [redisMatch, hnone, hnone]
  rfl

/-- A marker begins with its first letter. -/
lemma exists_of_redisMatch {s : Text} (h : (redisMatch s).isSome = true) :
    ∃ c t, s = c :: t ∧ (c = 'r' ∨ c = 'R') := by
  cases s with
  | nil => cases h
  | cons c t =>
    refine ⟨c, t, rfl, sameLetter_R ?_⟩
    by_contra hc
    rw [redisMatch_eq_none (Bool.eq_false_of_not_eq_true hc)] at h
    cases h

lemma length_redisMatch {s : Text} {m : List Text × Text} (h : redisMatch s = some m) :
    m.2.length < s.length := by
  have hlen : ∀ phase m, (redisMarker phase).matchAt s = some m → m.2.length < s.length := by
    intro phase m hm
    obtain ⟨ps, hps⟩ := redisMarker_eq phase
    exact (length_matchAt hm).2 (by rw [hps]; rfl)
  unfold redisMatch at h
  cases hload : (redisMarker "load").matchAt s with
  | some m' =>
    rw [hload] at h
    obtain rfl := Option.some.inj h
    exact hlen "load" m' hload
  | none =>
    rw [hload] at h
    obtain ⟨m', hrun, rfl⟩ := Option.map_eq_some_iff.mp h
    exact hlen "run" m' hrun

variable {x lead marker : Text}

/-- No marker begins in front of `x` and goes on in it. -/
lemma stopsAt_redisMarker {phase : String} (hphase : ∀ c ∈ phase.toList, sameLetter c '\n' = false)
    (hx : ∀ d, (x.dropWhile Text.isSpace).head? = some d → d = '=' ∨ d = 'r' ∨ d = 'R') :
    StopsAt x (redisMarker phase) := by
  have hnone : ∀ {s : String} {c : Char} {cs : Text} {ps : Pattern}, s.toList = c :: cs →
      sameLetter c '=' = false → sameLetter c 'r' = false → sameLetter c 'R' = false →
        matchAt (literalIgnoreCase s ++ ps) (x.dropWhile Text.isSpace) = none := by
    intro s c cs ps hs h1 h2 h3
    refine matchAt_literalIgnoreCase_eq_none hs (fun d hd => ?_)
    rcases hx d hd with rfl | rfl | rfl
    · exact h1
    · exact h2
    · exact h3
  have hblanks : ∀ {s : String} {c : Char} {cs : Text} {ps : Pattern}, s.toList = c :: cs →
      sameLetter c '=' = false → sameLetter c 'r' = false → sameLetter c 'R' = false →
        StopsAt x (literalIgnoreCase s ++ ps) →
          StopsAt x (blanks :: (literalIgnoreCase s ++ ps)) := by
    intro s c cs ps hs h1 h2 h3 hps
    refine ⟨Or.inr ⟨rfl, ?_, hnone hs h1 h2 h3⟩, hps⟩
    rw [literalIgnoreCase, hs]
    rfl
  have hend : StopsAt x (literalIgnoreCase phase) := by
    rw [← List.append_nil (literalIgnoreCase phase)]
    exact (stopsAt_literalIgnoreCase phase hphase).mpr trivial
  unfold redisMarker
  refine (stopsAt_literalIgnoreCase "REDIS_YCSB" (by decide)).mpr ?_
  refine @hblanks "workload=" 'w' "orkload=".toList _ (by decide) (by decide) (by decide)
    (by decide) ((stopsAt_literalIgnoreCase "workload=" (by decide)).mpr ⟨by decide, ?_⟩)
  refine @hblanks "variant=" 'v' "ariant=".toList _ (by decide) (by decide) (by decide)
    (by decide) ((stopsAt_literalIgnoreCase "variant=" (by decide)).mpr
      ⟨Or.inl (by decide), ?_⟩)
  exact @hblanks "phase=" 'p' "hase=".toList _ (by decide) (by decide) (by decide)
    (by decide) ((stopsAt_literalIgnoreCase "phase=" (by decide)).mpr hend)

/-- In front of an output that begins with a marker, the markers stay as they are. -/
lemma redisMatch_append (hx : x.head? = some '\n')
    (hstop : ∀ d, (x.dropWhile Text.isSpace).head? = some d → d = '=' ∨ d = 'r' ∨ d = 'R')
    (s : Text) : redisMatch (s ++ x) = (redisMatch s).map (fun m => (m.1, m.2 ++ x)) := by
  have hload : StopsAt x (redisMarker "load") := stopsAt_redisMarker (by decide) hstop
  have hrun : StopsAt x (redisMarker "run") := stopsAt_redisMarker (by decide) hstop
  rw [redisMatch, redisMatch, matchAt_stopsAt hload hx, matchAt_stopsAt hrun hx]
  cases (redisMarker "load").matchAt s with
  | some m => rfl
  | none =>
    cases (redisMarker "run").matchAt s with
    | some m => rfl
    | none => rfl

/-! ## Rates -/

/-- Behind the blanks there is nothing, or an equals sign. -/
lemma IsLead.dropWhile {y : Text} (hy : IsLead y) :
    y.dropWhile Text.isSpace = [] ∨ ∃ t, y.dropWhile Text.isSpace = '=' :: t := by
  induction y with
  | nil => exact Or.inl rfl
  | cons c y ih =>
    obtain ⟨hc, hy⟩ := List.forall_mem_cons.mp hy
    by_cases hspace : Text.isSpace c = true
    · rw [List.dropWhile_cons_of_pos hspace]
      exact ih hy
    · obtain rfl := hc.resolve_left hspace
      exact Or.inr ⟨y, List.dropWhile_cons_of_neg hspace⟩

lemma IsLead.not_accepts {y : Text} (hy : IsLead y) {p : Char → Bool}
    (hp : ∀ c, p c = true → Text.isSpace c = false ∧ c ≠ '=') : ∀ c ∈ y, p c = false := by
  intro c hc
  by_contra h
  obtain ⟨hspace, hequals⟩ := hp c (Bool.eq_true_of_not_eq_false h)
  rcases hy c hc with h | h
  · rw [h] at hspace
    cases hspace
  · exact hequals h

lemma IsLead.matchAt_decimal {y : Text} (hy : IsLead y) (ps : Pattern) :
    matchAt (.many true isDecimal :: ps) (y.dropWhile Text.isSpace) = none := by
  rcases hy.dropWhile with h | ⟨t, h⟩
  · rw [h]
    rfl
  · rw [h, matchAt, if_neg (by decide)]

lemma stopsAt_redisOverall {y : Text} (hy : IsLead y) : StopsAt y redisOverall := by
  have hletters : "Throughput(ops/sec),".toList = 'T' :: "hroughput(ops/sec),".toList := by
    decide
  have hthroughput : matchAt (literalIgnoreCase "Throughput(ops/sec)," ++
      [Piece.any Text.isSpace, Piece.many true isDecimal]) (y.dropWhile Text.isSpace) = none := by
    refine matchAt_literalIgnoreCase_eq_none hletters (fun d hd => ?_)
    rcases hy.dropWhile with h | ⟨t, h⟩
    · rw [h] at hd
      cases hd
    · rw [h] at hd
      obtain rfl := Option.some.inj hd
      decide
  have hdecimal : StopsAt y [Piece.any Text.isSpace, Piece.many true isDecimal] :=
    ⟨Or.inr ⟨rfl, rfl, hy.matchAt_decimal []⟩, Or.inl (by decide), trivial⟩
  unfold redisOverall
  refine (stopsAt_literalIgnoreCase "[OVERALL]," (by decide)).mpr
    ⟨Or.inr ⟨rfl, by decide, hthroughput⟩, ?_⟩
  exact (stopsAt_literalIgnoreCase "Throughput(ops/sec)," (by decide)).mpr hdecimal

lemma redisOverall_eq : ∃ ps, redisOverall = .char false (sameLetter '[') :: ps := by
  have hletters : literalIgnoreCase "[OVERALL]," =
      .char false (sameLetter '[') :: literalIgnoreCase "OVERALL]," := by
    rw [literalIgnoreCase, literalIgnoreCase]
    exact congrArg (List.map _)
      (by decide : "[OVERALL],".toList = '[' :: "OVERALL],".toList)
  unfold redisOverall
  rw [hletters]
  exact ⟨_, rfl⟩

lemma search_redisOverall_append {y : Text} (hy : IsLead y) (hhead : y.head? = some '\n')
    (s : Text) : redisOverall.search (s ++ y) = redisOverall.search s := by
  refine search_stopsAt (stopsAt_redisOverall hy) hhead ?_ s
  obtain ⟨ps, hps⟩ := redisOverall_eq
  rw [hps]
  refine search_eq_none (hy.not_accepts (fun c hc => ?_))
  have hsame : sameLetter '[' c = (c = '[' || c = '[' || false || false || false) := rfl
  obtain rfl : c = '[' := by simpa [hsame] using hc
  decide

lemma stopsAt_redisCur {y : Text} (hy : IsLead y) : StopsAt y redisCur := by
  have hletters : "current ops/sec;".toList = 'c' :: "urrent ops/sec;".toList := by decide
  have hcurrent : matchAt (literal "current ops/sec;") (y.dropWhile Text.isSpace) = none := by
    rw [literal, hletters]
    rcases hy.dropWhile with h | ⟨t, h⟩
    · rw [h]
      rfl
    · rw [h, List.map_cons, matchAt, if_neg (by decide)]
  have hne : ((literal "current ops/sec;").head?.map Piece.nonEmpty) = some true := by
    decide
  have hend : StopsAt y (literal "current ops/sec;" ++ []) :=
    (stopsAt_literal "current ops/sec;" (by decide)).mpr trivial
  rw [List.append_nil] at hend
  unfold redisCur
  exact (stopsAt_literal "operations;" (by decide)).mpr
    ⟨Or.inr ⟨rfl, rfl, hy.matchAt_decimal _⟩, Or.inl (by decide), Or.inr ⟨rfl, hne, hcurrent⟩, hend⟩

lemma redisCur_eq : ∃ ps, redisCur = .char false (fun d => d = 'o') :: ps := by
  have hletters : literal "operations;" =
      .char false (fun d => d = 'o') :: literal "perations;" := by
    rw [literal, literal]
    exact congrArg (List.map _)
      (by decide : "operations;".toList = 'o' :: "perations;".toList)
  unfold redisCur
  rw [hletters]
  exact ⟨_, rfl⟩

lemma findAll_redisCur_append {y : Text} (hy : IsLead y) (hhead : y.head? = some '\n')
    (s : Text) : redisCur.findAll (s ++ y) = redisCur.findAll s := by
  obtain ⟨ps, hps⟩ := redisCur_eq
  refine findAll_stopsAt (stopsAt_redisCur hy) hhead (by rw [hps]; rfl) (fun fuel => ?_) s
  rw [hps]
  refine findAllIn_eq_nil (hy.not_accepts (fun c hc => ?_)) fuel
  obtain rfl := of_decide_eq_true hc
  decide

/-- Blanks and equals signs behind a segment make no difference to its rate. -/
lemma redisRate_append {y : Text} (hy : IsLead y) (hhead : y.head? = some '\n') (s : Text) :
    redisRate (s ++ y) = redisRate s := by
  rw [redisRate, redisRate, search_redisOverall_append hy hhead, findAll_redisCur_append hy hhead]

/-! ## Segments -/

lemma segments_shift (a b : Text) (ms : List Match) :
    segments (a ++ b) (ms.map (Match.shift a.length)) = segments b ms := by
  induction ms with
  | nil => rfl
  | cons m ms ih =>
    have hslice : ∀ i j, ((a ++ b).take (a.length + j)).drop (a.length + i) =
        (b.take j).drop i := by
      intro i j
      rw [List.take_length_add_append, List.drop_length_add_append]
    rw [List.map_cons, segments, segments, ih]
    cases ms with
    | nil =>
      simp only [List.map_nil, List.head?_nil, Option.map_none, Option.getD_none, Match.shift,
        List.length_append, hslice]
    | cons m' ms =>
      simp only [List.map_cons, List.head?_cons, Option.map_some, Option.getD_some, Match.shift,
        hslice]

/-- The segments of the matches in `a` stay as they are in front of `y`, which the last of them
gets, and the next match. -/
lemma mapM_segments {β : Type} {f : List Text × Text → Option β} {a y z : Text} {m' : Match}
    {ms ms' : List Match} (hms : ∀ m ∈ ms, m.start ≤ a.length ∧ m.stop ≤ a.length)
    (hm' : m'.start = a.length + y.length) (hf : ∀ g s, f (g, s ++ y) = f (g, s)) :
    (segments (a ++ (y ++ z)) (ms ++ m' :: ms')).mapM f = ((segments a ms).mapM f).bind fun r =>
      ((segments (a ++ (y ++ z)) (m' :: ms')).mapM f).map fun r' => r ++ r' := by
  induction ms with
  | nil =>
    rw [List.nil_append]
    cases (segments (a ++ (y ++ z)) (m' :: ms')).mapM f with
    | none => rfl
    | some r => rfl
  | cons m ms ih =>
    obtain ⟨⟨hstart, hstop⟩, hms⟩ := List.forall_mem_cons.mp hms
    have hhead : f (m.groups, ((a ++ (y ++ z)).take
          (((ms ++ m' :: ms').head?.map Match.start).getD (a ++ (y ++ z)).length)).drop m.stop) =
        f (m.groups, (a.take ((ms.head?.map Match.start).getD a.length)).drop m.stop) := by
      cases ms with
      | nil =>
        simp only [List.nil_append, List.head?_cons, List.head?_nil, Option.map_some,
          Option.map_none, Option.getD_some, Option.getD_none, hm']
        rw [List.take_length_add_append, List.take_left' rfl, List.take_length,
          List.drop_append_of_le_length hstop, hf]
      | cons m₂ ms =>
        have hle := (hms m₂ List.mem_cons_self).1
        simp only [List.cons_append, List.head?_cons, Option.map_some, Option.getD_some]
        rw [List.take_append_of_le_length hle]
    rw [List.cons_append, segments, segments, List.mapM_cons, List.mapM_cons, hhead, ih hms]
    cases f (m.groups, (a.take ((ms.head?.map Match.start).getD a.length)).drop m.stop) with
    | none => rfl
    | some row =>
      cases (segments a ms).mapM f with
      | none => rfl
      | some r =>
        cases (segments (a ++ (y ++ z)) (m' :: ms')).mapM f with
        | none => rfl
        | some r' => rfl

/-- The marker of a header is a marker in front of more lines. -/
lemma isSome_redisMatch {t : Text} (h : (redisMatch marker).isSome = true)
    (ht : t = [] ∨ ∃ u, t = '\n' :: u) : (redisMatch (marker ++ t)).isSome = true := by
  rcases ht with rfl | ⟨u, rfl⟩
  · rwa [List.append_nil]
  · have hends : ∀ phase, (∀ c ∈ String.toList phase, sameLetter c '\n' = false) →
        Ends '\n' (redisMarker phase) := fun phase hphase =>
      (stopsAt_redisMarker (x := ['\n']) hphase (fun d hd => by cases hd)).ends
    unfold redisMatch at h ⊢
    cases hload : (redisMarker "load").matchAt marker with
    | some m =>
      rw [matchAt_append (hends "load" (by decide)) hload]
      rfl
    | none =>
      rw [hload] at h
      obtain ⟨m, hm⟩ := Option.isSome_iff_exists.mp h
      obtain ⟨m', hrun, -⟩ := Option.map_eq_some_iff.mp hm
      rw [matchAt_append (hends "run" (by decide)) hrun]
      cases (redisMarker "load").matchAt (marker ++ '\n' :: u) with
      | some m => rfl
      | none => rfl

lemma IsLead.redisMatch_eq_none {y : Text} (hy : IsLead y) :
    ∀ c ∈ y, ∀ t, redisMatch (c :: t) = none := by
  refine fun c hc t => MemSafeDB.Benchmark.redisMatch_eq_none ?_ t
  refine hy.not_accepts (fun e he => ?_) c hc
  rcases sameLetter_R he with rfl | rfl
  · decide
  · decide

/-- The matches in an output that begins with a marker. -/
lemma finditer_lead (hlead : IsLead lead) {z : Text} (hz : (redisMatch z).isSome = true) (n : Nat) :
    ∃ m ms, finditerFrom redisMatch 0 n (lead ++ z) = m :: ms ∧ m.start = n + lead.length := by
  obtain ⟨⟨groups, rest⟩, hm⟩ := Option.isSome_iff_exists.mp hz
  obtain ⟨c, t, rfl, -⟩ := exists_of_redisMatch hz
  rw [finditerFrom_skip hlead.redisMatch_eq_none, finditerFrom, hm]
  exact ⟨_, _, rfl, rfl⟩

/-- The rows of Redis: a header cuts the output into two. -/
theorem parseRedisOutput_newline {a b line : Text} {rest : List Text}
    {rowsA rowsB : List (Metric ν)}
    (hb : Text.splitLines b = line :: rest) (hheader : IsRedisHeader line)
    (ha : parseRedisOutput F repetition a = some rowsA)
    (hrows : parseRedisOutput F repetition b = some rowsB) :
    parseRedisOutput F repetition (a ++ '\n' :: b) = some (rowsA ++ rowsB) := by
  obtain ⟨lead, marker, rfl, hlead, hmarker⟩ := hheader
  obtain ⟨t, rfl, ht⟩ := Text.eq_of_splitLines hb
  set z := marker ++ t with hz
  have hzmatch : (redisMatch z).isSome = true := isSome_redisMatch hmarker ht
  have hsplit : lead ++ marker ++ t = lead ++ z := List.append_assoc ..
  rw [hsplit] at hrows ⊢
  set y := '\n' :: lead with hy
  have hylead : IsLead y := List.forall_mem_cons.mpr ⟨Or.inl (by decide), hlead⟩
  have hx : '\n' :: (lead ++ z) = y ++ z := rfl
  -- behind the blanks of `y` stands an equals sign or the first letter of the marker
  have hstop : ∀ d, ((y ++ z).dropWhile Text.isSpace).head? = some d →
      d = '=' ∨ d = 'r' ∨ d = 'R' := by
    obtain ⟨c, u, hcu, hc⟩ := exists_of_redisMatch hzmatch
    intro d hd
    rw [List.dropWhile_append] at hd
    rcases hylead.dropWhile with h | ⟨w, h⟩
    · have hnot : Text.isSpace c ≠ true := by
        rcases hc with rfl | rfl
        · decide
        · decide
      rw [h, List.isEmpty_nil, if_pos rfl, hcu, List.dropWhile_cons_of_neg hnot] at hd
      obtain rfl := Option.some.inj hd
      exact Or.inr hc
    · rw [h] at hd
      obtain rfl := Option.some.inj hd
      exact Or.inl rfl
  have hmatches := finditerFrom_append (x := y ++ z) (redisMatch_append rfl hstop)
    (fun h => length_redisMatch h) 0 (Nat.zero_le a.length)
  obtain ⟨m, ms, hfind, hstart⟩ := finditer_lead hlead hzmatch 0
  have hshift : finditerFrom redisMatch 0 (0 + a.length) (y ++ z) =
      (m :: ms).map (Match.shift (a.length + 1)) := by
    have hnewline : finditerFrom redisMatch 0 (0 + a.length) (y ++ z) =
        finditerFrom redisMatch 0 (a.length + 1 + 0) (lead ++ z) := by
      rw [finditerFrom_skip hylead.redisMatch_eq_none, finditerFrom_skip hlead.redisMatch_eq_none,
        hy, List.length_cons]
      congr 1
      omega
    rw [hnewline, finditerFrom_shift, hfind]
  have hall : finditer redisMatch (a ++ (y ++ z)) =
      finditer redisMatch a ++ m.shift (a.length + 1) :: ms.map (Match.shift (a.length + 1)) := by
    rw [finditer, hmatches, hshift]
    rfl
  have hms : ∀ m ∈ finditer redisMatch a, m.start ≤ a.length ∧ m.stop ≤ a.length := by
    intro m' hm'
    have hwithin := within m' hm'
    rwa [Nat.zero_add] at hwithin
  have hm' : (m.shift (a.length + 1)).start = a.length + y.length := by
    rw [hy, List.length_cons]
    change a.length + 1 + m.start = a.length + (lead.length + 1)
    omega
  have hrate : ∀ (g : List Text) (s : Text),
      redisSegment F repetition g (s ++ y) = redisSegment F repetition g s := by
    intro g s
    rw [redisSegment, redisSegment, redisRate_append hylead rfl]
  have hsegments : segments (a ++ (y ++ z))
      (m.shift (a.length + 1) :: ms.map (Match.shift (a.length + 1))) =
        segments (lead ++ z) (m :: ms) := by
    have hnewline := segments_shift (a ++ ['\n']) (lead ++ z) (m :: ms)
    rwa [List.length_append, List.append_assoc] at hnewline
  rw [parseRedisOutput, finditer, hfind] at hrows
  obtain ⟨segmentsA, hsegmentsA, rfl⟩ := Option.map_eq_some_iff.mp ha
  obtain ⟨segmentsB, hsegmentsB, rfl⟩ := Option.map_eq_some_iff.mp hrows
  rw [hx, parseRedisOutput, hall, mapM_segments hms hm' hrate, hsegmentsA, hsegments, hsegmentsB]
  exact congrArg some List.flatten_append

end MemSafeDB.Benchmark
