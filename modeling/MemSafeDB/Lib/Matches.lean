import MemSafeDB.Lib.Pattern

/-!
# Matches in front of a new line

When a text is put in front of another one that begins with a new line, its matches stay as they
are if no match can begin in the first text and go on in the second one.
-/

namespace Lib
namespace Pattern

/-- No match of the pattern begins before `x` and goes on in it: `x` begins with a blank, and where
the pattern can take the blanks of `x`, it cannot go on with what stands behind them. -/
def StopsAt (x : Text) : Pattern → Prop
  | [] => True
  | .char _ p :: ps => p '\n' = false ∧ StopsAt x ps
  | .many _ p :: ps | .any p :: ps =>
    (p '\n' = false ∨ p = Text.isSpace ∧ (ps.head?.map Piece.nonEmpty) = some true ∧
      matchAt ps (x.dropWhile Text.isSpace) = none) ∧ StopsAt x ps

variable {ps : Pattern} {x : Text} {p : Char → Bool}

/-- What a repetition leaves of a text in front of `x`. -/
lemma matchAt_dropWhile (hstop : p '\n' = false ∨ p = Text.isSpace ∧
      (ps.head?.map Piece.nonEmpty) = some true ∧ matchAt ps (x.dropWhile Text.isSpace) = none)
    (hx : x.head? = some '\n')
    (ih : ∀ s, matchAt ps (s ++ x) = (matchAt ps s).map (fun m => (m.1, m.2 ++ x))) (s : Text) :
    matchAt ps ((s ++ x).dropWhile p) =
      (matchAt ps (s.dropWhile p)).map (fun m => (m.1, m.2 ++ x)) := by
  obtain ⟨t, rfl⟩ : ∃ t, x = '\n' :: t := by
    cases x with
    | nil => cases hx
    | cons c t =>
      obtain rfl := Option.some.inj hx
      exact ⟨t, rfl⟩
  by_cases hnil : s.dropWhile p = []
  · rw [List.dropWhile_append, if_pos (by rw [hnil]; rfl), hnil]
    rcases hstop with hp | ⟨rfl, hne, hnone⟩
    · rw [List.dropWhile_cons_of_neg (by rw [hp]; exact Bool.false_ne_true)]
      exact ih []
    · rw [hnone, matchAt_nil hne]
      rfl
  · rw [List.dropWhile_append, if_neg (by rwa [List.isEmpty_iff]), ih]

lemma takeWhile_append_newline (hx : x.head? = some '\n') (s : Text) (hs : s.dropWhile p ≠ [] ∨ p '\n' = false) :
    (s ++ x).takeWhile p = s.takeWhile p := by
  cases x with
  | nil => cases hx
  | cons c t =>
    obtain rfl := Option.some.inj hx
    exact (span_append hs t).2

/-- Matches in front of `x` are the matches of the text alone. -/
theorem matchAt_stopsAt (hps : StopsAt x ps) (hx : x.head? = some '\n') (s : Text) :
    matchAt ps (s ++ x) = (matchAt ps s).map (fun m => (m.1, m.2 ++ x)) := by
  have hnewline : ∃ t, x = '\n' :: t := by
    cases x with
    | nil => cases hx
    | cons c t =>
      obtain rfl := Option.some.inj hx
      exact ⟨t, rfl⟩
  induction ps generalizing s with
  | nil => rfl
  | cons piece ps ih =>
    cases piece with
    | char group p =>
      cases s with
      | nil =>
        obtain ⟨t, rfl⟩ := hnewline
        rw [List.nil_append, matchAt, matchAt, if_neg (by rw [hps.1]; exact Bool.false_ne_true)]
        rfl
      | cons c s =>
        rw [List.cons_append, matchAt, matchAt, ih hps.2]
        split
        · cases matchAt ps s with
          | none => rfl
          | some m => rfl
        · rfl
    | many group p =>
      cases s with
      | nil =>
        obtain ⟨t, rfl⟩ := hnewline
        rw [List.nil_append, matchAt, matchAt]
        rcases hps.1 with hp | ⟨rfl, -, hnone⟩
        · rw [if_neg (by rw [hp]; exact Bool.false_ne_true)]
          rfl
        · rw [List.dropWhile_cons_of_pos (by decide)] at hnone
          rw [if_pos (by decide), hnone]
          rfl
      | cons c s =>
        rw [List.cons_append, matchAt, matchAt, matchAt_dropWhile hps.1 hx (ih hps.2) s]
        split
        · cases hm : matchAt ps (s.dropWhile p) with
          | none => rfl
          | some m =>
            have hends : s.dropWhile p ≠ [] ∨ p '\n' = false :=
              span_stops (hps.1.imp_right (fun h => h.2.1)) hm
            simp only [Option.map_some, addGroup, takeWhile_append_newline hx s hends]
        · rfl
    | any p =>
      rw [matchAt, matchAt, matchAt_dropWhile hps.1 hx (ih hps.2) s]

lemma StopsAt.ends (h : StopsAt x ps) : Ends '\n' ps := by
  induction ps with
  | nil => trivial
  | cons piece ps ih =>
    cases piece with
    | char group p => exact ih h.2
    | many group p => exact ⟨h.1.imp_right (fun hspace => hspace.2.1), ih h.2⟩
    | any p => exact ⟨h.1.imp_right (fun hspace => hspace.2.1), ih h.2⟩

lemma stopsAt_literalIgnoreCase (s : String) (hs : ∀ c ∈ s.toList, sameLetter c '\n' = false) :
    StopsAt x (literalIgnoreCase s ++ ps) ↔ StopsAt x ps := by
  unfold literalIgnoreCase
  generalize s.toList = cs at hs
  induction cs with
  | nil => rfl
  | cons c cs ih =>
    obtain ⟨hc, hcs⟩ := List.forall_mem_cons.mp hs
    exact (and_iff_right hc).trans (ih hcs)

lemma stopsAt_literal (s : String) (hs : '\n' ∉ s.toList) :
    StopsAt x (literal s ++ ps) ↔ StopsAt x ps := by
  unfold literal
  generalize s.toList = cs at hs
  induction cs with
  | nil => rfl
  | cons c cs ih =>
    rw [List.mem_cons, not_or] at hs
    exact (and_iff_right (decide_eq_false hs.1)).trans (ih hs.2)

/-- A text does not match a letter that it does not begin with. -/
lemma matchAt_literalIgnoreCase_eq_none {s : String} {c : Char} {cs : Text}
    (hs : s.toList = c :: cs) {z : Text} (hz : ∀ d, z.head? = some d → sameLetter c d = false) :
    matchAt (literalIgnoreCase s ++ ps) z = none := by
  rw [literalIgnoreCase, hs]
  cases z with
  | nil => rfl
  | cons d z =>
    rw [List.map_cons, List.cons_append, matchAt, hz d rfl]
    rfl

lemma search_stopsAt (hps : StopsAt x ps) (hx : x.head? = some '\n') (hnone : search ps x = none)
    (s : Text) : search ps (s ++ x) = search ps s := by
  induction s with
  | nil =>
    have hmatch := matchAt_stopsAt hps hx []
    cases x with
    | nil => rfl
    | cons c t =>
      rw [List.nil_append] at hmatch ⊢
      rw [hnone]
      rw [search, hmatch] at hnone
      cases hm : matchAt ps [] with
      | none => rw [search, hm]; rfl
      | some m =>
        rw [hm] at hnone
        cases hnone
  | cons c s ih =>
    rw [List.cons_append, search, search, ← List.cons_append, matchAt_stopsAt hps hx, ih]
    cases matchAt ps (c :: s) with
    | none => rfl
    | some m => rfl

lemma length_matchAt {s : Text} {m : List Text × Text} (h : matchAt ps s = some m) :
    m.2.length ≤ s.length ∧
      ((ps.head?.map Piece.nonEmpty) = some true → m.2.length < s.length) := by
  induction ps generalizing s m with
  | nil =>
    obtain rfl := Option.some.inj h
    exact ⟨le_rfl, fun hne => by cases hne⟩
  | cons piece ps ih =>
    cases piece with
    | char group p =>
      cases s with
      | nil => cases h
      | cons c s =>
        rw [matchAt] at h
        split_ifs at h
        obtain ⟨m', hm', rfl⟩ := Option.map_eq_some_iff.mp h
        have hle : m'.2.length ≤ s.length := (ih hm').1
        have hlt : m'.2.length < (c :: s).length := by
          rw [List.length_cons]
          omega
        exact ⟨hlt.le, fun _ => hlt⟩
    | many group p =>
      cases s with
      | nil => cases h
      | cons c s =>
        rw [matchAt] at h
        split_ifs at h
        obtain ⟨m', hm', rfl⟩ := Option.map_eq_some_iff.mp h
        have hle : m'.2.length ≤ s.length :=
          (ih hm').1.trans ((List.dropWhile_sublist p).length_le)
        have hlt : m'.2.length < (c :: s).length := by
          rw [List.length_cons]
          omega
        exact ⟨hlt.le, fun _ => hlt⟩
    | any p =>
      rw [matchAt] at h
      exact ⟨(ih h).1.trans ((List.dropWhile_sublist p).length_le),
        fun hne => by cases hne⟩

lemma findAllIn_stopsAt (hps : StopsAt x ps) (hx : x.head? = some '\n')
    (hne : (ps.head?.map Piece.nonEmpty) = some true) (hnone : ∀ fuel, findAllIn ps fuel x = [])
    {fuel fuel' : Nat} {s : Text} (hfuel : s.length ≤ fuel) (hfuel' : s.length ≤ fuel') :
    findAllIn ps fuel' (s ++ x) = findAllIn ps fuel s := by
  induction fuel generalizing fuel' s with
  | zero =>
    obtain rfl := List.length_eq_zero_iff.mp (Nat.le_zero.mp hfuel)
    rw [List.nil_append, hnone]
    rfl
  | succ fuel ih =>
    cases s with
    | nil =>
      rw [List.nil_append, hnone]
      rfl
    | cons c s =>
      rw [List.length_cons] at hfuel hfuel'
      cases fuel' with
      | zero => omega
      | succ fuel' =>
        rw [List.cons_append, findAllIn, findAllIn, ← List.cons_append, matchAt_stopsAt hps hx]
        cases hm : matchAt ps (c :: s) with
        | none => exact ih (by omega) (by omega)
        | some m =>
          have hlt := (length_matchAt hm).2 hne
          rw [List.length_cons] at hlt
          exact congrArg (m.1 :: ·) (ih (by omega) (by omega))

lemma findAll_stopsAt (hps : StopsAt x ps) (hx : x.head? = some '\n')
    (hne : (ps.head?.map Piece.nonEmpty) = some true) (hnone : ∀ fuel, findAllIn ps fuel x = [])
    (s : Text) : findAll ps (s ++ x) = findAll ps s :=
  findAllIn_stopsAt hps hx hne hnone le_rfl (by rw [List.length_append]; omega)

/-- Where no character can begin a match, there is none. -/
lemma search_eq_none {group : Bool} {s : Text} (hs : ∀ c ∈ s, p c = false) :
    search (.char group p :: ps) s = none := by
  cases h : search (.char group p :: ps) s with
  | none => rfl
  | some groups =>
    obtain ⟨c, hc, hpc⟩ := exists_first_of_search h
    rw [hs c hc] at hpc
    cases hpc

lemma findAllIn_eq_nil {group : Bool} {s : Text} (hs : ∀ c ∈ s, p c = false) (fuel : Nat) :
    findAllIn (.char group p :: ps) fuel s = [] := by
  induction fuel generalizing s with
  | zero => rfl
  | succ fuel ih =>
    cases s with
    | nil => rfl
    | cons c s =>
      obtain ⟨hc, hs⟩ := List.forall_mem_cons.mp hs
      rw [findAllIn, matchAt, if_neg (by rw [hc]; exact Bool.false_ne_true)]
      exact ih hs

/-! ## All matches in two texts -/

section Finditer

variable {matcher : Text → Option (List Text × Text)}

lemma finditerFrom_append (hm : ∀ s, matcher (s ++ x) = (matcher s).map (fun m => (m.1, m.2 ++ x)))
    (hlen : ∀ {s m}, matcher s = some m → m.2.length < s.length) {skip : Nat} (pos : Nat) {s : Text}
    (hskip : skip ≤ s.length) : finditerFrom matcher skip pos (s ++ x) =
      finditerFrom matcher skip pos s ++ finditerFrom matcher 0 (pos + s.length) x := by
  induction s generalizing skip pos with
  | nil =>
    obtain rfl := Nat.le_zero.mp hskip
    rfl
  | cons c s ih =>
    rw [List.length_cons] at hskip
    have hpos : pos + (c :: s).length = pos + 1 + s.length := by
      rw [List.length_cons]
      omega
    rw [hpos]
    cases skip with
    | succ skip => exact ih (pos + 1) (by omega)
    | zero =>
      rw [List.cons_append, finditerFrom, finditerFrom, ← List.cons_append, hm]
      cases h : matcher (c :: s) with
      | none => exact ih (pos + 1) (Nat.zero_le _)
      | some m =>
        have hlt := hlen h
        rw [List.length_cons] at hlt
        have hstop : (s ++ x).length + 1 - (m.2 ++ x).length = s.length + 1 - m.2.length := by
          rw [List.length_append, List.length_append]
          omega
        have hrest : (s ++ x).length - (m.2 ++ x).length = s.length - m.2.length := by
          rw [List.length_append, List.length_append]
          omega
        simp only [Option.map_some, hstop, hrest, List.cons_append, List.cons.injEq, true_and]
        exact ih (pos + 1) (by omega)

lemma finditerFrom_skip {s : Text} (hs : ∀ c ∈ s, ∀ t, matcher (c :: t) = none) (pos : Nat)
    (t : Text) : finditerFrom matcher 0 pos (s ++ t) = finditerFrom matcher 0 (pos + s.length) t := by
  induction s generalizing pos with
  | nil => rfl
  | cons c s ih =>
    obtain ⟨hc, hs⟩ := List.forall_mem_cons.mp hs
    rw [List.cons_append, finditerFrom, hc]
    change finditerFrom matcher 0 (pos + 1) (s ++ t) = _
    rw [ih hs, List.length_cons, Nat.add_assoc, Nat.add_comm 1]

def Match.shift (n : Nat) (m : Match) : Match := ⟨m.groups, n + m.start, n + m.stop⟩

lemma finditerFrom_shift (n skip pos : Nat) (s : Text) : finditerFrom matcher skip (n + pos) s =
    (finditerFrom matcher skip pos s).map (Match.shift n) := by
  induction s generalizing skip pos with
  | nil => cases skip <;> rfl
  | cons c s ih =>
    cases skip with
    | succ skip => exact ih skip (pos + 1)
    | zero =>
      rw [finditerFrom, finditerFrom]
      cases matcher (c :: s) with
      | none => exact ih 0 (pos + 1)
      | some m =>
        simp only [List.map_cons, Match.shift, Nat.add_assoc]
        rw [← Nat.add_assoc n, ih]

lemma within {skip pos : Nat} {s : Text} : ∀ m ∈ finditerFrom matcher skip pos s,
    m.start ≤ pos + s.length ∧ m.stop ≤ pos + s.length := by
  induction s generalizing skip pos with
  | nil =>
    intro m hm
    cases skip <;> cases hm
  | cons c s ih =>
    intro m hm
    rw [List.length_cons]
    cases skip with
    | succ skip =>
      have hle := ih m hm
      omega
    | zero =>
      rw [finditerFrom] at hm
      cases h : matcher (c :: s) with
      | none =>
        rw [h] at hm
        have hle := ih m hm
        omega
      | some r =>
        rw [h] at hm
        rcases List.mem_cons.mp hm with rfl | hm
        · dsimp only
          omega
        · have hle := ih m hm
          omega

end Finditer

end Pattern
end Lib
