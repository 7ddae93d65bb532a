import MemSafeDB.Lib.Csv

/-!
# Patterns

Regular expressions that are sequences of pieces: single characters and repetitions of a class of
characters. A repetition takes all the characters that it can. It would have to give some of
them back only where its class meets what follows it in the pattern, which is not the case for
the patterns that are used here.
-/

namespace Lib

inductive Piece where
  /-- one character of a class -/
  | char (group : Bool) (p : Char → Bool)
  /-- `p+` -/
  | many (group : Bool) (p : Char → Bool)
  /-- `p*` -/
  | any (p : Char → Bool)

abbrev Pattern := List Piece

/-- What `\d` and `\w` match and what `int` reads, beyond ASCII, is up to the tables of
Unicode. -/
structure Tables where
  isDigit : Char → Bool
  isWord : Char → Bool
  /-- `int`, with `none` where it raises -/
  int : Text → Option Nat
  isDigit_ascii : ∀ c, c.toNat < 128 → isDigit c = c.isDigit
  isWord_ascii : ∀ c, c.toNat < 128 → isWord c = (c.isAlphanum || c == '_')
  int_decimal : ∀ n, int (decimal n) = some n

namespace Piece

/-- The characters that a piece takes. -/
def accepts : Piece → Char → Bool
  | char _ p | many _ p | any p => p

/-- Whether a piece takes at least one character. -/
def nonEmpty : Piece → Bool
  | any _ => false
  | _ => true

end Piece

namespace Pattern

/-- The characters of a text, one after the other. -/
def literal (s : String) : Pattern := s.toList.map fun c => .char false fun d => d = c

/-- The same up to case; beyond ASCII, the long s counts as an s, the Kelvin sign as a k, and the
dotted capital and the dotless small i count as an i. -/
def sameLetter (c d : Char) : Bool :=
  d = c.toLower || d = c.toUpper || (c.toLower = 's' && d = 'ſ') ||
    (c.toLower = 'k' && d = '\u212a') || (c.toLower = 'i' && (d = 'İ' || d = 'ı'))

/-- The characters of a text in upper or lower case. -/
def literalIgnoreCase (s : String) : Pattern := s.toList.map fun c => .char false (sameLetter c)

def addGroup (group : Bool) (s : Text) (m : List Text × Text) : List Text × Text :=
  (if group then s :: m.1 else m.1, m.2)

/-- Matches at the beginning of a text. Returns the groups and what is left of the text. -/
def matchAt : Pattern → Text → Option (List Text × Text)
  | [], s => some ([], s)
  | .char _ _ :: _, [] => none
  | .char group p :: ps, c :: s =>
    if p c then (matchAt ps s).map (addGroup group [c]) else none
  | .many _ _ :: _, [] => none
  | .many group p :: ps, c :: s =>
    if p c then (matchAt ps (s.dropWhile p)).map (addGroup group (c :: s.takeWhile p)) else none
  | .any p :: ps, s => matchAt ps (s.dropWhile p)

/-- The groups of the first match, as `search` finds it. -/
def search (ps : Pattern) : Text → Option (List Text)
  | [] => (matchAt ps []).map Prod.fst
  | c :: s =>
    match matchAt ps (c :: s) with
    | some m => some m.1
    | none => search ps s

/-- The groups of a match of the whole text, as `match` finds it for `^ps$` in a line. -/
def matchLine (ps : Pattern) (s : Text) : Option (List Text) :=
  match matchAt ps s with
  | some (groups, []) => some groups
  | _ => none

/-- The groups of the matches in a text of at most `fuel` characters, for a pattern that does not
match the empty text. -/
def findAllIn (ps : Pattern) : (fuel : Nat) → Text → List (List Text)
  | 0, _ => []
  | _ + 1, [] => []
  | fuel + 1, c :: s =>
    match matchAt ps (c :: s) with
    | some (groups, rest) => groups :: findAllIn ps fuel rest
    | none => findAllIn ps fuel s

/-- `findall` -/
def findAll (ps : Pattern) (s : Text) : List (List Text) := findAllIn ps s.length s

/-- A match with its groups, and where it begins and ends. -/
structure Match where
  groups : List Text
  start : Nat
  stop : Nat

/-- The matches in a text that begins at `pos`, `skip` characters of which belong to the match
before. -/
def finditerFrom (matcher : Text → Option (List Text × Text)) :
    (skip pos : Nat) → Text → List Match
  | _, _, [] => []
  | skip + 1, pos, _ :: s => finditerFrom matcher skip (pos + 1) s
  | 0, pos, c :: s =>
    match matcher (c :: s) with
    | some (groups, rest) =>
      ⟨groups, pos, pos + (s.length + 1 - rest.length)⟩ ::
        finditerFrom matcher (s.length - rest.length) (pos + 1) s
    | none => finditerFrom matcher 0 (pos + 1) s

/-- `finditer`, for a pattern that does not match the empty text -/
def finditer (matcher : Text → Option (List Text × Text)) (s : Text) : List Match :=
  finditerFrom matcher 0 0 s

/-! ## Matching piece by piece -/

@[simp] lemma map_addGroup_false (s : Text) (m : Option (List Text × Text)) :
    m.map (addGroup false s) = m := by
  cases m <;> rfl

lemma matchAt_literal (s : String) (ps : Pattern) (t : Text) :
    matchAt (literal s ++ ps) (s.toList ++ t) = matchAt ps t := by
  rw [literal]
  induction s.toList with
  | nil => rfl
  | cons c l ih => simpa [matchAt] using ih

lemma matchAt_many {p : Char → Bool} {w : Text} (hne : w ≠ []) (hw : ∀ c ∈ w, p c = true)
    {d : Char} (hd : p d = false) (ps : Pattern) (t : Text) :
    matchAt (.many true p :: ps) (w ++ d :: t) =
      (matchAt ps (d :: t)).map (addGroup true w) := by
  obtain ⟨c, w, rfl⟩ := List.exists_cons_of_ne_nil hne
  obtain ⟨hc, hw⟩ := List.forall_mem_cons.mp hw
  have hdrop : (w ++ d :: t).dropWhile p = d :: t := by
    rw [List.dropWhile_append_of_pos hw, List.dropWhile_cons_of_neg (by simp [hd])]
  have htake : (w ++ d :: t).takeWhile p = w := by
    rw [List.takeWhile_append_of_pos hw, List.takeWhile_cons_of_neg (by simp [hd]),
      List.append_nil]
  rw [List.cons_append, matchAt, if_pos hc, hdrop, htake]

/-! ## Matches in front of further text -/

/-- Behind a repetition stands a piece that takes a character, or it does not take `c`. -/
def Ends (c : Char) : Pattern → Prop
  | [] => True
  | .char _ _ :: ps => Ends c ps
  | .many _ p :: ps | .any p :: ps =>
    (p c = false ∨ (ps.head?.map Piece.nonEmpty) = some true) ∧ Ends c ps

lemma ends_literal (c : Char) (s : String) {ps : Pattern} (h : Ends c ps) :
    Ends c (literal s ++ ps) := by
  rw [literal]
  induction s.toList with
  | nil => exact h
  | cons d l ih => exact ih

lemma matchAt_nil {ps : Pattern} (h : (ps.head?.map Piece.nonEmpty) = some true) :
    matchAt ps [] = none := by
  cases ps with
  | nil => cases h
  | cons p ps =>
    cases p with
    | char group p => rfl
    | many group p => rfl
    | any p => cases h

/-- A repetition that stops before the end of a text, or at a character that is not in its class,
does not see what is put behind. -/
lemma span_append {p : Char → Bool} {c : Char} {s : Text} (h : s.dropWhile p ≠ [] ∨ p c = false)
    (t : Text) :
    (s ++ c :: t).dropWhile p = s.dropWhile p ++ c :: t ∧
      (s ++ c :: t).takeWhile p = s.takeWhile p := by
  induction s with
  | nil =>
    have hc : p c = false := h.resolve_left fun hne => hne rfl
    simp [hc]
  | cons d s ih =>
    cases hd : p d with
    | false => simp [hd]
    | true =>
      rw [List.dropWhile_cons_of_pos hd] at h
      obtain ⟨h1, h2⟩ := ih h
      simp [hd, h1, h2]

/-- What stands behind a repetition decides that it has come to its end. -/
lemma span_stops {ps : Pattern} {p : Char → Bool} {c : Char} {s : Text} {m : List Text × Text}
    (hps : p c = false ∨ (ps.head?.map Piece.nonEmpty) = some true)
    (h : matchAt ps (s.dropWhile p) = some m) : s.dropWhile p ≠ [] ∨ p c = false := by
  rcases hps with hc | hne
  · exact Or.inr hc
  · refine Or.inl fun hnil => ?_
    rw [hnil, matchAt_nil hne] at h
    cases h

/-- A match stays the same in front of further text that begins with `c`. -/
lemma matchAt_append {ps : Pattern} {c : Char} (hps : Ends c ps) {s : Text}
    {m : List Text × Text} (h : matchAt ps s = some m) (t : Text) :
    matchAt ps (s ++ c :: t) = some (m.1, m.2 ++ c :: t) := by
  induction ps generalizing s m with
  | nil =>
    obtain rfl := Option.some.inj h
    rfl
  | cons piece ps ih =>
    cases piece with
    | char group p =>
      cases s with
      | nil => cases h
      | cons d s =>
        rw [matchAt] at h
        split_ifs at h with hd
        obtain ⟨m', hm', rfl⟩ := Option.map_eq_some_iff.mp h
        rw [List.cons_append, matchAt, if_pos hd, ih hps hm']
        rfl
    | many group p =>
      cases s with
      | nil => cases h
      | cons d s =>
        rw [matchAt] at h
        split_ifs at h with hd
        obtain ⟨m', hm', rfl⟩ := Option.map_eq_some_iff.mp h
        obtain ⟨hdrop, htake⟩ := span_append (span_stops hps.1 hm') t
        rw [List.cons_append, matchAt, if_pos hd, hdrop, htake, ih hps.2 hm']
        rfl
    | any p =>
      rw [matchAt] at h ⊢
      rw [(span_append (span_stops hps.1 h) t).1, ih hps.2 h]

/-- A match in front of further text that is no match of the text alone takes all of the text. -/
lemma matchAt_of_append {ps : Pattern} {s t : Text} {m : List Text × Text}
    (h : matchAt ps (s ++ t) = some m) :
    (∃ m', matchAt ps s = some m') ∨ ∀ c ∈ s, ∃ p ∈ ps, p.accepts c = true := by
  induction ps generalizing s m with
  | nil => exact Or.inl ⟨_, rfl⟩
  | cons piece ps ih =>
    -- behind a repetition
    have hrep : ∀ {p : Char → Bool} {s : Text} {m : List Text × Text},
        matchAt ps ((s ++ t).dropWhile p) = some m → (∃ m', matchAt ps (s.dropWhile p) = some m') ∨
          ∀ c ∈ s, p c = true ∨ ∃ q ∈ ps, q.accepts c = true := by
      intro p s m h
      by_cases hnil : s.dropWhile p = []
      · exact Or.inr fun c hc => Or.inl (List.dropWhile_eq_nil_iff.mp hnil c hc)
      · rw [List.dropWhile_append, if_neg (by simpa using hnil)] at h
        refine (ih h).imp_right fun hall c hc => ?_
        rw [← List.takeWhile_append_dropWhile (p := p) (l := s), List.mem_append] at hc
        exact hc.imp List.mem_takeWhile_imp (hall c)
    cases piece with
    | char group p =>
      cases s with
      | nil => exact Or.inr nofun
      | cons d s =>
        rw [List.cons_append, matchAt] at h
        split_ifs at h with hd
        obtain ⟨m', hm', -⟩ := Option.map_eq_some_iff.mp h
        rcases ih hm' with ⟨m'', hm''⟩ | hall
        · exact Or.inl ⟨_, by rw [matchAt, if_pos hd, hm'']; rfl⟩
        · refine Or.inr (List.forall_mem_cons.mpr ⟨⟨_, List.mem_cons_self .., hd⟩, fun c hc => ?_⟩)
          obtain ⟨q, hq, hqc⟩ := hall c hc
          exact ⟨q, List.mem_cons_of_mem _ hq, hqc⟩
    | many group p =>
      cases s with
      | nil => exact Or.inr nofun
      | cons d s =>
        rw [List.cons_append, matchAt] at h
        split_ifs at h with hd
        obtain ⟨m', hm', -⟩ := Option.map_eq_some_iff.mp h
        rcases hrep hm' with ⟨m'', hm''⟩ | hall
        · exact Or.inl ⟨_, by rw [matchAt, if_pos hd, hm'']; rfl⟩
        · refine Or.inr (List.forall_mem_cons.mpr ⟨⟨_, List.mem_cons_self .., hd⟩, fun c hc => ?_⟩)
          rcases hall c hc with hp | ⟨q, hq, hqc⟩
          · exact ⟨_, List.mem_cons_self .., hp⟩
          · exact ⟨q, List.mem_cons_of_mem _ hq, hqc⟩
    | any p =>
      rw [matchAt] at h
      rcases hrep h with ⟨m'', hm''⟩ | hall
      · exact Or.inl ⟨_, by rw [matchAt]; exact hm''⟩
      · refine Or.inr fun c hc => ?_
        rcases hall c hc with hp | ⟨q, hq, hqc⟩
        · exact ⟨_, List.mem_cons_self .., hp⟩
        · exact ⟨q, List.mem_cons_of_mem _ hq, hqc⟩

/-! ## Matches in a part of a text -/

/-- A single character of the pattern occurs in the text. -/
lemma exists_of_matchAt {ps : Pattern} {group : Bool} {p : Char → Bool}
    (hp : Piece.char group p ∈ ps) {s : Text} {m : List Text × Text} (h : matchAt ps s = some m) :
    ∃ c ∈ s, p c = true := by
  induction ps generalizing s m with
  | nil => cases hp
  | cons piece ps ih =>
    -- behind a repetition
    have hrep : ∀ {q : Char → Bool} {s : Text} {m : List Text × Text},
        Piece.char group p ∈ ps → matchAt ps (s.dropWhile q) = some m → ∃ c ∈ s, p c = true := by
      intro q s m hmem h
      obtain ⟨c, hc, hpc⟩ := ih hmem h
      exact ⟨c, (List.dropWhile_suffix q).subset hc, hpc⟩
    cases piece with
    | char group' q =>
      cases s with
      | nil => cases h
      | cons d s =>
        rw [matchAt] at h
        split_ifs at h with hd
        obtain ⟨m', hm', -⟩ := Option.map_eq_some_iff.mp h
        rcases List.mem_cons.mp hp with heq | hmem
        · obtain ⟨rfl, rfl⟩ := Piece.char.inj heq
          exact ⟨d, List.mem_cons_self, hd⟩
        · obtain ⟨c, hc, hpc⟩ := ih hmem hm'
          exact ⟨c, List.mem_cons_of_mem d hc, hpc⟩
    | many group' q =>
      cases s with
      | nil => cases h
      | cons d s =>
        rw [matchAt] at h
        split_ifs at h with hd
        obtain ⟨m', hm', -⟩ := Option.map_eq_some_iff.mp h
        obtain ⟨c, hc, hpc⟩ := hrep ((List.mem_cons.mp hp).resolve_left nofun) hm'
        exact ⟨c, List.mem_cons_of_mem d hc, hpc⟩
    | any q =>
      rw [matchAt] at h
      exact hrep ((List.mem_cons.mp hp).resolve_left nofun) h

/-- A match does not run over a character that no piece takes. -/
lemma matchAt_before {ps : Pattern} {c : Char} (hc : ∀ p ∈ ps, p.accepts c = false) {s t : Text}
    {m : List Text × Text} (h : matchAt ps (s ++ c :: t) = some m) :
    ∃ m', matchAt ps s = some m' := by
  induction ps generalizing s m with
  | nil => exact ⟨_, rfl⟩
  | cons piece ps ih =>
    obtain ⟨hpiece, hps⟩ := List.forall_mem_cons.mp hc
    cases piece with
    | char group p =>
      change p c = false at hpiece
      cases s with
      | nil => simp [matchAt, hpiece] at h
      | cons d s =>
        rw [List.cons_append, matchAt] at h
        split_ifs at h with hd
        obtain ⟨m', hm', -⟩ := Option.map_eq_some_iff.mp h
        obtain ⟨m'', hm''⟩ := ih hps hm'
        exact ⟨_, by rw [matchAt, if_pos hd, hm'']; rfl⟩
    | many group p =>
      change p c = false at hpiece
      cases s with
      | nil => simp [matchAt, hpiece] at h
      | cons d s =>
        rw [List.cons_append, matchAt] at h
        split_ifs at h with hd
        obtain ⟨m', hm', -⟩ := Option.map_eq_some_iff.mp h
        rw [(span_append (Or.inr hpiece) t).1] at hm'
        obtain ⟨m'', hm''⟩ := ih hps hm'
        exact ⟨_, by rw [matchAt, if_pos hd, hm'']; rfl⟩
    | any p =>
      change p c = false at hpiece
      rw [matchAt, (span_append (Or.inr hpiece) t).1] at h
      obtain ⟨m'', hm''⟩ := ih hps h
      exact ⟨m'', by rw [matchAt, hm'']⟩

/-- A match does not reach a character behind the text that its last piece does not take. -/
lemma matchAt_concat {ps : Pattern} (hne : ∀ p ∈ ps, p.nonEmpty = true) {c : Char}
    (hlast : ∀ p ∈ ps.getLast?, p.accepts c = false) {s : Text} {m : List Text × Text}
    (h : matchAt ps (s ++ [c]) = some m) : ∃ m', matchAt ps s = some m' := by
  induction ps generalizing s m with
  | nil => exact ⟨_, rfl⟩
  | cons piece ps ih =>
    obtain ⟨hpiece, hps⟩ := List.forall_mem_cons.mp hne
    have hlast' : ∀ p ∈ ps.getLast?, p.accepts c = false := by
      intro p hp
      apply hlast
      rw [List.getLast?_cons, Option.mem_def.mp hp]
      rfl
    -- a match that has come to the end of the text has taken `c`
    have hend : ∀ {m : List Text × Text}, matchAt ps [] = some m → piece.accepts c = false := by
      intro m hm
      cases ps with
      | nil => exact hlast piece rfl
      | cons q ps =>
        rw [matchAt_nil (by simpa using hps q List.mem_cons_self)] at hm
        cases hm
    cases piece with
    | char group p =>
      cases s with
      | nil =>
        rw [List.nil_append, matchAt] at h
        split_ifs at h with hc
        obtain ⟨m', hm', -⟩ := Option.map_eq_some_iff.mp h
        exact absurd hc (Bool.eq_false_iff.mp (hend hm'))
      | cons d s =>
        rw [List.cons_append, matchAt] at h
        split_ifs at h with hd
        obtain ⟨m', hm', -⟩ := Option.map_eq_some_iff.mp h
        obtain ⟨m'', hm''⟩ := ih hps hlast' hm'
        exact ⟨_, by rw [matchAt, if_pos hd, hm'']; rfl⟩
    | many group p =>
      cases s with
      | nil =>
        rw [List.nil_append, matchAt] at h
        split_ifs at h with hc
        obtain ⟨m', hm', -⟩ := Option.map_eq_some_iff.mp h
        exact absurd hc (Bool.eq_false_iff.mp (hend hm'))
      | cons d s =>
        rw [List.cons_append, matchAt] at h
        split_ifs at h with hd
        obtain ⟨m', hm', -⟩ := Option.map_eq_some_iff.mp h
        have hstop : s.dropWhile p ≠ [] ∨ p c = false := by
          by_contra hcon
          obtain ⟨hnil, hc⟩ := not_or.mp hcon
          rw [ne_eq, not_not] at hnil
          have hdrop : (s ++ [c]).dropWhile p = [] := by
            rw [List.dropWhile_append, hnil]
            simpa using hc
          rw [hdrop] at hm'
          exact hc (hend hm')
        rw [(span_append hstop []).1] at hm'
        obtain ⟨m'', hm''⟩ := ih hps hlast' hm'
        exact ⟨_, by rw [matchAt, if_pos hd, hm'']; rfl⟩
    | any p => cases hpiece

lemma search_cons (ps : Pattern) (c : Char) (s : Text) :
    (search ps (c :: s)).isSome = ((matchAt ps (c :: s)).isSome || (search ps s).isSome) := by
  rw [search]
  cases matchAt ps (c :: s) with
  | none => rfl
  | some m => rfl

/-- A search succeeds where a match begins. -/
lemma search_iff {ps : Pattern} {s : Text} :
    (search ps s).isSome = true ↔ ∃ t, t <:+ s ∧ (matchAt ps t).isSome = true := by
  induction s with
  | nil => simp [search]
  | cons c s ih =>
    rw [search_cons, Bool.or_eq_true, ih]
    constructor
    · rintro (h | ⟨t, ht, h⟩)
      · exact ⟨c :: s, List.suffix_rfl, h⟩
      · exact ⟨t, ht.trans (List.suffix_cons c s), h⟩
    · rintro ⟨t, ht, h⟩
      rcases List.suffix_cons_iff.mp ht with rfl | ht
      · exact Or.inl h
      · exact Or.inr ⟨t, ht, h⟩

/-- What is found in a text is found without a last character that the last piece does not take. -/
lemma search_concat {ps : Pattern} (hne : ∀ p ∈ ps, p.nonEmpty = true) {c : Char}
    (hlast : ∀ p ∈ ps.getLast?, p.accepts c = false) {s : Text}
    (h : (search ps (s ++ [c])).isSome = true) : (search ps s).isSome = true := by
  obtain ⟨t, ht, hm⟩ := search_iff.mp h
  rcases List.suffix_concat_iff.mp ht with rfl | ⟨t, rfl, hsuffix⟩
  · exact search_iff.mpr ⟨[], List.nil_suffix, hm⟩
  · obtain ⟨m, hm⟩ := Option.isSome_iff_exists.mp hm
    exact search_iff.mpr ⟨t, hsuffix, Option.isSome_iff_exists.mpr (matchAt_concat hne hlast hm)⟩

/-- A single character of the pattern occurs in a text in which it is found. -/
lemma exists_of_search {ps : Pattern} {group : Bool} {p : Char → Bool}
    (hp : Piece.char group p ∈ ps) {s : Text} (h : (search ps s).isSome = true) :
    ∃ c ∈ s, p c = true := by
  obtain ⟨t, ht, hm⟩ := search_iff.mp h
  obtain ⟨m, hm⟩ := Option.isSome_iff_exists.mp hm
  obtain ⟨c, hc, hpc⟩ := exists_of_matchAt hp hm
  exact ⟨c, ht.subset hc, hpc⟩

/-- What is found in a part of a text is found in the text. -/
lemma search_part {ps : Pattern} (hends : ∀ c, Ends c ps) {s t : Text} (hst : s <:+: t)
    (h : (search ps s).isSome = true) : (search ps t).isSome = true := by
  obtain ⟨u, v, rfl⟩ := hst
  obtain ⟨x, hx, hm⟩ := search_iff.mp h
  obtain ⟨m, hm⟩ := Option.isSome_iff_exists.mp hm
  refine search_iff.mpr ⟨x ++ v, ?_, ?_⟩
  · obtain ⟨y, rfl⟩ := hx
    exact ⟨u ++ y, by simp⟩
  · cases v with
    | nil => rw [List.append_nil, hm, Option.isSome_some]
    | cons c v => rw [matchAt_append (hends c) hm, Option.isSome_some]

/-- What is found around a character that no piece takes is found before or behind it. -/
lemma search_around {ps : Pattern} {c : Char} (hc : ∀ p ∈ ps, p.accepts c = false) {s t : Text}
    (h : (search ps (s ++ c :: t)).isSome = true) :
    (search ps s).isSome = true ∨ (search ps t).isSome = true := by
  obtain ⟨x, ⟨y, hy⟩, hm⟩ := search_iff.mp h
  obtain ⟨m, hm⟩ := Option.isSome_iff_exists.mp hm
  have hbefore : ∀ z, x = z ++ c :: t → z <:+ s → (search ps s).isSome = true := by
    intro z hx hz
    rw [hx] at hm
    exact search_iff.mpr ⟨z, hz, Option.isSome_iff_exists.mpr (matchAt_before hc hm)⟩
  rcases List.append_eq_append_iff.mp hy with ⟨z, rfl, rfl⟩ | ⟨z, rfl, hz⟩
  · exact Or.inl (hbefore z rfl (List.suffix_append y z))
  · cases z with
    | nil => exact Or.inl (hbefore [] hz.symm (List.nil_suffix))
    | cons d z =>
      obtain rfl := (List.cons.inj hz).2
      exact Or.inr (search_iff.mpr ⟨x, List.suffix_append z x, Option.isSome_iff_exists.mpr ⟨m, hm⟩⟩)

/-- The pattern begins with a character that no later piece takes. -/
def Anchored : Pattern → Prop
  | .char _ p :: ps => ∀ c, p c = true → ∀ q ∈ ps, q.accepts c = false
  | _ => False

lemma exists_first_of_search {group : Bool} {p : Char → Bool} {ps : Pattern} {s : Text}
    {groups : List Text} (h : search (.char group p :: ps) s = some groups) :
    ∃ c ∈ s, p c = true := by
  induction s with
  | nil => cases h
  | cons d s ih =>
    rw [search] at h
    by_cases hd : p d = true
    · exact ⟨d, List.mem_cons_self .., hd⟩
    · rw [matchAt, if_neg hd] at h
      obtain ⟨c, hc, hpc⟩ := ih h
      exact ⟨c, List.mem_cons_of_mem _ hc, hpc⟩

/-- The first match stays the first match in front of further text: an earlier one would have to
run over the beginning of this one. -/
theorem search_append {ps : Pattern} {c : Char} (hanchor : Anchored ps) (hends : Ends c ps)
    {s : Text} {groups : List Text} (h : search ps s = some groups) (t : Text) :
    search ps (s ++ c :: t) = some groups := by
  match ps, hanchor with
  | .char group p :: ps, hanchor =>
    induction s with
    | nil => cases h
    | cons d s ih =>
      rw [search] at h
      rw [List.cons_append, search]
      cases hm : matchAt (.char group p :: ps) (d :: s) with
      | some m =>
        rw [hm] at h
        rw [← List.cons_append, matchAt_append hends hm]
        exact h
      | none =>
        rw [hm] at h
        rw [← List.cons_append]
        cases hm' : matchAt (.char group p :: ps) (d :: s ++ c :: t) with
        | none => exact ih h
        | some m =>
          rw [List.cons_append, matchAt] at hm'
          split_ifs at hm' with hd
          obtain ⟨m', hm'', -⟩ := Option.map_eq_some_iff.mp hm'
          rcases matchAt_of_append hm'' with ⟨n, hn⟩ | hall
          · rw [matchAt, if_pos hd, hn] at hm
            cases hm
          · obtain ⟨e, he, hpe⟩ := exists_first_of_search h
            obtain ⟨q, hq, hqe⟩ := hall e he
            rw [hanchor e hpe q hq] at hqe
            cases hqe

/-- The first match in some lines is the first match in these and more lines. -/
theorem search_joinLines {ps : Pattern} (hanchor : Anchored ps) (hends : Ends '\n' ps)
    {ls : List Text} {groups : List Text} (h : search ps (Text.joinLines ls) = some groups)
    (ls' : List Text) : search ps (Text.joinLines (ls ++ ls')) = some groups := by
  cases ls' with
  | nil => rwa [List.append_nil]
  | cons l' ls' =>
    have hne : ls ≠ [] := by
      rintro rfl
      match ps, hanchor with
      | .char _ _ :: _, _ => cases h
    rw [Text.joinLines_append hne (List.cons_ne_nil _ _)]
    exact search_append hanchor hends h _

end Pattern

end Lib
