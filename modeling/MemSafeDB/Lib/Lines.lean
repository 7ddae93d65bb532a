import MemSafeDB.Lib.Text

/-!
# Reading line by line

A reader goes through the lines of a text with a state, and each line gives some rows or makes the
reader fail. A line after which the state does not depend on the state before cuts the text into
two that can be read on their own. Where such a line leaves one part of the state as it is, the
rows behind it change exactly if that part is used before it is set.
-/

namespace Lib

namespace Text

lemma splitLines_ne_nil (s : Text) : splitLines s ≠ [] := by
  cases s with
  | nil => exact List.cons_ne_nil _ _
  | cons c s =>
    rw [splitLines]
    split
    · exact List.cons_ne_nil _ _
    · split
      · exact List.cons_ne_nil _ _
      · exact List.cons_ne_nil _ _

lemma splitLines_newline (a b : Text) :
    splitLines (a ++ '\n' :: b) = splitLines a ++ splitLines b := by
  induction a with
  | nil => simp [splitLines]
  | cons c a ih =>
    rw [List.cons_append, splitLines, splitLines, ih]
    by_cases hc : c = '\n'
    · rw [if_pos hc, if_pos hc]
      rfl
    · rw [if_neg hc, if_neg hc]
      obtain ⟨l, ls, hl⟩ := List.exists_cons_of_ne_nil (splitLines_ne_nil a)
      rw [hl]
      rfl

/-- A text begins with its first line. -/
lemma eq_of_splitLines {s l : Text} {ls : List Text} (h : splitLines s = l :: ls) :
    ∃ t, s = l ++ t ∧ (t = [] ∨ ∃ u, t = '\n' :: u) := by
  induction s generalizing l ls with
  | nil =>
    obtain ⟨rfl, -⟩ := List.cons.inj h
    exact ⟨[], rfl, Or.inl rfl⟩
  | cons c s ih =>
    rw [splitLines] at h
    by_cases hc : c = '\n'
    · rw [if_pos hc] at h
      obtain ⟨rfl, -⟩ := List.cons.inj h
      exact ⟨c :: s, rfl, Or.inr ⟨s, by rw [hc]⟩⟩
    · obtain ⟨l', ls', hl'⟩ := List.exists_cons_of_ne_nil (splitLines_ne_nil s)
      rw [if_neg hc, hl'] at h
      obtain ⟨rfl, -⟩ := List.cons.inj h
      obtain ⟨t, ht, hend⟩ := ih hl'
      exact ⟨t, by rw [ht]; rfl, hend⟩

lemma infix_of_mem_splitLines {s l : Text} (h : l ∈ splitLines s) : l <:+: s := by
  induction s generalizing l with
  | nil => rw [List.mem_singleton.mp h]
  | cons c s ih =>
    obtain ⟨l', ls, hl⟩ := List.exists_cons_of_ne_nil (splitLines_ne_nil s)
    obtain ⟨t, ht, -⟩ := eq_of_splitLines hl
    rw [splitLines, hl] at h
    rw [hl] at ih
    split_ifs at h
    · rcases List.mem_cons.mp h with rfl | h
      · exact List.nil_infix
      · exact (ih h).trans (List.suffix_cons c s).isInfix
    · rcases List.mem_cons.mp h with rfl | h
      · exact ⟨[], t, by rw [ht]; rfl⟩
      · exact (ih (List.mem_cons_of_mem l' h)).trans (List.suffix_cons c s).isInfix

/-- A character that does not end a line goes to the last line. -/
lemma splitLines_concat {c : Char} (hc : c ≠ '\n') (s : Text) :
    ∃ ls l, splitLines s = ls ++ [l] ∧ splitLines (s ++ [c]) = ls ++ [l ++ [c]] := by
  induction s with
  | nil => exact ⟨[], [], rfl, by simp [splitLines, hc]⟩
  | cons d s ih =>
    obtain ⟨ls, l, h, h'⟩ := ih
    by_cases hd : d = '\n'
    · exact ⟨[] :: ls, l, by simp [splitLines, hd, h], by simp [splitLines, hd, h']⟩
    · cases ls with
      | nil => exact ⟨[], d :: l, by simp [splitLines, hd, h], by simp [splitLines, hd, h']⟩
      | cons l' ls =>
        exact ⟨(d :: l') :: ls, l, by simp [splitLines, hd, h], by simp [splitLines, hd, h']⟩

lemma strip_cons {c : Char} (hc : isSpace c = true) (s : Text) : strip (c :: s) = strip s := by
  rw [strip, List.dropWhile_cons_of_pos hc, strip]

lemma strip_concat {c : Char} (hc : isSpace c = true) (s : Text) :
    strip (s ++ [c]) = strip s := by
  rw [strip, strip, List.dropWhile_append]
  split
  · rename_i hnil
    rw [List.isEmpty_iff.mp hnil, List.dropWhile_cons_of_pos hc]
    rfl
  · rw [List.reverse_append, List.reverse_singleton, List.singleton_append,
      List.dropWhile_cons_of_pos hc]

/-- The lines that are not blank, without the blanks around them. -/
def strippedLines (s : Text) : List Text :=
  ((splitLines s).filter fun line => strip line ≠ []).map strip

/-- Only what is left of a line without the blanks around it matters. -/
lemma stripped_congr {l l' : Text} (h : strip l = strip l') (ls ls' : List Text) :
    ((ls ++ l :: ls').filter fun line => strip line ≠ []).map strip =
      ((ls ++ l' :: ls').filter fun line => strip line ≠ []).map strip := by
  rw [List.filter_append, List.filter_append, List.filter_cons, List.filter_cons, h]
  split
  · simp [h]
  · rfl

lemma strippedLines_cons {c : Char} (hc : isSpace c = true) (s : Text) :
    strippedLines (c :: s) = strippedLines s := by
  unfold strippedLines
  by_cases hn : c = '\n'
  · simp [splitLines, hn, strip]
  · obtain ⟨l, ls, hl⟩ := List.exists_cons_of_ne_nil (splitLines_ne_nil s)
    rw [splitLines, if_neg hn, hl]
    exact stripped_congr (strip_cons hc l) [] ls

lemma strippedLines_concat {c : Char} (hc : isSpace c = true) (s : Text) :
    strippedLines (s ++ [c]) = strippedLines s := by
  unfold strippedLines
  by_cases hn : c = '\n'
  · subst hn
    rw [splitLines_newline]
    simp [splitLines, strip]
  · obtain ⟨ls, l, h, h'⟩ := splitLines_concat hn s
    rw [h, h']
    exact stripped_congr (strip_concat hc l) ls []

/-- Blanks around a text make no difference to its stripped lines. -/
lemma strippedLines_strip (s : Text) : strippedLines (strip s) = strippedLines s := by
  have hleft : ∀ s, strippedLines (s.dropWhile isSpace) = strippedLines s := by
    intro s
    induction s with
    | nil => rfl
    | cons c s ih =>
      by_cases hc : isSpace c = true
      · rw [List.dropWhile_cons_of_pos hc, ih, strippedLines_cons hc]
      · rw [List.dropWhile_cons_of_neg hc]
  have hright : ∀ s : Text, strippedLines (s.dropWhile isSpace).reverse = strippedLines s.reverse := by
    intro s
    induction s with
    | nil => rfl
    | cons c s ih =>
      by_cases hc : isSpace c = true
      · rw [List.dropWhile_cons_of_pos hc, ih, List.reverse_cons, strippedLines_concat hc]
      · rw [List.dropWhile_cons_of_neg hc]
  rw [strip, hright, List.reverse_reverse, hleft]

end Text

namespace Lines

variable {σ γ μ ρ : Type}

/-- How a reader goes on from a line; `none` where it fails. -/
abbrev Step (σ ρ : Type) := σ → Text → Option (σ × List ρ)

def run (step : Step σ ρ) (s : σ) : List Text → Option (σ × List ρ)
  | [] => some (s, [])
  | l :: ls => do
    let (s, rows) ← step s l
    let (s, rest) ← run step s ls
    pure (s, rows ++ rest)

/-- The rows of a text. -/
def read (step : Step σ ρ) (s : σ) (text : Text) : Option (List ρ) :=
  (run step s (Text.splitLines text)).map Prod.snd

variable {step : Step σ ρ} {s : σ} {l : Text} {ls : List Text}

lemma run_cons {r : σ × List ρ} :
    run step s (l :: ls) = some r ↔ ∃ s' rows rest, step s l = some (s', rows) ∧
      run step s' ls = some (r.1, rest) ∧ r.2 = rows ++ rest := by
  obtain ⟨t, out⟩ := r
  simp only [run, Option.bind_eq_bind, Option.bind_eq_some_iff, Option.pure_def, Option.some_inj,
    Prod.exists, Prod.mk.injEq]
  constructor
  · rintro ⟨s', rows, h, t', rest, h', rfl, rfl⟩
    exact ⟨s', rows, rest, h, h', rfl⟩
  · rintro ⟨s', rows, rest, h, h', rfl⟩
    exact ⟨s', rows, h, t, rest, h', rfl, rfl⟩

lemma run_append {ls' : List Text} {r : σ × List ρ} (h : run step s ls = some r) :
    run step s (ls ++ ls') = (run step r.1 ls').map (fun r' => (r'.1, r.2 ++ r'.2)) := by
  induction ls generalizing s r with
  | nil =>
    obtain rfl := Option.some.inj h
    rw [List.nil_append]
    cases run step s ls' with
    | none => rfl
    | some r' => rfl
  | cons l ls ih =>
    obtain ⟨s', rows, rest, hl, hls, hr⟩ := run_cons.mp h
    rw [List.cons_append, run, hl]
    change (run step s' (ls ++ ls')).bind _ = _
    rw [ih hls, hr]
    cases run step r.1 ls' with
    | none => rfl
    | some r' => simp

/-- The state after the lines of a text. -/
lemma read_newline {a b : Text} {r : σ × List ρ} (h : run step s (Text.splitLines a) = some r) :
    read step s (a ++ '\n' :: b) = (read step r.1 b).map (fun rows => r.2 ++ rows) := by
  rw [read, Text.splitLines_newline, run_append h, read, Option.map_map, Option.map_map]
  rfl

/-- A line after which everything starts over. -/
theorem read_of_reset {a b : Text} {rowsA rowsB : List ρ} (hb : Text.splitLines b = l :: ls)
    (hreset : ∀ s s', step s l = step s' l) (ha : read step s a = some rowsA)
    (hrows : read step s b = some rowsB) :
    read step s (a ++ '\n' :: b) = some (rowsA ++ rowsB) := by
  obtain ⟨r, hr, rfl⟩ := Option.map_eq_some_iff.mp ha
  have hsame : read step r.1 b = read step s b := by
    rw [read, read, hb, run, run, hreset r.1 s]
  rw [read_newline hr, hsame, hrows]
  rfl

/-! ## A part of the state that is remembered -/

/-- A line that uses what is remembered comes before any line that sets it. -/
def UsedFirst (sets uses : Text → Prop) : List Text → Prop
  | [] => False
  | l :: ls => ¬sets l ∧ (uses l ∨ UsedFirst sets uses ls)

instance decidableUsedFirst {sets uses : Text → Prop} [DecidablePred sets] [DecidablePred uses] :
    (ls : List Text) → Decidable (UsedFirst sets uses ls)
  | [] => inferInstanceAs (Decidable False)
  | l :: ls =>
    have := @decidableUsedFirst sets uses _ _ ls
    inferInstanceAs (Decidable (¬sets l ∧ (uses l ∨ UsedFirst sets uses ls)))

/-- In a state that is `ready`, a line that does not set what is remembered gives no rows without
it, and gives rows or fails with it if it uses it. -/
structure Remembers (step : Step (γ × Option μ) ρ) (ready : γ → Prop) (sets uses : Text → Prop) :
    Prop where
  ready_step : ∀ {c m l r}, ready c → step (c, m) l = some r → ready r.1.1
  set : ∀ {c l} (m m'), ready c → sets l → step (c, m) l = step (c, m') l
  keep : ∀ {c l r}, ready c → ¬sets l → step (c, none) l = some r → r.1.2 = none ∧ r.2 = [] ∧
    ∀ m, (¬uses l → step (c, some m) l = some ((r.1.1, some m), [])) ∧
      (uses l → ∀ r', step (c, some m) l = some r' → r'.1 = (r.1.1, some m) ∧ r'.2 ≠ [])

variable {step : Step (γ × Option μ) ρ} {ready : γ → Prop} {sets uses : Text → Prop} {c : γ} {m : μ}

namespace Remembers

/-- With something remembered there are at least as many rows, and more if it is used. -/
lemma length_rows (h : Remembers step ready sets uses) {r r' : (γ × Option μ) × List ρ}
    (hc : ready c) (hr : run step (c, none) ls = some r) (hr' : run step (c, some m) ls = some r') :
    r.2.length ≤ r'.2.length ∧ (UsedFirst sets uses ls → r.2.length < r'.2.length) := by
  induction ls generalizing c r r' with
  | nil =>
    obtain rfl := Option.some.inj hr
    obtain rfl := Option.some.inj hr'
    exact ⟨le_rfl, fun hused => hused.elim⟩
  | cons l ls ih =>
    by_cases hset : sets l
    · rw [run, h.set none (some m) hc hset, ← run, hr'] at hr
      obtain rfl := Option.some.inj hr
      exact ⟨le_rfl, fun hused => absurd hset hused.1⟩
    · obtain ⟨⟨c', m'⟩, rows, rest, hl, hls, hrows⟩ := run_cons.mp hr
      obtain ⟨s'', rows', rest', hl', hls', hrows'⟩ := run_cons.mp hr'
      obtain ⟨hnone, hempty, hkeep⟩ := h.keep hc hset hl
      obtain ⟨hunused, hused⟩ := hkeep m
      change m' = none at hnone
      change rows = [] at hempty
      subst hnone hempty
      have hready : ready c' := h.ready_step hc hl
      rw [hrows, hrows', List.nil_append, List.length_append]
      by_cases huse : uses l
      · obtain ⟨hs, hne⟩ := hused huse _ hl'
        change s'' = (c', some m) at hs
        subst hs
        have hle : rest.length ≤ rest'.length := (ih hready hls hls').1
        have hpos : 0 < rows'.length := List.length_pos_iff.mpr hne
        exact ⟨by omega, fun _ => by omega⟩
      · rw [hunused huse, Option.some_inj, Prod.mk.injEq] at hl'
        obtain ⟨rfl, rfl⟩ := hl'
        obtain ⟨hle, hlt⟩ := ih hready hls hls'
        rw [List.length_nil, Nat.zero_add]
        exact ⟨hle, fun hfirst => hlt (hfirst.2.resolve_left huse)⟩

/-- What is remembered makes no difference if it is not used before it is set. -/
lemma run_eq (h : Remembers step ready sets uses) {r : (γ × Option μ) × List ρ} (hc : ready c)
    (hr : run step (c, none) ls = some r) (hunused : ¬UsedFirst sets uses ls) :
    ∃ r', run step (c, some m) ls = some r' ∧ r'.2 = r.2 := by
  induction ls generalizing c r with
  | nil =>
    obtain rfl := Option.some.inj hr
    exact ⟨_, rfl, rfl⟩
  | cons l ls ih =>
    by_cases hset : sets l
    · rw [run, h.set none (some m) hc hset, ← run] at hr
      exact ⟨r, hr, rfl⟩
    · obtain ⟨⟨c', m'⟩, rows, rest, hl, hls, hrows⟩ := run_cons.mp hr
      obtain ⟨hnone, hempty, hkeep⟩ := h.keep hc hset hl
      have huse : ¬uses l := fun huse => hunused ⟨hset, Or.inl huse⟩
      have hl' := (hkeep m).1 huse
      change m' = none at hnone
      change rows = [] at hempty
      subst hnone hempty
      obtain ⟨r', hr', heq⟩ :=
        ih (h.ready_step hc hl) hls (fun hfirst => hunused ⟨hset, Or.inr hfirst⟩)
      refine ⟨r', run_cons.mpr ⟨_, _, r'.2, hl', hr', rfl⟩, ?_⟩
      rw [hrows, heq]
      rfl

theorem rows_eq_iff (h : Remembers step ready sets uses) {r : (γ × Option μ) × List ρ}
    (hc : ready c) (hr : run step (c, none) ls = some r) :
    (run step (c, some m) ls).map Prod.snd = some r.2 ↔ ¬UsedFirst sets uses ls := by
  constructor
  · intro heq hused
    obtain ⟨r', hr', hrows⟩ := Option.map_eq_some_iff.mp heq
    have hlt := (h.length_rows hc hr hr').2 hused
    rw [hrows] at hlt
    exact lt_irrefl _ hlt
  · intro hunused
    obtain ⟨r', hr', hrows⟩ := h.run_eq (m := m) hc hr hunused
    rw [hr', Option.map_some, hrows]

/-- Behind a line that leaves what is remembered as it is, the rows are those of the text on its
own unless something is remembered and used before it is set. -/
theorem read_newline_iff (h : Remembers step ready sets uses) {a b : Text} {s : γ × Option μ}
    {c₀ c' : γ} {rowsA rowsB : List ρ} {m : Option μ} (hready : ready c₀)
    (hb : Text.splitLines b = l :: ls) (hl : ∀ c m, step (c, m) l = some ((c₀, m), []))
    (ha : run step s (Text.splitLines a) = some ((c, m), rowsA))
    (hrows : read step (c', none) b = some rowsB) :
    read step s (a ++ '\n' :: b) = some (rowsA ++ rowsB) ↔ ¬(m ≠ none ∧ UsedFirst sets uses ls) := by
  have hread : ∀ c m, read step (c, m) b = (run step (c₀, m) ls).map Prod.snd := by
    intro c m
    rw [read, hb, run, hl]
    change ((run step (c₀, m) ls).bind _).map Prod.snd = _
    cases run step (c₀, m) ls with
    | none => rfl
    | some r => rfl
  rw [hread] at hrows
  obtain ⟨r, hr, rfl⟩ := Option.map_eq_some_iff.mp hrows
  have happend : read step s (a ++ '\n' :: b) = some (rowsA ++ r.2) ↔
      (run step (c₀, m) ls).map Prod.snd = some r.2 := by
    rw [read_newline ha, hread]
    cases run step (c₀, m) ls with
    | none => simp
    | some r' => simp
  rw [happend]
  cases m with
  | none => simp [hr]
  | some m => simp [h.rows_eq_iff hready hr]

end Remembers

end Lines
end Lib
