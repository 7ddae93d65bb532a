import Mathlib.Data.List.Infix
import Mathlib.Data.List.TakeWhile
import Mathlib.Tactic.Common

/-!
# Text

Texts are lists of characters. Lines and blanks are those of Python's `str`.
-/

namespace Lib

abbrev Text := List Char

/-- What holds of all characters of a text is decided character by character, not by going through
all characters that there are. -/
instance (priority := high) decidableForallChar (s : Text) (p : Char → Prop) [DecidablePred p] :
    Decidable (∀ c ∈ s, p c) :=
  List.decidableBAll p s

namespace Text

/-- What `str.isspace` holds of. -/
def isSpace (c : Char) : Bool :=
  let n := c.toNat
  (9 ≤ n && n ≤ 13) || (28 ≤ n && n ≤ 32) || n = 133 || n = 160 || n = 0x1680 ||
    (0x2000 ≤ n && n ≤ 0x200a) || n = 0x2028 || n = 0x2029 || n = 0x202f || n = 0x205f ||
    n = 0x3000

/-- `str.strip()` -/
def strip (s : Text) : Text := ((s.dropWhile isSpace).reverse.dropWhile isSpace).reverse

/-- `str.rstrip()` -/
def rstrip (s : Text) : Text := (s.reverse.dropWhile isSpace).reverse

/-- The lines of a file that is read as text: they end at a newline, a carriage return or both. -/
def fileLines : Text → List Text
  | [] => []
  | '\r' :: '\n' :: s => [] :: fileLines s
  | c :: s =>
    if c = '\n' ∨ c = '\r' then [] :: fileLines s
    else
      match fileLines s with
      | [] => [[c]]
      | l :: ls => (c :: l) :: ls

lemma strip_eq_self {c d : Char} (hc : isSpace c = false) (hd : isSpace d = false) (s : Text) :
    strip (c :: (s ++ [d])) = c :: (s ++ [d]) := by
  simp [strip, hc, hd]

/-- `s.split('\n')` -/
def splitLines : Text → List Text
  | [] => [[]]
  | c :: s =>
    if c = '\n' then [] :: splitLines s
    else
      match splitLines s with
      | [] => [[c]]
      | l :: ls => (c :: l) :: ls

/-- `'\n'.join(lines)` -/
def joinLines (lines : List Text) : Text := List.intercalate ['\n'] lines

lemma splitLines_line {l : Text} (hl : '\n' ∉ l) (s : Text) :
    splitLines (l ++ '\n' :: s) = l :: splitLines s := by
  induction l with
  | nil => simp [splitLines]
  | cons c l ih =>
    rw [List.mem_cons, not_or] at hl
    rw [List.cons_append, splitLines, if_neg (Ne.symm hl.1), ih hl.2]

lemma splitLines_append {l : Text} (hl : '\n' ∉ l) : splitLines l = [l] := by
  induction l with
  | nil => rfl
  | cons c l ih =>
    rw [List.mem_cons, not_or] at hl
    rw [splitLines, if_neg (Ne.symm hl.1), ih hl.2]

lemma joinLines_cons_cons (l l' : Text) (ls : List Text) :
    joinLines (l :: l' :: ls) = l ++ '\n' :: joinLines (l' :: ls) := by
  simp [joinLines, List.intercalate_cons_cons]

lemma splitLines_joinLines {ls : List Text} (hne : ls ≠ []) (h : ∀ l ∈ ls, '\n' ∉ l) :
    splitLines (joinLines ls) = ls := by
  induction ls with
  | nil => exact absurd rfl hne
  | cons l ls ih =>
    obtain ⟨hl, hls⟩ := List.forall_mem_cons.mp h
    cases ls with
    | nil => simpa [joinLines] using splitLines_append hl
    | cons l' ls =>
      rw [joinLines_cons_cons, splitLines_line hl, ih (List.cons_ne_nil _ _) hls]

lemma joinLines_append {ls ls' : List Text} (h : ls ≠ []) (h' : ls' ≠ []) :
    joinLines (ls ++ ls') = joinLines ls ++ '\n' :: joinLines ls' := by
  obtain ⟨l', ls', rfl⟩ := List.exists_cons_of_ne_nil h'
  induction ls with
  | nil => exact absurd rfl h
  | cons l ls ih =>
    cases ls with
    | nil => simp [joinLines]
    | cons m ls =>
      rw [List.cons_append, List.cons_append, joinLines_cons_cons, joinLines_cons_cons,
        List.append_assoc, List.cons_append]
      exact congrArg _ (congrArg _ (ih (List.cons_ne_nil _ _)))

/-! ## Pieces -/

/-- The pieces of `s.split(sep)`: `piece` holds the characters since the last separator, last one
first, and `skip` characters still belong to it. -/
def splitFrom (sep : Text) : (skip : Nat) → (piece : Text) → Text → List Text
  | _, piece, [] => [piece.reverse]
  | skip + 1, piece, _ :: s => splitFrom sep skip piece s
  | 0, piece, c :: s =>
    if sep <+: c :: s then piece.reverse :: splitFrom sep (sep.length - 1) [] s
    else splitFrom sep 0 (c :: piece) s

/-- `s.split(sep)` -/
def split (sep s : Text) : List Text := splitFrom sep 0 [] s

lemma infix_of_mem_splitFrom {sep s c : Text} {skip : Nat} {piece : Text}
    (hskip : skip = 0 ∨ piece = []) (h : c ∈ splitFrom sep skip piece s) :
    c <:+: piece.reverse ++ s := by
  induction s generalizing skip piece with
  | nil =>
    obtain rfl : c = piece.reverse := by simpa [splitFrom] using h
    rw [List.append_nil]
  | cons d s ih =>
    cases skip with
    | zero =>
      rw [splitFrom] at h
      split_ifs at h
      · rcases List.mem_cons.mp h with rfl | h
        · exact (List.prefix_append _ _).isInfix
        · have hc := ih (Or.inr rfl) h
          rw [List.reverse_nil, List.nil_append] at hc
          exact hc.trans ((List.suffix_cons d s).trans (List.suffix_append _ _)).isInfix
      · simpa using ih (Or.inl rfl) h
    | succ skip =>
      obtain rfl : piece = [] := hskip.resolve_left (Nat.succ_ne_zero skip)
      have hc := ih (Or.inr rfl) h
      rw [List.reverse_nil, List.nil_append] at hc ⊢
      exact hc.trans (List.suffix_cons d s).isInfix

lemma infix_of_mem_split {sep s c : Text} (h : c ∈ split sep s) : c <:+: s :=
  infix_of_mem_splitFrom (Or.inl rfl) h

/-- A word without the character `c` that occurs around a `c` occurs before or behind it. -/
lemma infix_append_cons {w a b : Text} {c : Char} (hw : c ∉ w) (h : w <:+: a ++ c :: b) :
    w <:+: a ∨ w <:+: b := by
  obtain ⟨u, v, huv⟩ := h
  rw [List.append_assoc, List.append_eq_append_iff] at huv
  rcases huv with ⟨x, rfl, hx⟩ | ⟨x, rfl, hx⟩
  · rw [List.append_eq_append_iff] at hx
    rcases hx with ⟨y, rfl, -⟩ | ⟨y, rfl, hy⟩
    · exact Or.inl ⟨u, y, by rw [List.append_assoc]⟩
    · cases y with
      | nil => exact Or.inl ⟨u, [], by simp⟩
      | cons d y =>
        obtain rfl : c = d := (List.cons.inj hy).1
        exact absurd (List.mem_append_right x List.mem_cons_self) hw
  · cases x with
    | nil =>
      cases w with
      | nil => exact Or.inl List.nil_infix
      | cons d w =>
        obtain rfl : c = d := (List.cons.inj hx).1
        exact absurd List.mem_cons_self hw
    | cons d x =>
      obtain rfl := (List.cons.inj hx).2
      exact Or.inr ⟨x, v, by simp⟩

lemma rstrip_isInfix (s : Text) : rstrip s <:+: s := by
  apply List.IsPrefix.isInfix
  rw [← List.reverse_suffix, rstrip, List.reverse_reverse]
  exact List.dropWhile_suffix isSpace

lemma strip_isInfix (s : Text) : strip s <:+: s :=
  (rstrip_isInfix (s.dropWhile isSpace)).trans (List.dropWhile_suffix isSpace).isInfix

end Text

end Lib
