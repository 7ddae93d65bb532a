import Mathlib.Data.Nat.Digits.Defs
import Mathlib.Data.Nat.Digits.Lemmas
import Mathlib.Tactic.Common
import MemSafeDB.Lib.Text

/-!
# Comma-separated values

Fields without separators, quotes in front or line ends are read back as they were written, and
so are decimal numbers.
-/

namespace Lib

namespace Csv

/-! ## Reading -/

inductive Mode where
  | startRecord
  /-- behind a carriage return, which a newline may follow -/
  | afterReturn
  | startField
  | inField
  | inQuotedField
  | quoteInQuotedField
  deriving DecidableEq

structure Reader where
  mode : Mode
  field : Text
  row : List Text
  rows : List (List Text)

namespace Reader

def init : Reader := ⟨.startRecord, [], [], []⟩

def saveField (r : Reader) : Reader := { r with field := [], row := r.row ++ [r.field] }

def endRecord (r : Reader) (c : Char) : Reader :=
  { r with
    mode := if c = '\r' then .afterReturn else .startRecord
    row := []
    rows := r.rows ++ [r.row] }

def add (r : Reader) (c : Char) : Reader := { r with field := r.field ++ [c] }

def stepStart (r : Reader) (c : Char) : Reader :=
  if c = '\n' ∨ c = '\r' then r.saveField.endRecord c
  else if c = '"' then { r with mode := .inQuotedField }
  else if c = ',' then { r.saveField with mode := .startField }
  else { r.add c with mode := .inField }

def step (r : Reader) (c : Char) : Reader :=
  match r.mode with
  | .startRecord => if c = '\n' ∨ c = '\r' then r.endRecord c else r.stepStart c
  | .afterReturn =>
    if c = '\n' then { r with mode := .startRecord }
    else if c = '\r' then r.endRecord c
    else r.stepStart c
  | .startField => r.stepStart c
  | .inField =>
    if c = '\n' ∨ c = '\r' then r.saveField.endRecord c
    else if c = ',' then { r.saveField with mode := .startField }
    else r.add c
  | .inQuotedField => if c = '"' then { r with mode := .quoteInQuotedField } else r.add c
  | .quoteInQuotedField =>
    if c = '"' then { r.add c with mode := .inQuotedField }
    else if c = ',' then { r.saveField with mode := .startField }
    else if c = '\n' ∨ c = '\r' then r.saveField.endRecord c
    else { r.add c with mode := .inField }

def run (r : Reader) (text : Text) : Reader := text.foldl step r

/-- The end of the text ends the record that is being read. -/
def finish (r : Reader) : List (List Text) :=
  match r.mode with
  | .startRecord => r.rows
  | .afterReturn => r.rows
  | _ => r.rows ++ [r.row ++ [r.field]]

end Reader

/-- The rows of a text in the default dialect; the row of an empty line has no fields. -/
def read (text : Text) : List (List Text) := (Reader.init.run text).finish

/-! ## Writing -/

def renderRow : List Text → Text
  | [] => ['\n']
  | [f] => f ++ ['\n']
  | f :: g :: fs => f ++ ',' :: renderRow (g :: fs)

def render (rows : List (List Text)) : Text := (rows.map renderRow).flatten

/-- A field that is written without quotes. -/
def Plain (f : Text) : Prop :=
  (∀ c ∈ f, c ≠ ',' ∧ c ≠ '\n' ∧ c ≠ '\r') ∧ f.head? ≠ some '"'

instance (f : Text) : Decidable (Plain f) := inferInstanceAs (Decidable (_ ∧ _))

namespace Reader

variable {r : Reader} {f : Text}

@[simp] lemma run_nil (r : Reader) : r.run [] = r := rfl

@[simp] lemma run_cons (r : Reader) (c : Char) (text : Text) :
    r.run (c :: text) = (r.step c).run text := rfl

lemma run_append (r : Reader) (a b : Text) : r.run (a ++ b) = (r.run a).run b :=
  List.foldl_append

/-- Inside a field everything up to the next separator is added to it. -/
lemma run_inField (hr : r.mode = .inField) (hf : ∀ c ∈ f, c ≠ ',' ∧ c ≠ '\n' ∧ c ≠ '\r') :
    r.run f = { r with field := r.field ++ f } := by
  induction f generalizing r with
  | nil => simp
  | cons c f ih =>
    obtain ⟨hc, hf⟩ := List.forall_mem_cons.mp hf
    have hstep : r.step c = r.add c := by simp [step, hr, hc.1, hc.2.1, hc.2.2]
    rw [run_cons, hstep, ih (by exact hr) hf]
    simp [add]

/-- A plain field with the separator behind it. -/
lemma run_field (hr : r.mode = .startField) (hfield : r.field = []) (hf : Plain f) :
    r.run (f ++ [',']) = { r with row := r.row ++ [f] } ∧
      r.run (f ++ ['\n']) =
        { r with mode := .startRecord, row := [], rows := r.rows ++ [r.row ++ [f]] } := by
  cases f with
  | nil => simp [step, stepStart, hr, hfield, saveField, endRecord]
  | cons c f =>
    obtain ⟨hc, hrest⟩ := List.forall_mem_cons.mp hf.1
    have hq : c ≠ '"' := fun h => hf.2 (by rw [h]; rfl)
    have hstep : r.step c = { r with mode := .inField, field := [c] } := by
      simp [step, stepStart, hr, hfield, hq, hc.1, hc.2.1, hc.2.2, add]
    simp only [List.cons_append, run_cons, hstep, run_append]
    rw [run_inField rfl hrest]
    simp [step, saveField, endRecord, hr, hfield]

/-- At the start of a record a plain field is read as at the start of any other field. -/
lemma run_startRecord (hr : r.mode = .startRecord) (hf : Plain f) (text : Text) :
    r.run (f ++ ',' :: text) = ({ r with mode := .startField } : Reader).run (f ++ ',' :: text) := by
  cases f with
  | nil => simp [step, stepStart, hr, saveField]
  | cons c f =>
    obtain ⟨hc, -⟩ := List.forall_mem_cons.mp hf.1
    simp [step, stepStart, hr, hc.2.1, hc.2.2, add, saveField]

lemma run_renderRow {fs : List Text} (hne : fs ≠ []) (hr : r.mode = .startField)
    (hfield : r.field = []) (hf : ∀ f ∈ fs, Plain f) :
    r.run (renderRow fs) =
      { r with mode := .startRecord, row := [], rows := r.rows ++ [r.row ++ fs] } := by
  induction fs generalizing r with
  | nil => exact absurd rfl hne
  | cons f fs ih =>
    obtain ⟨h1, h2⟩ := run_field hr hfield (hf f (List.mem_cons_self ..))
    cases fs with
    | nil => exact h2
    | cons g fs =>
      have hsplit : renderRow (f :: g :: fs) = (f ++ [',']) ++ renderRow (g :: fs) := by
        simp [renderRow]
      rw [hsplit, run_append, h1, ih (r := { r with row := r.row ++ [f] }) (by simp) hr hfield
        (fun f hf' => hf f (by simp [hf']))]
      simp

lemma run_render {rows : List (List Text)} (hr : r.mode = .startRecord) (hfield : r.field = [])
    (hrow : r.row = []) (hlen : ∀ fs ∈ rows, 1 < fs.length)
    (hf : ∀ fs ∈ rows, ∀ f ∈ fs, Plain f) :
    r.run (render rows) = { r with rows := r.rows ++ rows } := by
  induction rows generalizing r with
  | nil => simp [render]
  | cons fs rows ih =>
    obtain ⟨hl, hlens⟩ := List.forall_mem_cons.mp hlen
    obtain ⟨hp, hfs⟩ := List.forall_mem_cons.mp hf
    obtain ⟨f, g, gs, rfl⟩ : ∃ f g gs, fs = f :: g :: gs := by
      match fs, hl with
      | f :: g :: gs, _ => exact ⟨f, g, gs, rfl⟩
    have hsplit : render ((f :: g :: gs) :: rows) = renderRow (f :: g :: gs) ++ render rows := by
      simp [render]
    have hstart : r.run (renderRow (f :: g :: gs)) =
        ({ r with mode := .startField } : Reader).run (renderRow (f :: g :: gs)) :=
      run_startRecord hr (hp f (by simp)) _
    have hrun := run_renderRow (r := { r with mode := .startField }) (by simp) rfl hfield hp
    have hrest := ih (r := { r with
      mode := .startRecord, row := [], rows := r.rows ++ [r.row ++ f :: g :: gs] })
      rfl hfield rfl hlens hfs
    rw [hsplit, run_append, hstart, hrun, hrest]
    simp [hr, hrow]

end Reader

theorem read_render {rows : List (List Text)} (hlen : ∀ fs ∈ rows, 1 < fs.length)
    (hf : ∀ fs ∈ rows, ∀ f ∈ fs, Plain f) : read (render rows) = rows := by
  rw [read, Reader.run_render rfl rfl rfl hlen hf]
  rfl

end Csv

/-! ## Numbers -/

/-- The decimal numeral of a number. -/
def decimal (n : Nat) : Text :=
  if n = 0 then ['0'] else (Nat.digits 10 n).reverse.map Nat.digitChar

def digitValue (c : Char) : Option Nat :=
  if '0' ≤ c ∧ c ≤ '9' then some (c.toNat - '0'.toNat) else none

/-- One digit more. -/
def addDigit (v : Option Nat) (c : Char) : Option Nat := do
  let v ← v
  let d ← digitValue c
  pure (10 * v + d)

/-- The value of a decimal numeral. -/
def parseNat (s : Text) : Option Nat := if s = [] then none else s.foldl addDigit (some 0)

lemma digitValue_digitChar {d : Nat} (h : d < 10) : digitValue (Nat.digitChar d) = some d := by
  interval_cases d <;> decide

lemma digitChar_plain {d : Nat} (h : d < 10) :
    (Nat.digitChar d ≠ ',' ∧ Nat.digitChar d ≠ '\n' ∧ Nat.digitChar d ≠ '\r') ∧
      Nat.digitChar d ≠ '"' := by
  interval_cases d <;> decide

lemma decimal_of_lt {n : Nat} (h : n < 10) : decimal n = [Nat.digitChar n] := by
  interval_cases n <;> rfl

/-- The last digit of a numeral. -/
lemma decimal_of_le {n : Nat} (h : 10 ≤ n) :
    decimal n = decimal (n / 10) ++ [Nat.digitChar (n % 10)] := by
  have hn : n ≠ 0 := by omega
  have hdiv : n / 10 ≠ 0 := by omega
  rw [decimal, if_neg hn, decimal, if_neg hdiv, Nat.digits_def' (by decide) (by omega),
    List.reverse_cons, List.map_append]
  rfl

/-- A property of numerals that holds of single digits and survives another digit. -/
lemma decimal_induction {P : Nat → Text → Prop} (hdigit : ∀ d < 10, P d [Nat.digitChar d])
    (hstep : ∀ n, 10 ≤ n → P (n / 10) (decimal (n / 10)) →
      P n (decimal (n / 10) ++ [Nat.digitChar (n % 10)])) (n : Nat) : P n (decimal n) := by
  induction n using Nat.strong_induction_on with
  | h n ih =>
    rcases Nat.lt_or_ge n 10 with hlt | hge
    · rw [decimal_of_lt hlt]
      exact hdigit n hlt
    · rw [decimal_of_le hge]
      exact hstep n hge (ih (n / 10) (by omega))

lemma decimal_plain (n : Nat) : decimal n ≠ [] ∧ Csv.Plain (decimal n) := by
  refine decimal_induction (P := fun _ s => s ≠ [] ∧ Csv.Plain s) ?_ ?_ n
  · intro d hd
    obtain ⟨h1, h2⟩ := digitChar_plain hd
    exact ⟨by simp, by simp [h1], by simp [h2]⟩
  · rintro n - ⟨hne, hchars, hhead⟩
    refine ⟨by simp, ?_, ?_⟩
    · intro c hc
      rcases List.mem_append.mp hc with hc | hc
      · exact hchars c hc
      · rw [List.mem_singleton.mp hc]
        exact (digitChar_plain (Nat.mod_lt n (by decide))).1
    · rwa [List.head?_append_of_ne_nil _ hne]

theorem parseNat_decimal (n : Nat) : parseNat (decimal n) = some n := by
  rw [parseNat, if_neg (decimal_plain n).1]
  refine decimal_induction (P := fun n s => s.foldl addDigit (some 0) = some n) ?_ ?_ n
  · intro d hd
    simp [addDigit, digitValue_digitChar hd]
  · intro n _ ih
    rw [List.foldl_append, ih]
    simp only [List.foldl_cons, List.foldl_nil, addDigit, Option.bind_eq_bind, Option.bind_some,
      digitValue_digitChar (Nat.mod_lt n (by decide : 0 < 10)), Option.pure_def]
    rw [Nat.div_add_mod]

end Lib
