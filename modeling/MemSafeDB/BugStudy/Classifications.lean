import Mathlib.Data.Finset.Basic
import MemSafeDB.Lib.Text

/-!
# Classifications of bugs

The classifier's answers are stored one JSON object a line, in one file for each of three
repetitions. Two scripts read them: one for the report and one for the exported table.
-/

namespace MemSafeDB.BugStudy
open Lib

/-- A JSON value. Numbers are compared as Python compares them, with `False` and `True` equal to
0 and 1. -/
inductive Json (ν : Type) where
  | null
  | bool (b : Bool)
  | num (x : ν)
  | str (s : Text)
  | arr (items : List (Json ν))
  | obj (fields : List (Text × Json ν))

/-- A value as the key of a dictionary. -/
inductive Key (ν : Type) where
  | null
  | num (x : ν)
  | str (s : Text)
  deriving DecidableEq

variable {ν : Type} [DecidableEq ν] [Zero ν] [One ν]

namespace Json

/-- `if value` -/
def truthy : Json ν → Bool
  | null => false
  | bool b => b
  | num x => x ≠ 0
  | str s => s ≠ []
  | arr items => !items.isEmpty
  | obj fields => !fields.isEmpty

/-- Lists and dictionaries cannot be keys. -/
def key : Json ν → Option (Key ν)
  | null => some .null
  | bool b => some (.num (if b then 1 else 0))
  | num x => some (.num x)
  | str s => some (.str s)
  | arr _ => none
  | obj _ => none

/-- `value == s` for a string -/
def isStr (s : Text) : Json ν → Bool
  | str t => t = s
  | _ => false

end Json

/-- A dictionary that `json.loads` returns. -/
abbrev Dict (ν : Type) := List (Text × Json ν)

/-- `dict.get`; of equal keys in the text the last one counts. -/
def Dict.get (d : Dict ν) (name : String) (default : Json ν) : Json ν :=
  (d.reverse.lookup name.toList).getD default

/-- The file and its classification that a line holds, if it holds one. `loads` is `json.loads`,
with `none` where it raises. -/
def readEntry (loads : Text → Option (Json ν)) (line : Text) : Option (Key ν × Dict ν) := do
  let line := Text.strip line
  if line = [] then none
  else
    match ← loads line with
    | .obj entry =>
      let fName := Dict.get entry "file" .null
      if !fName.truthy then none
      else
        let classification := Dict.get entry "classification" .null
        if !classification.truthy then none
        else
          -- a classification may be stored as a string
          let classification ← match classification with
            | .str s => loads s
            | c => some c
          match classification with
          | .obj c => do
            let f ← fName.key
            pure (f, c)
          | _ => none
    | _ => none

/-- The entries of a result file, in order; a missing file has none. -/
def readEntries (loads : Text → Option (Json ν)) (file : Option Text) :
    List (Key ν × Dict ν) :=
  (Text.fileLines (file.getD [])).filterMap (readEntry loads)

end MemSafeDB.BugStudy
