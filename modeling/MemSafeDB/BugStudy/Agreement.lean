import Mathlib.Data.Finset.Card
import Mathlib.Data.Finset.Lattice.Basic
import Mathlib.Data.Fintype.Basic
import MemSafeDB.BugStudy.Classifications

/-!
# The report and the exported table

The report collects for each repetition the files that some entry flags as a memory-safety
issue. The export keeps the last entry of each file and also asks for the type of the issue. A
file that is exported is always in the report.
-/

namespace MemSafeDB.BugStudy
open Lib

variable {ν : Type} [DecidableEq ν] [Zero ν] [One ν]

/-! ## analyse_bug_results.py -/

/-- Counting the type of the issue comes first and raises for a list or a dictionary, so that the
rest of the entry is skipped. -/
def Flagged (c : Dict ν) : Prop :=
  (Dict.get c "issue_type" (.str "unknown".toList)).key ≠ none ∧
    (Dict.get c "is_memory_safety" (.bool false)).truthy = true

instance (c : Dict ν) : Decidable (Flagged c) := inferInstanceAs (Decidable (_ ∧ _))

def addFlagged (s : Finset (Key ν)) (e : Key ν × Dict ν) : Finset (Key ν) :=
  if Flagged e.2 then insert e.1 s else s

/-- The files that a repetition flags. -/
def repSet (loads : Text → Option (Json ν)) (file : Option Text) : Finset (Key ν) :=
  (readEntries loads file).foldl addFlagged ∅

/-- The files in all of `LLM_Rep1`, `LLM_Rep2` and `LLM_Rep3`. -/
def inAllReps (loads : Text → Option (Json ν)) (files : Fin 3 → Option Text) : Finset (Key ν) :=
  repSet loads (files 0) ∩ repSet loads (files 1) ∩ repSet loads (files 2)

/-! ## export_bug_results_to_csv.py -/

/-- The classifications of each file by repetition. -/
structure Results (ν : Type) where
  files : Finset (Key ν)
  reps : Key ν → Fin 3 → Option (Dict ν)

def Results.store (r : Results ν) (rep : Fin 3) (e : Key ν × Dict ν) : Results ν where
  files := insert e.1 r.files
  reps := Function.update r.reps e.1 (Function.update (r.reps e.1) rep (some e.2))

def loadLlmResults (loads : Text → Option (Json ν)) (files : Fin 3 → Option Text) : Results ν :=
  (List.finRange 3).foldl
    (fun r rep => (readEntries loads (files rep)).foldl (fun r e => r.store rep e) r)
    ⟨∅, fun _ _ => none⟩

def isBug (c : Dict ν) : Bool := (Dict.get c "issue_type" (.str [])).isStr "bug".toList

def isMemsafe (c : Dict ν) : Bool := (Dict.get c "is_memory_safety" (.bool false)).truthy

/-- The vote for an implication; `none` where it raises. -/
def vote (c : Dict ν) : Option (List (Key ν)) :=
  let implication := Dict.get c "implication" (.str "none".toList)
  if implication.truthy then implication.key.map fun k => [k] else some []

/-- The counts of one file. -/
structure Votes (ν : Type) where
  bugCount : Nat
  memsafeCount : Nat
  implications : List (Key ν)

def Votes.add (v : Votes ν) (c : Dict ν) : Option (Votes ν) :=
  (vote c).map fun implications =>
    { bugCount := v.bugCount + (isBug c).toNat
      memsafeCount := v.memsafeCount + (isBug c && isMemsafe c).toNat
      implications := v.implications ++ implications }

def countVotes (reps : Fin 3 → Option (Dict ν)) : Option (Votes ν) :=
  (List.finRange 3).foldlM (fun v rep => (reps rep).elim (some v) v.add) ⟨0, 0, []⟩

/-- What is exported about a system. -/
structure Summary (ν : Type) where
  /-- the files counted by `db_memsafe` -/
  unanimous : Finset (Key ν)
  implications : Key ν → Nat

def Summary.dbMemsafe (s : Summary ν) : Nat := s.unanimous.card

/-- Whether all three repetitions agree on a memory-safety bug, and on its implication. -/
def unanimousOn (r : Results ν) (f : Key ν) : Bool :=
  ((countVotes (r.reps f)).map Votes.memsafeCount) = some 3

def analyzeDbms (loads : Text → Option (Json ν)) (files : Fin 3 → Option Text) :
    Option (Summary ν) :=
  let r := loadLlmResults loads files
  if ∀ f ∈ r.files, (countVotes (r.reps f)).isSome then
    some
      { unanimous := r.files.filter fun f => unanimousOn r f
        implications := fun k => (r.files.filter fun f => unanimousOn r f ∧
          (countVotes (r.reps f)).map Votes.implications = some [k, k, k]).card }
  else none

/-! ## The two agree on what the last entries confirm -/

/-- The entry that the export keeps of a file. -/
def lastEntry (loads : Text → Option (Json ν)) (file : Option Text) (f : Key ν) :
    Option (Dict ν) :=
  (((readEntries loads file).filter fun e => e.1 = f).getLast?).map Prod.snd

lemma mem_foldl_addFlagged {es : List (Key ν × Dict ν)} {s : Finset (Key ν)} {f : Key ν} :
    f ∈ es.foldl addFlagged s ↔ f ∈ s ∨ ∃ c, (f, c) ∈ es ∧ Flagged c := by
  induction es generalizing s with
  | nil => simp
  | cons e es ih =>
    rw [List.foldl_cons, ih, addFlagged]
    split_ifs with h
    · rw [Finset.mem_insert, or_assoc, or_comm (a := f = e.1), or_assoc]
      refine or_congr_right ⟨?_, ?_⟩
      · rintro (⟨c, hc, hf⟩ | rfl)
        · exact ⟨c, List.mem_cons_of_mem _ hc, hf⟩
        · exact ⟨e.2, List.mem_cons_self .., h⟩
      · rintro ⟨c, hc, hf⟩
        rcases List.mem_cons.mp hc with heq | hc
        · exact Or.inr (congrArg Prod.fst heq)
        · exact Or.inl ⟨c, hc, hf⟩
    · refine or_congr_right ⟨?_, ?_⟩
      · rintro ⟨c, hc, hf⟩
        exact ⟨c, List.mem_cons_of_mem _ hc, hf⟩
      · rintro ⟨c, hc, hf⟩
        rcases List.mem_cons.mp hc with heq | hc
        · exact absurd (congrArg Prod.snd heq ▸ hf) h
        · exact ⟨c, hc, hf⟩

lemma mem_repSet {loads : Text → Option (Json ν)} {file : Option Text} {f : Key ν} :
    f ∈ repSet loads file ↔ ∃ c, (f, c) ∈ readEntries loads file ∧ Flagged c := by
  simp [repSet, mem_foldl_addFlagged]

lemma mem_inAllReps {loads : Text → Option (Json ν)} {files : Fin 3 → Option Text} {f : Key ν} :
    f ∈ inAllReps loads files ↔
      ∀ rep, ∃ c, (f, c) ∈ readEntries loads (files rep) ∧ Flagged c := by
  simp only [inAllReps, Finset.mem_inter, mem_repSet, Fin.forall_fin_succ, and_assoc]
  simp

omit [Zero ν] [One ν] in
/-- Storing the entries of one repetition leaves the last one of each file. -/
lemma reps_foldl_store (es : List (Key ν × Dict ν)) (r : Results ν) (rep : Fin 3) (f : Key ν)
    (rep' : Fin 3) :
    (es.foldl (fun r e => r.store rep e) r).reps f rep' =
      if rep' = rep then
        (((es.filter fun e => e.1 = f).getLast?).map Prod.snd).or (r.reps f rep')
      else r.reps f rep' := by
  induction es using List.reverseRecOn with
  | nil => simp
  | append_singleton es e ih =>
    rw [List.foldl_append, List.foldl_cons, List.foldl_nil, Results.store]
    by_cases hf : e.1 = f
    · subst hf
      by_cases hrep : rep' = rep
      · subst hrep
        simp
      · simp [hrep, ih]
    · simp [hf, Function.update_of_ne (Ne.symm hf), ih]

omit [Zero ν] [One ν] in
lemma files_foldl_store (es : List (Key ν × Dict ν)) (r : Results ν) (rep : Fin 3) (f : Key ν) :
    f ∈ (es.foldl (fun r e => r.store rep e) r).files ↔ f ∈ r.files ∨ ∃ c, (f, c) ∈ es := by
  induction es generalizing r with
  | nil => simp
  | cons e es ih =>
    rw [List.foldl_cons, ih, Results.store, Finset.mem_insert]
    constructor
    · rintro ((rfl | hf) | ⟨c, hc⟩)
      · exact Or.inr ⟨e.2, List.mem_cons_self ..⟩
      · exact Or.inl hf
      · exact Or.inr ⟨c, List.mem_cons_of_mem _ hc⟩
    · rintro (hf | ⟨c, hc⟩)
      · exact Or.inl (Or.inr hf)
      · rcases List.mem_cons.mp hc with rfl | hc
        · exact Or.inl (Or.inl rfl)
        · exact Or.inr ⟨c, hc⟩

lemma loadLlmResults_reps (loads : Text → Option (Json ν)) (files : Fin 3 → Option Text)
    (f : Key ν) (rep : Fin 3) :
    (loadLlmResults loads files).reps f rep = lastEntry loads (files rep) f := by
  have hrange : List.finRange 3 = [0, 1, 2] := by decide
  simp only [loadLlmResults, hrange, List.foldl_cons, List.foldl_nil, reps_foldl_store, lastEntry,
    Option.or_none]
  match rep with
  | 0 => simp
  | 1 => simp
  | 2 => simp

lemma mem_loadLlmResults_files {loads : Text → Option (Json ν)} {files : Fin 3 → Option Text}
    {f : Key ν} :
    f ∈ (loadLlmResults loads files).files ↔ ∃ rep c, (f, c) ∈ readEntries loads (files rep) := by
  have hrange : List.finRange 3 = [0, 1, 2] := by decide
  simp only [loadLlmResults, hrange, List.foldl_cons, List.foldl_nil, files_foldl_store,
    Finset.notMem_empty, false_or]
  simp [Fin.exists_fin_succ, or_assoc]

lemma lastEntry_mem {loads : Text → Option (Json ν)} {file : Option Text} {f : Key ν}
    {c : Dict ν} (h : lastEntry loads file f = some c) : (f, c) ∈ readEntries loads file := by
  obtain ⟨e, he, rfl⟩ := Option.map_eq_some_iff.mp h
  obtain ⟨hmem, hf⟩ := List.mem_filter.mp (List.mem_of_getLast? he)
  rw [← of_decide_eq_true hf]
  exact hmem

lemma exists_lastEntry {loads : Text → Option (Json ν)} {file : Option Text} {f : Key ν}
    {c : Dict ν} (h : (f, c) ∈ readEntries loads file) :
    ∃ c, lastEntry loads file f = some c := by
  have hmem : (f, c) ∈ (readEntries loads file).filter fun e => e.1 = f :=
    List.mem_filter.mpr ⟨h, decide_eq_true rfl⟩
  obtain ⟨e, he⟩ := Option.isSome_iff_exists.mp
    (List.getLast?_isSome.mpr (List.ne_nil_of_mem hmem))
  exact ⟨e.2, by rw [lastEntry, he]; rfl⟩

/-! ## Counting the votes -/

/-- An entry that the export confirms is one that the report flags. -/
lemma flagged_of_confirmed {c : Dict ν} (hbug : isBug c = true) (hmem : isMemsafe c = true) :
    Flagged c := by
  refine ⟨?_, hmem⟩
  rw [isBug, Dict.get] at hbug
  rw [Dict.get]
  cases hlook : c.reverse.lookup "issue_type".toList with
  | none =>
    rw [hlook] at hbug
    exact absurd hbug Bool.false_ne_true
  | some value =>
    rw [hlook, Option.getD_some] at hbug
    cases value with
    | str s => exact Option.some_ne_none _
    | _ => exact absurd hbug Bool.false_ne_true

def confirmed (reps : Fin 3 → Option (Dict ν)) (rep : Fin 3) : Bool :=
  (reps rep).elim false fun c => isBug c && isMemsafe c

/-- The votes raise where an implication of one of the entries does. -/
lemma isSome_foldlM_add (reps : Fin 3 → Option (Dict ν)) (l : List (Fin 3)) (v : Votes ν) :
    (l.foldlM (fun v rep => (reps rep).elim (some v) v.add) v).isSome ↔
      ∀ rep ∈ l, ∀ c, reps rep = some c → vote c ≠ none := by
  induction l generalizing v with
  | nil => simp
  | cons rep l ih =>
    rw [List.foldlM_cons, List.forall_mem_cons]
    cases hrep : reps rep with
    | none => simp [ih]
    | some c =>
      cases hvote : vote c with
      | none => simp [Votes.add, hvote]
      | some implications => simp [Votes.add, hvote, ih]

lemma memsafeCount_foldlM_add {reps : Fin 3 → Option (Dict ν)} {l : List (Fin 3)} {v w : Votes ν}
    (h : l.foldlM (fun v rep => (reps rep).elim (some v) v.add) v = some w) :
    w.memsafeCount = v.memsafeCount + l.countP (confirmed reps) := by
  induction l generalizing v with
  | nil => simp_all
  | cons rep l ih =>
    rw [List.foldlM_cons] at h
    obtain ⟨u, hu, h⟩ := Option.bind_eq_some_iff.mp h
    rw [ih h, List.countP_cons, confirmed]
    cases hrep : reps rep with
    | none =>
      rw [hrep] at hu
      simp [Option.some.inj hu]
    | some c =>
      rw [hrep] at hu
      obtain ⟨implications, -, rfl⟩ := Option.map_eq_some_iff.mp hu
      rw [Option.elim_some, Nat.add_right_comm, Nat.add_assoc]
      cases isBug c && isMemsafe c <;> rfl

lemma unanimousOn_iff {r : Results ν} {f : Key ν} (h : (countVotes (r.reps f)).isSome) :
    unanimousOn r f = true ↔ ∀ rep, confirmed (r.reps f) rep = true := by
  obtain ⟨v, hv⟩ := Option.isSome_iff_exists.mp h
  have hcount := memsafeCount_foldlM_add hv
  have hall : (List.finRange 3).countP (confirmed (r.reps f)) = 3 ↔
      ∀ rep ∈ List.finRange 3, confirmed (r.reps f) rep = true := List.countP_eq_length
  rw [unanimousOn, hv, decide_eq_true_eq, Option.map_some, Option.some.injEq, hcount]
  simpa using hall

/-! ## Where the two agree -/

/-- The export succeeds and counts the files that the report has in all three repetitions. -/
def Agree (loads : Text → Option (Json ν)) (files : Fin 3 → Option Text) : Prop :=
  ∃ s, analyzeDbms loads files = some s ∧ s.unanimous = inAllReps loads files ∧
    s.dbMemsafe = (inAllReps loads files).card

omit [One ν] in
lemma confirmed_iff {reps : Fin 3 → Option (Dict ν)} {rep : Fin 3} :
    confirmed reps rep = true ↔
      ∃ c, reps rep = some c ∧ isBug c = true ∧ isMemsafe c = true := by
  cases h : reps rep <;> simp [confirmed, h]

lemma analyzeDbms_isSome_iff {loads : Text → Option (Json ν)} {files : Fin 3 → Option Text} :
    (∀ f ∈ (loadLlmResults loads files).files,
        (countVotes ((loadLlmResults loads files).reps f)).isSome) ↔
      ∀ f rep c, lastEntry loads (files rep) f = some c → vote c ≠ none := by
  simp only [countVotes, isSome_foldlM_add, loadLlmResults_reps, List.mem_finRange, true_imp_iff]
  constructor
  · intro h f rep c hc
    exact h f (mem_loadLlmResults_files.mpr ⟨rep, c, lastEntry_mem hc⟩) rep c hc
  · intro h f _ rep c hc
    exact h f rep c hc

lemma mem_unanimous {loads : Text → Option (Json ν)} {files : Fin 3 → Option Text} {f : Key ν}
    (h : ∀ f ∈ (loadLlmResults loads files).files,
      (countVotes ((loadLlmResults loads files).reps f)).isSome) :
    f ∈ (loadLlmResults loads files).files.filter (fun f => unanimousOn (loadLlmResults loads files) f) ↔
      ∀ rep, ∃ c, lastEntry loads (files rep) f = some c ∧ isBug c = true ∧ isMemsafe c = true := by
  rw [Finset.mem_filter]
  constructor
  · rintro ⟨hf, hu⟩ rep
    rw [unanimousOn_iff (h f hf)] at hu
    simpa only [loadLlmResults_reps] using confirmed_iff.mp (hu rep)
  · intro hall
    obtain ⟨c, hc, -⟩ := hall 0
    have hf : f ∈ (loadLlmResults loads files).files :=
      mem_loadLlmResults_files.mpr ⟨0, c, lastEntry_mem hc⟩
    refine ⟨hf, (unanimousOn_iff (h f hf)).mpr fun rep => confirmed_iff.mpr ?_⟩
    simpa only [loadLlmResults_reps] using hall rep

/-- The report and the export agree exactly when no implication of a last entry makes the export
raise and, for each file that every repetition flags, the last entries are all memory-safety bugs:
a flag on an entry of another type, or one that a later entry takes back, is only in the report. -/
theorem agree_iff (loads : Text → Option (Json ν)) (files : Fin 3 → Option Text) :
    Agree loads files ↔
      (∀ f rep c, lastEntry loads (files rep) f = some c → vote c ≠ none) ∧
      ∀ f, (∀ rep, ∃ c, (f, c) ∈ readEntries loads (files rep) ∧ Flagged c) →
        ∀ rep c, lastEntry loads (files rep) f = some c → isBug c = true ∧ isMemsafe c = true := by
  rw [← analyzeDbms_isSome_iff, Agree, analyzeDbms]
  constructor
  · rintro ⟨s, hs, heq, -⟩
    split_ifs at hs with hsome
    refine ⟨hsome, fun f hall rep c hc => ?_⟩
    have hmem : f ∈ s.unanimous := heq ▸ mem_inAllReps.mpr hall
    rw [← Option.some.inj hs] at hmem
    obtain ⟨c', hc', hconf⟩ := (mem_unanimous hsome).mp hmem rep
    rw [hc'] at hc
    exact Option.some.inj hc ▸ hconf
  · rintro ⟨hsome, hall⟩
    have heq : ((loadLlmResults loads files).files.filter fun f =>
        unanimousOn (loadLlmResults loads files) f) = inAllReps loads files := by
      ext f
      rw [mem_unanimous hsome, mem_inAllReps]
      constructor
      · intro h rep
        obtain ⟨c, hc, hbug, hmem⟩ := h rep
        exact ⟨c, lastEntry_mem hc, flagged_of_confirmed hbug hmem⟩
      · intro h rep
        obtain ⟨c, hc, -⟩ := h rep
        obtain ⟨c', hc'⟩ := exists_lastEntry hc
        exact ⟨c', hc', hall f h rep c' hc'⟩
    exact ⟨_, if_pos hsome, heq, congrArg Finset.card heq⟩

/-- A memory-safety flag on an issue that the classifier does not count as a bug. -/
def flaggedLine : Text :=
  ("\x7b\"file\": \"a.json\", \"classification\": " ++
    "\x7b\"issue_type\": \"other\", \"is_memory_safety\": true\x7d\x7d").toList

/-- Numbers without a fraction. -/
structure Whole where
  value : Int
  deriving DecidableEq

instance : Zero Whole := ⟨⟨0⟩⟩
instance : One Whole := ⟨⟨1⟩⟩

/-- What `json.loads` returns for that line. -/
def loadsFlagged (line : Text) : Option (Json Whole) :=
  if line = flaggedLine then
    some (.obj
      [("file".toList, .str "a.json".toList),
        ("classification".toList,
          .obj [("issue_type".toList, .str "other".toList), ("is_memory_safety".toList, .bool true)])])
  else none

/-- All three repetitions have the line, which the report counts and the export does not. -/
theorem not_agree_flaggedLine :
    ¬Agree loadsFlagged fun _ => some flaggedLine := by
  rintro ⟨s, hs, heq, -⟩
  have hne : (analyzeDbms loadsFlagged fun _ => some flaggedLine).map Summary.unanimous ≠
      some (inAllReps loadsFlagged fun _ => some flaggedLine) := by decide +kernel
  exact hne (by rw [hs, Option.map_some, heq])

end MemSafeDB.BugStudy
