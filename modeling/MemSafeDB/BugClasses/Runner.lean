import Mathlib.Data.Finset.Card
import Mathlib.Data.List.TakeWhile
import MemSafeDB.Lib.Csv

/-!
# The runner of the bug suite

Every bug runs repeatedly in a child process. The runner classifies how each run ended and
counts equal outcomes, of which it tells sixteen apart.
-/

namespace MemSafeDB.BugClasses
open Lib

/-! ## Outcomes -/

structure Outcome where
  /-- hw_trap, runtime_abort, crash, hang, silent, exit, unknown -/
  outcome : Text
  /-- fault type, libc message or observation -/
  detail : Text
  /-- stage of the run, or - -/
  timing : Text
  deriving DecidableEq

/-- What `waitpid` reports about the child. -/
inductive Status where
  | exited (status : Int)
  | signaled (sig : Int)
  | other

/-- What the child leaves in the memory it shares with the runner. -/
structure SharedState where
  stage : Int
  signo : Int
  code : Int

def exitTrapped : Int := 97
def exitObsBase : Int := 64

def sigill : Int := 4
def sigtrap : Int := 5
def sigabrt : Int := 6
def sigsegv : Int := 11
def sigalrm : Int := 14

def segvMaperr : Int := 1
def segvAccerr : Int := 2
def segvMteaerr : Int := 8
def segvMteserr : Int := 9
def segvCapFirst : Int := 10
def segvCapLast : Int := 14

/-- `%d` -/
def decimalInt : Int → Text
  | .ofNat n => decimal n
  | .negSucc n => '-' :: decimal (n + 1)

def cheriFaultName (i : Int) : Text :=
  if i = 0 then "cheri_tag".toList
  else if i = 1 then "cheri_sealed".toList
  else if i = 2 then "cheri_bounds".toList
  else if i = 3 then "cheri_permission".toList
  else "cheri_tag_store".toList

def obsName (obs : Int) : Text :=
  if obs = 0 then "no_effect".toList
  else if obs = 1 then "corruption".toList
  else if obs = 2 then "leak".toList
  else "unknown".toList

def timingOf (stage : Int) : Text :=
  if stage = 0 then "setup".toList
  else if stage = 1 then "access".toList
  else if stage = 2 then "after".toList
  else "cleanup".toList

/-- The part of a text from the first occurrence of the pattern on. -/
def strstr (buf pat : Text) : Option Text := buf.tails.find? (fun t => pat.isPrefixOf t)

def libcPatterns : List Text :=
  ["double free".toList, "free(): ".toList, "malloc(): ".toList, "realloc(): ".toList,
    "munmap_chunk".toList, "corrupted ".toList, "malloc_consolidate".toList,
    "unaligned tcache".toList]

/-- The message of the first pattern that occurs, up to the end of its line and without commas. -/
def findLibcMessage (buf : Text) (n : Nat) : Option Text :=
  (libcPatterns.findSome? (strstr buf)).map fun p =>
    ((p.takeWhile (· ≠ '\n')).take (n - 1)).map fun c => if c = ',' then ';' else c

/-- A fault that the handler of the child has caught. `sigprot` is the signal of that name where
the system has it. -/
def classifyTrapped (sigprot : Option Int) (g : SharedState) : Outcome :=
  let sig := g.signo
  let code := g.code
  let timing := timingOf g.stage
  if sig = sigsegv ∧ code = segvMteserr then ⟨"hw_trap".toList, "mte_sync".toList, timing⟩
  else if sig = sigsegv ∧ code = segvMteaerr then ⟨"hw_trap".toList, "mte_async".toList, timing⟩
  else if sig = sigsegv ∧ segvCapFirst ≤ code ∧ code ≤ segvCapLast then
    ⟨"hw_trap".toList, cheriFaultName (code - segvCapFirst), timing⟩
  else if some sig = sigprot then
    ⟨"hw_trap".toList, "cheri_sigprot_".toList ++ decimalInt code, timing⟩
  else if sig = sigill ∨ sig = sigtrap then
    -- musl's malloc aborts so on detected corruption
    ⟨"runtime_abort".toList, if sig = sigill then "sigill".toList else "sigtrap".toList, timing⟩
  else if sig = sigsegv then
    ⟨"crash".toList, if code = segvMaperr then "segv_maperr".toList
      else if code = segvAccerr then "segv_accerr".toList
      else "segv_code_".toList ++ decimalInt code, timing⟩
  else
    ⟨"crash".toList, "sig".toList ++ decimalInt sig ++ "_code_".toList ++ decimalInt code, timing⟩

/-- How a run ended; `err` is what the child has written to its standard error. -/
def classify (sigprot : Option Int) (g : SharedState) (status : Status) (err : Text) : Outcome :=
  match status with
  | .exited st =>
    if st = exitTrapped then classifyTrapped sigprot g
    else if exitObsBase ≤ st ∧ st < exitObsBase + 8 then
      ⟨"silent".toList, obsName (st - exitObsBase), "-".toList⟩
    else
      ⟨"exit".toList, "status_".toList ++ decimalInt st, "-".toList⟩
  | .signaled sig =>
    let timing := timingOf g.stage
    if sig = sigalrm then ⟨"hang".toList, [], timing⟩
    else if sig = sigabrt ∧ (strstr err "stack smashing".toList).isSome then
      ⟨"runtime_abort".toList, "stack_protector".toList, timing⟩
    else if sig = sigabrt ∧ (strstr err "buffer overflow detected".toList).isSome then
      ⟨"runtime_abort".toList, "fortify_source".toList, timing⟩
    else if sig = sigabrt then
      match findLibcMessage err 96 with
      | some message => ⟨"runtime_abort".toList, message, timing⟩
      | none => ⟨"runtime_abort".toList, "abort".toList, timing⟩
    else
      ⟨"crash".toList, "sig".toList ++ decimalInt sig, timing⟩
  | .other => ⟨"unknown".toList, [], "-".toList⟩

/-! ### Outcomes as fields of a row -/

/-- An outcome that the rows of the output can hold. -/
structure Outcome.Plain (o : Outcome) : Prop where
  outcome : Csv.Plain o.outcome
  detail : Csv.Plain o.detail
  timing : Csv.Plain o.timing

instance (o : Outcome) : Decidable o.Plain :=
  decidable_of_iff (Csv.Plain o.outcome ∧ Csv.Plain o.detail ∧ Csv.Plain o.timing)
    ⟨fun h => ⟨h.1, h.2.1, h.2.2⟩, fun h => ⟨h.outcome, h.detail, h.timing⟩⟩

lemma Outcome.Plain.mk' {a b c : Text} (ha : Csv.Plain a) (hb : Csv.Plain b) (hc : Csv.Plain c) :
    Outcome.Plain ⟨a, b, c⟩ := ⟨ha, hb, hc⟩

lemma plain_append {s t : Text} (hs : Csv.Plain s) (hne : s ≠ [])
    (ht : ∀ c ∈ t, c ≠ ',' ∧ c ≠ '\n' ∧ c ≠ '\r') : Csv.Plain (s ++ t) := by
  refine ⟨fun c hc => ?_, ?_⟩
  · rcases List.mem_append.mp hc with hc | hc
    · exact hs.1 c hc
    · exact ht c hc
  · rw [List.head?_append_of_ne_nil _ hne]
    exact hs.2

lemma decimalInt_chars (i : Int) : ∀ c ∈ decimalInt i, c ≠ ',' ∧ c ≠ '\n' ∧ c ≠ '\r' := by
  cases i with
  | ofNat n => exact (decimal_plain n).2.1
  | negSucc n =>
    intro c hc
    rcases List.mem_cons.mp hc with rfl | hc
    · decide
    · exact (decimal_plain (n + 1)).2.1 c hc

lemma plain_timingOf (stage : Int) : Csv.Plain (timingOf stage) := by
  unfold timingOf
  split_ifs <;> decide

lemma strstr_eq_some {buf pat p : Text} (h : strstr buf pat = some p) : p <:+ buf ∧ pat <+: p := by
  refine ⟨(List.mem_tails _ _).mp (List.mem_of_find?_eq_some h), ?_⟩
  simpa using List.find?_some h

/-- A message of the C library has no commas; it can only hold a carriage return of the text. -/
lemma plain_findLibcMessage {err message : Text} (herr : '\r' ∉ err)
    (h : findLibcMessage err 96 = some message) : Csv.Plain message := by
  rw [findLibcMessage, Option.map_eq_some_iff] at h
  obtain ⟨p, hp, rfl⟩ := h
  obtain ⟨pat, hpat, hstr⟩ := List.exists_of_findSome?_eq_some hp
  obtain ⟨hsuffix, hprefix⟩ := strstr_eq_some hstr
  refine ⟨?_, ?_⟩
  · intro c hc
    obtain ⟨d, hd, rfl⟩ := List.mem_map.mp hc
    have hline := List.mem_takeWhile_imp (List.mem_of_mem_take hd)
    have hmem : d ∈ err := hsuffix.subset ((List.takeWhile_sublist _).subset (List.mem_of_mem_take hd))
    have hcr : d ≠ '\r' := fun hd' => herr (hd' ▸ hmem)
    have hnl : d ≠ '\n' := by simpa using hline
    split
    · decide
    · exact ⟨by assumption, hnl, hcr⟩
  · -- the message starts as its pattern does
    obtain ⟨rest, rfl⟩ := hprefix
    simp only [libcPatterns, List.mem_cons, List.not_mem_nil, or_false] at hpat
    rcases hpat with rfl | rfl | rfl | rfl | rfl | rfl | rfl | rfl <;> simp

lemma classifyTrapped_plain (sigprot : Option Int) (g : SharedState) :
    (classifyTrapped sigprot g).Plain := by
  have htime := plain_timingOf g.stage
  have hcode := decimalInt_chars g.code
  unfold classifyTrapped
  dsimp only
  split_ifs
  · exact .mk' (by decide) (by decide) htime
  · exact .mk' (by decide) (by decide) htime
  · refine .mk' (by decide) ?_ htime
    unfold cheriFaultName
    split_ifs <;> decide
  · exact .mk' (by decide) (plain_append (by decide) (by decide) hcode) htime
  · exact .mk' (by decide) (by decide) htime
  · exact .mk' (by decide) (by decide) htime
  · exact .mk' (by decide) (by decide) htime
  · exact .mk' (by decide) (by decide) htime
  · exact .mk' (by decide) (plain_append (by decide) (by decide) hcode) htime
  · have hsig := plain_append (s := "sig".toList) (by decide) (by decide) (decimalInt_chars g.signo)
    exact .mk' (by decide) (plain_append (plain_append hsig (by simp) (by decide)) (by simp) hcode) htime

theorem classify_plain (sigprot : Option Int) (g : SharedState) (status : Status) {err : Text}
    (herr : '\r' ∉ err) : (classify sigprot g status err).Plain := by
  have htime := plain_timingOf g.stage
  cases status with
  | exited st =>
    unfold classify
    dsimp only
    split_ifs
    · exact classifyTrapped_plain sigprot g
    · refine .mk' (by decide) ?_ (by decide)
      unfold obsName
      split_ifs <;> decide
    · exact .mk' (by decide) (plain_append (by decide) (by decide) (decimalInt_chars st)) (by decide)
  | signaled sig =>
    unfold classify
    dsimp only
    split_ifs
    · exact .mk' (by decide) (by decide) htime
    · exact .mk' (by decide) (by decide) htime
    · exact .mk' (by decide) (by decide) htime
    · cases hm : findLibcMessage err 96 with
      | some message => exact .mk' (by decide) (plain_findLibcMessage herr hm) htime
      | none => exact .mk' (by decide) (by decide) htime
    · exact .mk' (by decide) (plain_append (by decide) (by decide) (decimalInt_chars sig)) htime
  | other => exact .mk' (by decide) (by decide) (by decide)

/-! ## Counting -/

def maxDistinct : Nat := 16

structure Tally where
  o : Outcome
  count : Nat
  deriving DecidableEq

def increment (t : Tally) : Tally := { t with count := t.count + 1 }

/-- Counts one run. Once the buckets are used up, the last one takes what is new. -/
def tallyRun (t : List Tally) (o : Outcome) : List Tally :=
  match t.findIdx? (fun e => e.o = o) with
  | some k => t.modify k increment
  | none =>
    if t.length = maxDistinct then
      t.modify (t.length - 1) increment
    else
      t ++ [⟨o, 1⟩]

def tally (outcomes : List Outcome) : List Tally := outcomes.foldl tallyRun []

/-- A bug of the suite. -/
structure Bug where
  id : Text
  cls : Text
  deriving DecidableEq

def csvHeader : List Text :=
  ["config".toList, "bug".toList, "class".toList, "outcome".toList, "detail".toList,
    "timing".toList, "count".toList, "runs".toList]

/-- The rows that `run_bug` prints for a bug whose runs have ended with the outcomes. -/
def runBug (config : Text) (b : Bug) (outcomes : List Outcome) : List (List Text) :=
  (tally outcomes).map fun t =>
    [config, b.id, b.cls, t.o.outcome, t.o.detail, t.o.timing, decimal t.count,
      decimal outcomes.length]

/-- The file that the runner writes. -/
def runSuite (config : Text) (suite : List (Bug × List Outcome)) : Text :=
  Csv.render (csvHeader :: (suite.map fun b => runBug config b.1 b.2).flatten)

/-! ### What the buckets hold -/

/-- Counting a run either adds one to a bucket or opens a new one. A bucket that is not the
outcome's own is the last of sixteen. -/
lemma tallyRun_cases (t : List Tally) (o : Outcome) (ho : t.length ≤ maxDistinct) :
    (∃ pre e post, t = pre ++ e :: post ∧ tallyRun t o = pre ++ increment e :: post ∧
      (e.o = o ∨ t.length = maxDistinct ∧ o ∉ t.map Tally.o)) ∨
    t.length < maxDistinct ∧ o ∉ t.map Tally.o ∧ tallyRun t o = t ++ [⟨o, 1⟩] := by
  have hmodify : ∀ k (hk : k < t.length), ∃ pre post, t = pre ++ t[k] :: post ∧
      t.modify k increment = pre ++ increment t[k] :: post := by
    intro k hk
    refine ⟨t.take k, t.drop (k + 1), ?_, ?_⟩
    · rw [List.getElem_cons_drop, List.take_append_drop]
    · rw [List.modify_eq_take_cons_drop hk]
  unfold tallyRun
  cases hfind : t.findIdx? (fun e => e.o = o) with
  | some k =>
    obtain ⟨hk, hko, -⟩ := List.findIdx?_eq_some_iff_getElem.mp hfind
    obtain ⟨pre, post, h1, h2⟩ := hmodify k hk
    exact Or.inl ⟨pre, _, post, h1, h2, Or.inl (by simpa using hko)⟩
  | none =>
    have hnew : o ∉ t.map Tally.o := by
      intro hmem
      obtain ⟨e, he, heo⟩ := List.mem_map.mp hmem
      simpa [heo] using List.findIdx?_eq_none_iff.mp hfind e he
    by_cases hlen : t.length = maxDistinct
    · obtain ⟨pre, post, h1, h2⟩ := hmodify (t.length - 1) (by rw [hlen]; decide)
      exact Or.inl ⟨pre, _, post, h1, by simp only [hlen, ite_true] at h2 ⊢; exact h2,
        Or.inr ⟨hlen, hnew⟩⟩
    · exact Or.inr ⟨by omega, hnew, by simp only [hlen, ite_false]⟩

/-- The number of counted runs whose bucket satisfies `p`. -/
def counted (p : Outcome → Bool) (t : List Tally) : Nat :=
  ((t.filter fun e => p e.o).map Tally.count).sum

@[simp] lemma counted_nil (p : Outcome → Bool) : counted p [] = 0 := rfl

@[simp] lemma counted_cons (p : Outcome → Bool) (e : Tally) (t : List Tally) :
    counted p (e :: t) = (if p e.o then e.count else 0) + counted p t := by
  unfold counted
  by_cases h : p e.o <;> simp [h]

@[simp] lemma counted_append (p : Outcome → Bool) (s t : List Tally) :
    counted p (s ++ t) = counted p s + counted p t := by
  simp [counted]

lemma tally_append (os : List Outcome) (o : Outcome) :
    tally (os ++ [o]) = tallyRun (tally os) o := by
  simp [tally]

lemma length_tally (os : List Outcome) : (tally os).length ≤ maxDistinct := by
  induction os using List.reverseRecOn with
  | nil => exact Nat.zero_le _
  | append_singleton os o ih =>
    rw [tally_append]
    rcases tallyRun_cases _ o ih with ⟨pre, e, post, h1, h2, -⟩ | ⟨hlt, -, h2⟩
    · rw [h2]
      rw [h1] at ih
      simpa using ih
    · rw [h2, List.length_append]
      exact hlt

/-- Every run is counted in some bucket. -/
theorem counted_tally_all (os : List Outcome) : counted (fun _ => true) (tally os) = os.length := by
  induction os using List.reverseRecOn with
  | nil => rfl
  | append_singleton os o ih =>
    rw [tally_append, List.length_append, ← ih]
    rcases tallyRun_cases _ o (length_tally os) with ⟨pre, e, post, h1, h2, -⟩ | ⟨-, -, h2⟩
    · rw [h2, h1]
      simp only [counted_append, counted_cons, increment, ite_true, List.length_singleton]
      omega
    · rw [h2]
      simp

/-- The outcome of a bucket is that of a run. -/
lemma tally_sound (os : List Outcome) : ∀ e ∈ tally os, e.o ∈ os ∧ 0 < e.count := by
  induction os using List.reverseRecOn with
  | nil => simp [tally]
  | append_singleton os o ih =>
    rw [tally_append]
    intro f hf
    rcases tallyRun_cases _ o (length_tally os) with ⟨pre, e, post, h1, h2, -⟩ | ⟨-, -, h2⟩
    · rw [h1] at ih
      rw [h2, List.mem_append, List.mem_cons] at hf
      rcases hf with hf | rfl | hf
      · have h := ih f (by simp [hf])
        exact ⟨by simp [h.1], h.2⟩
      · have h := ih e (by simp)
        exact ⟨by simp [increment, h.1], by simp [increment]⟩
      · have h := ih f (by simp [hf])
        exact ⟨by simp [h.1], h.2⟩
    · rw [h2, List.mem_append, List.mem_singleton] at hf
      rcases hf with hf | rfl
      · have h := ih f hf
        exact ⟨by simp [h.1], h.2⟩
      · simp

/-- As long as sixteen buckets are enough, every outcome has its own. -/
lemma tally_exact {os : List Outcome} (h : os.toFinset.card ≤ maxDistinct) :
    ((tally os).map Tally.o).Nodup ∧ ∀ p, counted p (tally os) = os.countP p := by
  induction os using List.reverseRecOn with
  | nil => simp [tally]
  | append_singleton os o ih =>
    have hmono : os.toFinset.card ≤ (os ++ [o]).toFinset.card :=
      Finset.card_le_card (by intro x; simp; exact Or.inr)
    obtain ⟨hnodup, hcount⟩ := ih (hmono.trans h)
    have hsub : ∀ x ∈ (tally os).map Tally.o, x ∈ os := by
      intro x hx
      obtain ⟨e, he, rfl⟩ := List.mem_map.mp hx
      exact (tally_sound os e he).1
    rw [tally_append]
    rcases tallyRun_cases _ o (length_tally os) with ⟨pre, e, post, h1, h2, hown⟩ | ⟨-, hnew, h2⟩
    · have heo : e.o = o := by
        rcases hown with heo | ⟨hlen, hnew⟩
        · exact heo
        · -- a seventeenth outcome
          exfalso
          have hsub' : (o :: (tally os).map Tally.o).toFinset ⊆ (os ++ [o]).toFinset := by
            intro x hx
            simp only [List.mem_toFinset, List.mem_cons] at hx
            rcases hx with rfl | hx
            · simp
            · simp [hsub x hx]
          have hcard := Finset.card_le_card hsub'
          rw [List.toFinset_card_of_nodup (List.nodup_cons.mpr ⟨hnew, hnodup⟩), List.length_cons,
            List.length_map, hlen] at hcard
          omega
      rw [h2]
      rw [h1] at hnodup
      refine ⟨by simpa [increment] using hnodup, fun p => ?_⟩
      have hp := hcount p
      rw [h1] at hp
      simp only [counted_append, counted_cons, increment, heo, List.countP_append,
        List.countP_singleton] at hp ⊢
      by_cases hpo : p o = true
      · simp only [hpo, ite_true] at hp ⊢
        omega
      · simp only [hpo, Bool.false_eq_true, ite_false] at hp ⊢
        omega
    · rw [h2]
      refine ⟨?_, fun p => ?_⟩
      · rw [List.map_append]
        refine List.nodup_append.mpr ⟨hnodup, List.nodup_singleton _, ?_⟩
        intro a ha b hb hab
        rw [hab, List.mem_singleton.mp hb] at ha
        exact hnew ha
      · simp [hcount p, List.countP_append, List.countP_singleton]

end MemSafeDB.BugClasses
