import Mathlib.Data.List.Nodup
import Mathlib.Tactic.Common

/-!
# Scraping the closed issues of a repository

The server lists the closed issues and pull requests by the time of their last update and serves
them in pages. The scraper reads 89 pages and then starts over at the first page of what was
updated later than the last issue it has seen.
-/

namespace MemSafeDB.BugStudy

/-- An entry of the list that the server keeps; its times are in seconds. -/
structure Item where
  number : Nat
  isPullRequest : Bool
  createdAt : Int
  updatedAt : Int
  deriving DecidableEq

/-- The closed issues and pull requests, sorted by `updated`, ascending. -/
structure Repository where
  items : List Item
  sorted : items.Pairwise fun i j => i.updatedAt ≤ j.updatedAt
  nodup : (items.map Item.number).Nodup

/-- `start_date` and `end_date` in microseconds. -/
structure DateRange where
  startDate : Option Int
  endDate : Option Int

def microseconds : Int := 1000000

/-- `in_date_range` for a time in seconds. -/
def DateRange.inDateRange (range : DateRange) (dt : Int) : Bool :=
  range.startDate.all (fun start => start ≤ dt * microseconds) &&
    range.endDate.all (fun stop => dt * microseconds ≤ stop)

/-- The first `since`; formatting a time drops the microseconds. -/
def DateRange.since (range : DateRange) : Option Int :=
  range.startDate.map fun start => start / microseconds

/-- The issues that are to be saved. -/
def DateRange.wanted (range : DateRange) (i : Item) : Bool :=
  !i.isPullRequest && range.inDateRange i.createdAt

def perPage : Nat := 100

structure Response where
  issues : List Item
  /-- whether the links have a `next` -/
  hasNext : Bool

/-- What was updated at or after `since`. -/
def Repository.matching (repo : Repository) (since : Option Int) : List Item :=
  repo.items.filter fun i => since.all fun t => t ≤ i.updatedAt

/-- `session.get` -/
def Repository.get (repo : Repository) (since : Option Int) (page : Nat) : Response where
  issues := ((repo.matching since).drop (perPage * (page - 1))).take perPage
  hasNext := perPage * page < (repo.matching since).length

/-- The variables of the loop and the issues saved so far. -/
structure Scrape where
  page : Nat
  currentSince : Option Int
  batchLastUpdated : Option Int
  saved : List Item

namespace Scrape

def visit (range : DateRange) (s : Scrape) (issue : Item) : Scrape :=
  if issue.isPullRequest then s
  else
    let s := { s with batchLastUpdated := some issue.updatedAt }
    if range.inDateRange issue.createdAt then { s with saved := s.saved ++ [issue] } else s

/-- Back to the first page, one second after the last issue. -/
def startOver (s : Scrape) : Scrape :=
  { s with
    page := 1
    currentSince := match s.batchLastUpdated with
      | some t => some (t + 1)
      | none => s.currentSince }

def onPage (s : Scrape) (page : Nat) : Scrape := { s with page := page }

def turnPage (s : Scrape) : Scrape :=
  let s := s.onPage (s.page + 1)
  if 90 ≤ s.page then s.startOver else s

end Scrape

/-- The loop of `scrape`, for at most `fuel` requests. -/
def scrapeLoop (repo : Repository) (range : DateRange) : Nat → Scrape → Option (List Item)
  | 0, _ => none
  | fuel + 1, s =>
    let response := repo.get s.currentSince s.page
    if response.issues = [] then some s.saved
    else
      let s := response.issues.foldl (Scrape.visit range) s
      if response.hasNext then scrapeLoop repo range fuel s.turnPage else some s.saved

def scrape (repo : Repository) (range : DateRange) (fuel : Nat) : Option (List Item) :=
  scrapeLoop repo range fuel
    { page := 1, currentSince := range.since, batchLastUpdated := none, saved := [] }

/-! ## One window -/

/-- The number of items that are read before the scraper starts over. -/
def windowSize : Nat := perPage * 89

/-- The last issue among some items. -/
def lastIssue (l : List Item) : Option Item := (l.filter fun i => !i.isPullRequest).getLast?

lemma lastIssue_append (l l' : List Item) :
    lastIssue (l ++ l') = (lastIssue l').or (lastIssue l) := by
  rw [lastIssue, List.filter_append, List.getLast?_append]
  rfl

variable {repo : Repository} {range : DateRange}

/-- The state after some items have been visited. -/
def Scrape.after (range : DateRange) (s : Scrape) (l : List Item) : Scrape :=
  { s with
    batchLastUpdated := ((lastIssue l).map Item.updatedAt).or s.batchLastUpdated
    saved := s.saved ++ l.filter range.wanted }

lemma foldl_visit (l : List Item) (s : Scrape) :
    l.foldl (Scrape.visit range) s = s.after range l := by
  induction l generalizing s with
  | nil => simp [Scrape.after, lastIssue]
  | cons i l ih =>
    rw [List.foldl_cons, ih, Scrape.visit]
    cases hpr : i.isPullRequest with
    | true => simp [Scrape.after, lastIssue, DateRange.wanted, hpr]
    | false =>
      have hlast : ((lastIssue l).map Item.updatedAt).or (some i.updatedAt) =
          (lastIssue (i :: l)).map Item.updatedAt := by
        rw [← List.singleton_append, lastIssue_append]
        cases lastIssue l <;> simp [lastIssue, hpr]
      cases hrange : range.inDateRange i.createdAt <;>
        simp [Scrape.after, DateRange.wanted, hpr, hrange, ← hlast]

lemma Scrape.after_append (s : Scrape) (l l' : List Item) :
    (s.after range l).after range l' = s.after range (l ++ l') := by
  rw [← foldl_visit, ← foldl_visit, ← foldl_visit, List.foldl_append]

lemma scrapeLoop_last {s : Scrape} {k : Nat} (hk : s.page = k + 1)
    (hlen : (repo.matching s.currentSince).length ≤ perPage * (k + 1)) (fuel : Nat) :
    scrapeLoop repo range fuel s =
      if fuel ≤ 0 then none
      else some (s.saved ++
        ((repo.matching s.currentSince).drop (perPage * k)).filter range.wanted) := by
  cases fuel with
  | zero => rfl
  | succ fuel =>
    have htake : ((repo.matching s.currentSince).drop (perPage * k)).take perPage =
        (repo.matching s.currentSince).drop (perPage * k) := by
      refine List.take_of_length_le ?_
      rw [List.length_drop]
      exact Nat.sub_le_of_le_add (by rwa [Nat.mul_succ, Nat.add_comm] at hlen)
    have hnext : ¬perPage * (k + 1) < (repo.matching s.currentSince).length := Nat.not_lt.mpr hlen
    rw [if_neg (Nat.not_succ_le_zero fuel)]
    simp only [scrapeLoop, Repository.get, hk, Nat.add_sub_cancel, htake, foldl_visit]
    split_ifs with hnil h
    · simp [hnil]
    · exact absurd (of_decide_eq_true h) hnext
    · rfl

lemma scrapeLoop_next {s : Scrape} {k : Nat} (hk : s.page = k + 1)
    (hlen : perPage * (k + 1) < (repo.matching s.currentSince).length) (fuel : Nat) :
    scrapeLoop repo range (fuel + 1) s =
      scrapeLoop repo range fuel
        (s.after range (((repo.matching s.currentSince).drop (perPage * k)).take perPage)).turnPage := by
  have hne : ((repo.matching s.currentSince).drop (perPage * k)).take perPage ≠ [] := by
    refine List.ne_nil_of_length_pos ?_
    rw [List.length_take, List.length_drop]
    rw [perPage] at hlen ⊢
    omega
  simp only [scrapeLoop, Repository.get, hk, Nat.add_sub_cancel, foldl_visit]
  rw [if_neg hne, if_pos (decide_eq_true hlen)]

lemma Scrape.startOver_onPage_after (s : Scrape) (p : Nat) (l : List Item) :
    ((s.onPage p).after range l).startOver = (s.after range l).startOver := rfl

lemma Scrape.turnPage_after {s : Scrape} {k : Nat} (hk : s.page = k + 1) (hlt : k + 2 < 90)
    (l : List Item) : (s.after range l).turnPage = (s.after range l).onPage (k + 2) := by
  have hpage : ¬90 ≤ s.page + 1 := by omega
  rw [← show s.page + 1 = k + 2 by omega]
  exact if_neg hpage

/-- A window with further items takes all of its pages and starts over. -/
lemma scrapeLoop_window {n k : Nat} (hn : k + (n + 1) = 89) {s : Scrape} (hk : s.page = k + 1)
    (hlen : windowSize < (repo.matching s.currentSince).length) (fuel : Nat) :
    scrapeLoop repo range fuel s =
      if fuel ≤ n then none
      else scrapeLoop repo range (fuel - (n + 1)) (s.after range
        (((repo.matching s.currentSince).drop (perPage * k)).take (perPage * (n + 1)))).startOver := by
  have hmore : perPage * (k + 1) < (repo.matching s.currentSince).length := by
    rw [windowSize, perPage] at hlen
    rw [perPage]
    omega
  induction n generalizing k s fuel with
  | zero =>
    cases fuel with
    | zero => rfl
    | succ fuel =>
      have hturn : 90 ≤ s.page + 1 := by omega
      rw [scrapeLoop_next hk hmore, Scrape.turnPage]
      exact (congrArg _ (if_pos hturn)).trans (by simp; rfl)
  | succ n ih =>
    cases fuel with
    | zero => rfl
    | succ fuel =>
      set l := ((repo.matching s.currentSince).drop (perPage * k)).take perPage with hl
      have hsplit : l ++ ((repo.matching s.currentSince).drop (perPage * (k + 1))).take
          (perPage * (n + 1)) =
          ((repo.matching s.currentSince).drop (perPage * k)).take (perPage * (n + 1 + 1)) := by
        rw [Nat.mul_succ perPage (n + 1), Nat.add_comm _ perPage, List.take_add, List.drop_drop,
          ← Nat.mul_succ perPage k]
      have hmore' : perPage * (k + 1 + 1) < (repo.matching s.currentSince).length := by
        rw [windowSize, perPage] at hlen
        rw [perPage]
        omega
      rw [scrapeLoop_next hk hmore, Scrape.turnPage_after hk (by omega), ih (k := k + 1) (by omega)
        (s := (s.after range l).onPage (k + 2)) rfl hlen _ hmore',
        Scrape.startOver_onPage_after, Scrape.after_append]
      change (if fuel ≤ n then none else scrapeLoop repo range (fuel - (n + 1)) (s.after range
        (l ++ ((repo.matching s.currentSince).drop (perPage * (k + 1))).take
          (perPage * (n + 1)))).startOver) = _
      rw [hsplit, Nat.add_sub_add_right]
      simp only [Nat.add_le_add_iff_right]

/-- A window without further items is read to its end. -/
lemma scrapeLoop_lastPages {n k : Nat} (hn : k + n ≤ 88) {s : Scrape} (hk : s.page = k + 1)
    (hlen : (repo.matching s.currentSince).length ≤ perPage * (k + n + 1)) :
    ∃ m, ∀ fuel, scrapeLoop repo range fuel s =
      if fuel ≤ m then none
      else some (s.saved ++
        ((repo.matching s.currentSince).drop (perPage * k)).filter range.wanted) := by
  induction n generalizing k s with
  | zero => exact ⟨0, scrapeLoop_last hk hlen⟩
  | succ n ih =>
    rcases Nat.lt_or_ge (perPage * (k + 1)) (repo.matching s.currentSince).length with h | h
    · set l := ((repo.matching s.currentSince).drop (perPage * k)).take perPage with hl
      have hsplit : l ++ (repo.matching s.currentSince).drop (perPage * (k + 1)) =
          (repo.matching s.currentSince).drop (perPage * k) := by
        rw [Nat.mul_succ, ← List.drop_drop, List.take_append_drop]
      obtain ⟨m, hm⟩ := ih (k := k + 1) (by omega) (s := (s.after range l).onPage (k + 2)) rfl
        (by rwa [Nat.add_right_comm k 1 n])
      refine ⟨m + 1, fun fuel => ?_⟩
      cases fuel with
      | zero => rfl
      | succ fuel =>
        rw [scrapeLoop_next hk h, Scrape.turnPage_after hk (by omega), hm, ← hsplit,
          List.filter_append, ← List.append_assoc]
        simp only [Nat.add_le_add_iff_right]
        rfl
    · exact ⟨0, scrapeLoop_last hk h⟩

/-- The first window of a state. -/
lemma scrapeLoop_firstWindow {s : Scrape} (hpage : s.page = 1)
    (hlen : windowSize < (repo.matching s.currentSince).length) (fuel : Nat) :
    scrapeLoop repo range fuel s =
      if fuel ≤ 88 then none
      else scrapeLoop repo range (fuel - 89)
        (s.after range ((repo.matching s.currentSince).take windowSize)).startOver :=
  scrapeLoop_window (n := 88) (k := 0) rfl hpage hlen fuel

lemma scrapeLoop_onlyWindow {s : Scrape} (hpage : s.page = 1)
    (hlen : (repo.matching s.currentSince).length ≤ windowSize) :
    ∃ m, ∀ fuel, scrapeLoop repo range fuel s =
      if fuel ≤ m then none
      else some (s.saved ++ (repo.matching s.currentSince).filter range.wanted) :=
  scrapeLoop_lastPages (n := 88) (k := 0) (by decide) hpage hlen

/-! ## All windows -/

/-- Every window that leaves items over ends behind an issue, and what it leaves over and is
wanted was updated later than its last issue. -/
inductive Covered (range : DateRange) : List Item → Prop where
  | whole {l : List Item} (hlen : l.length ≤ windowSize) : Covered range l
  | window {l : List Item} {i : Item} (hlen : windowSize < l.length)
      (hlast : lastIssue (l.take windowSize) = some i)
      (hrest : ∀ j ∈ l.drop windowSize, range.wanted j = true → i.updatedAt < j.updatedAt)
      (hnext : Covered range (l.filter fun j => i.updatedAt < j.updatedAt)) : Covered range l

lemma Covered.exists_lastIssue {l : List Item} (h : Covered range l) (hlen : windowSize < l.length) :
    ∃ i, lastIssue (l.take windowSize) = some i := by
  cases h with
  | whole hle => exact absurd hlen (Nat.not_lt.mpr hle)
  | window _ hlast => exact ⟨_, hlast⟩

lemma lastIssue_mem {l : List Item} {i : Item} (h : lastIssue l = some i) : i ∈ l :=
  (List.mem_filter.mp (List.mem_of_getLast? h)).1

/-- Starting over leaves what was updated after the last issue. -/
lemma matching_startOver {since : Option Int} {i : Item} (hi : i ∈ repo.matching since) :
    repo.matching (some (i.updatedAt + 1)) =
      (repo.matching since).filter fun j => i.updatedAt < j.updatedAt := by
  rw [Repository.matching, Repository.matching, List.filter_filter]
  refine List.filter_congr fun j _ => ?_
  have hsince := (List.mem_filter.mp hi).2
  rw [Option.all_some, Bool.eq_iff_iff, Bool.and_eq_true, decide_eq_true_eq, decide_eq_true_eq]
  cases since with
  | none => simp only [Option.all_none, and_true]; omega
  | some t =>
    rw [Option.all_some, decide_eq_true_eq] at hsince ⊢
    omega

/-- The last issue was updated latest. -/
lemma le_lastIssue {l : List Item} (hsorted : l.Pairwise fun i j => i.updatedAt ≤ j.updatedAt)
    {i j : Item} (hlast : lastIssue l = some i) (hj : j ∈ l) (hpr : j.isPullRequest = false) :
    j.updatedAt ≤ i.updatedAt := by
  have hf := hsorted.filter fun i => !i.isPullRequest
  have hmem : j ∈ l.filter fun i => !i.isPullRequest := List.mem_filter.mpr ⟨hj, by simp [hpr]⟩
  obtain ⟨l', hl'⟩ := List.getLast?_eq_some_iff.mp hlast
  rw [hl'] at hf hmem
  rcases List.mem_append.mp hmem with h | h
  · exact (List.pairwise_append.mp hf).2.2 j h i (List.mem_singleton.mpr rfl)
  · exact Int.le_of_eq (congrArg Item.updatedAt (List.mem_singleton.mp h))

lemma wanted_not_pullRequest {i : Item} (h : range.wanted i = true) : i.isPullRequest = false := by
  rw [DateRange.wanted, Bool.and_eq_true, Bool.not_eq_true'] at h
  exact h.1

lemma lastIssue_eq_none {l : List Item} (h : lastIssue l = none) : l.filter range.wanted = [] := by
  refine List.filter_eq_nil_iff.mpr fun i hi hw => ?_
  have hnil : l.filter (fun i => !i.isPullRequest) = [] := List.getLast?_eq_none_iff.mp h
  exact List.filter_eq_nil_iff.mp hnil i hi (by simp [wanted_not_pullRequest hw])

/-- A state at the beginning of a window. -/
structure Scrape.AtStart (s : Scrape) : Prop where
  page : s.page = 1
  since : ∀ t ∈ s.batchLastUpdated, s.currentSince = some (t + 1)

/-- A window without an issue leads back to its own beginning. -/
lemma Scrape.AtStart.stuck {s : Scrape} (hs : s.AtStart) {l : List Item} (h : lastIssue l = none) :
    (s.after range l).startOver = s := by
  obtain ⟨page, since, last, saved⟩ := s
  obtain rfl : page = 1 := hs.page
  cases last with
  | none => simp [after, startOver, h, lastIssue_eq_none h]
  | some t =>
    have hsince : since = some (t + 1) := hs.since t rfl
    simp [after, startOver, h, lastIssue_eq_none h, hsince]

lemma Scrape.startOver_after {s : Scrape} {l : List Item} {i : Item} (h : lastIssue l = some i) :
    (s.after range l).startOver =
      { page := 1
        currentSince := some (i.updatedAt + 1)
        batchLastUpdated := some i.updatedAt
        saved := s.saved ++ l.filter range.wanted } := by
  simp [after, startOver, h]

lemma Repository.sorted_matching (repo : Repository) (since : Option Int) :
    (repo.matching since).Pairwise fun i j => i.updatedAt ≤ j.updatedAt :=
  repo.sorted.filter _

lemma Repository.matching_none (repo : Repository) : repo.matching none = repo.items :=
  List.filter_eq_self.mpr fun _ _ => rfl

lemma Repository.disjoint_take_drop (repo : Repository) (since : Option Int) {n : Nat} :
    ((repo.matching since).take n).Disjoint ((repo.matching since).drop n) :=
  List.disjoint_take_drop (repo.nodup.of_map.filter _) (Nat.le_refl n)

/-- Covered windows are scraped to the end. -/
theorem Covered.scrapes {l : List Item} (h : Covered range l) {s : Scrape} (hpage : s.page = 1)
    (hl : repo.matching s.currentSince = l) :
    ∃ fuel l', scrapeLoop repo range fuel s = some (s.saved ++ l') ∧
      ∀ i, i ∈ l' ↔ i ∈ l ∧ range.wanted i = true := by
  induction h generalizing s with
  | whole hlen =>
    subst hl
    obtain ⟨m, hm⟩ := @scrapeLoop_onlyWindow _ range _ hpage hlen
    refine ⟨m + 1, _, (hm (m + 1)).trans (if_neg (Nat.not_succ_le_self m)), fun i => ?_⟩
    exact List.mem_filter
  | @window l i hlen hlast hrest hnext ih =>
    subst hl
    have hi : i ∈ repo.matching s.currentSince := List.mem_of_mem_take (lastIssue_mem hlast)
    obtain ⟨fuel, l', hrun, hmem⟩ := ih
      (s := (s.after range ((repo.matching s.currentSince).take windowSize)).startOver)
      (by rw [Scrape.startOver_after hlast])
      (by rw [Scrape.startOver_after hlast]; exact matching_startOver hi)
    refine ⟨fuel + 89, ((repo.matching s.currentSince).take windowSize).filter range.wanted ++ l',
      ?_, fun j => ?_⟩
    · rw [scrapeLoop_firstWindow hpage hlen, if_neg (by omega), Nat.add_sub_cancel, hrun,
        Scrape.startOver_after hlast, List.append_assoc]
    · rw [List.mem_append, List.mem_filter, hmem, List.mem_filter, decide_eq_true_eq]
      constructor
      · rintro (⟨hj, hw⟩ | ⟨⟨hj, -⟩, hw⟩)
        · exact ⟨List.mem_of_mem_take hj, hw⟩
        · exact ⟨hj, hw⟩
      · rintro ⟨hj, hw⟩
        rw [← List.take_append_drop windowSize (repo.matching s.currentSince),
          List.mem_append] at hj
        rcases hj with hj | hj
        · exact Or.inl ⟨hj, hw⟩
        · exact Or.inr ⟨⟨List.mem_of_mem_drop hj, hrest j hj hw⟩, hw⟩

/-- What is scraped to the end is wanted, and it is all that is wanted only in covered windows. -/
theorem covered_of_scrapes {fuel : Nat} {s : Scrape} (hs : s.AtStart) {saved : List Item}
    (h : scrapeLoop repo range fuel s = some saved) :
    ∃ l', saved = s.saved ++ l' ∧
      (∀ i ∈ l', i ∈ repo.matching s.currentSince ∧ range.wanted i = true) ∧
      ((∀ i ∈ repo.matching s.currentSince, range.wanted i = true → i ∈ l') →
        Covered range (repo.matching s.currentSince)) := by
  induction fuel using Nat.strongRecOn generalizing s with
  | ind fuel ih =>
    rcases Nat.lt_or_ge windowSize (repo.matching s.currentSince).length with hlen | hlen
    · rw [scrapeLoop_firstWindow hs.page hlen] at h
      split_ifs at h with hfuel
      cases hlast : lastIssue ((repo.matching s.currentSince).take windowSize) with
      | none =>
        rw [hs.stuck hlast] at h
        exact ih (fuel - 89) (by omega) hs h
      | some i =>
        set l := repo.matching s.currentSince with hl
        rw [Scrape.startOver_after hlast] at h
        have hi : i ∈ l := List.mem_of_mem_take (lastIssue_mem hlast)
        obtain ⟨l', hsaved, hmem, hcov⟩ := ih (fuel - 89) (by omega) ⟨rfl, by simp⟩ h
        rw [matching_startOver hi, ← hl] at hmem hcov
        refine ⟨(l.take windowSize).filter range.wanted ++ l', ?_, ?_, ?_⟩
        · rw [hsaved, List.append_assoc]
        · intro j hj
          rcases List.mem_append.mp hj with hj | hj
          · exact ⟨List.mem_of_mem_take (List.mem_filter.mp hj).1, (List.mem_filter.mp hj).2⟩
          · exact ⟨(List.mem_filter.mp (hmem j hj).1).1, (hmem j hj).2⟩
        · intro hall
          have hdrop : ∀ j ∈ l.drop windowSize, j ∉ l.take windowSize := fun j hj hj' =>
            repo.disjoint_take_drop s.currentSince hj' hj
          have hle : ∀ j ∈ l.take windowSize, range.wanted j = true → j.updatedAt ≤ i.updatedAt :=
            fun j hj hw => le_lastIssue
              ((repo.sorted_matching s.currentSince).sublist (List.take_sublist _ _)) hlast hj
              (wanted_not_pullRequest hw)
          refine .window hlen hlast (fun j hj hw => ?_) (hcov fun j hj hw => ?_)
          · rcases List.mem_append.mp (hall j (List.mem_of_mem_drop hj) hw) with h' | h'
            · exact absurd (List.mem_filter.mp h').1 (hdrop j hj)
            · exact of_decide_eq_true (List.mem_filter.mp (hmem j h').1).2
          · obtain ⟨hj, hlt⟩ := List.mem_filter.mp hj
            rcases List.mem_append.mp (hall j hj hw) with h' | h'
            · have := hle j (List.mem_filter.mp h').1 hw
              have := of_decide_eq_true hlt
              omega
            · exact h'
    · obtain ⟨m, hm⟩ := @scrapeLoop_onlyWindow _ range _ hs.page hlen
      rw [hm] at h
      split_ifs at h
      refine ⟨_, (Option.some.inj h).symm, fun i hi => List.mem_filter.mp hi, fun _ => .whole hlen⟩

/-! ## The whole scrape -/

/-- The scrape ends and saves the issues that were created in the range of dates. -/
def Complete (repo : Repository) (range : DateRange) : Prop :=
  ∃ fuel saved, scrape repo range fuel = some saved ∧
    ∀ i, i ∈ saved ↔ i ∈ repo.items ∧ i.isPullRequest = false ∧ range.inDateRange i.createdAt = true

lemma wanted_iff {i : Item} :
    range.wanted i = true ↔ i.isPullRequest = false ∧ range.inDateRange i.createdAt = true := by
  rw [DateRange.wanted, Bool.and_eq_true, Bool.not_eq_true']

lemma covered_of_complete (h : Complete repo range) :
    (∀ i ∈ repo.items, range.wanted i = true → i ∈ repo.matching range.since) ∧
      Covered range (repo.matching range.since) := by
  obtain ⟨fuel, saved, hrun, hmem⟩ := h
  obtain ⟨l', rfl, hl', hcov⟩ := covered_of_scrapes ⟨rfl, by simp⟩ hrun
  refine ⟨fun i hi hw => (hl' i ((hmem i).mpr ⟨hi, wanted_iff.mp hw⟩)).1, hcov fun i hi hw => ?_⟩
  exact (hmem i).mpr ⟨(List.mem_filter.mp hi).1, wanted_iff.mp hw⟩

/-- The scrape is complete exactly when no wanted issue was last updated before the first day and
every window that leaves items over has an issue, behind whose last update all is wanted that it
leaves over. -/
theorem complete_iff (repo : Repository) (range : DateRange) :
    Complete repo range ↔
      (∀ i ∈ repo.items, range.wanted i = true → i ∈ repo.matching range.since) ∧
        Covered range (repo.matching range.since) := by
  constructor
  · exact covered_of_complete
  · rintro ⟨hsince, hcov⟩
    obtain ⟨fuel, l', hrun, hmem⟩ := @Covered.scrapes repo _ _ hcov
      { page := 1, currentSince := range.since, batchLastUpdated := none, saved := [] } rfl rfl
    refine ⟨fuel, l', hrun, fun i => ?_⟩
    rw [hmem, ← wanted_iff]
    constructor
    · rintro ⟨hi, hw⟩
      exact ⟨(List.mem_filter.mp hi).1, hw⟩
    · rintro ⟨hi, hw⟩
      exact ⟨hsince i hi hw, hw⟩

/-- A repository of pull requests. -/
def pullRequests (count : Nat) : Repository where
  items := (List.range count).map fun n => ⟨n, true, 0, 0⟩
  sorted := List.pairwise_map.mpr (List.pairwise_of_forall fun _ _ => Int.le_refl 0)
  nodup := by
    rw [List.map_map]
    exact (List.map_id _).symm ▸ List.nodup_range

lemma isPullRequest_pullRequests {count : Nat} {i : Item} (h : i ∈ (pullRequests count).items) :
    i.isPullRequest = true := by
  rw [pullRequests] at h
  obtain ⟨n, -, rfl⟩ := List.mem_map.mp h
  rfl

/-- The scraper reads the first 8900 of them for ever. -/
theorem not_complete_pullRequests : ¬Complete (pullRequests 8901) ⟨none, none⟩ := by
  intro h
  have hcov := (covered_of_complete h).2
  have hsince : DateRange.since ⟨none, none⟩ = none := rfl
  rw [hsince, Repository.matching_none] at hcov
  obtain ⟨i, hlast⟩ := hcov.exists_lastIssue (by
    rw [pullRequests, List.length_map, List.length_range]
    decide)
  obtain ⟨hi, hpr⟩ := List.mem_filter.mp (List.mem_of_getLast? hlast)
  rw [isPullRequest_pullRequests (List.mem_of_mem_take hi)] at hpr
  exact Bool.false_ne_true hpr

end MemSafeDB.BugStudy
