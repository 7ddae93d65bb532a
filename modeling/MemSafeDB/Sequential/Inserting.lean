import MemSafeDB.Sequential.Growing

/-!
# One thread alone: `ensureSpace` and `insert`

A thread that is alone needs one attempt of `ensureSpace`, which splits the page or calls
`ensureSpace` for its parent, and one attempt of `insert` more than the splits that the path of
the key needs.
-/

namespace MemSafeDB
open Lib PageState

variable {τ : Type} [DecidableEq τ]

omit [DecidableEq τ] in
lemma Kept.symm {s s' : Sys τ} (h : Kept s s') : Kept s' s :=
  ⟨h.tree.symm, h.allocCount.symm, h.splitOrdered.symm⟩

lemma MakesSpace.kept {env : Env} {t : τ} {c : Choice} {P : Sys τ → Op → Prop}
    {F : Fault → Prop} {key : Key} {m : Nat} {ens : PID → Key → Nat → Prog Unit} {q : PID}
    {s s1 : Sys τ} (h : MakesSpace env t c P F key m ens q s) (hk : Kept s s1) :
    MakesSpace env t c P F key m ens q s1 := by
  intro s2 sep hsolo hk2 hcov hlen hno
  have hpage : s1.page = s.page := congrArg Tree.page hk.tree
  rw [hk.tree] at hcov
  rw [hpage] at hno
  refine (h s2 sep hsolo (hk.trans hk2) hcov hlen hno).mono ?_
  intro _ s3 hadv
  exact hadv.kept hk.symm

namespace Solo

variable {env : Env} {t : τ} {c : Choice} {P : Sys τ → Op → Prop} {F : Fault → Prop}
  {X : List PID} {s : Sys τ} {p node q : PID} {key : Key} {j m l fuel : Nat} {α : Type}
  {ens : PID → Key → Nat → Prog Unit}

lemma runs_lockAndSplit (hA : Assumed env P F)
    (h : Solo env t [] s) (hs : Planted s) (hb : Budget env s.tree key m) {parent node : GuardO}
    (hp : Current s parent) (hn : Current s node)
    (hpath : OnPath s.tree key parent.pid node.pid j) (hfull : Full (s.page node.pid))
    (hens : parent.pid ≠ metadataPageId → MakesSpace env t c P F key m ens parent.pid s) :
    Runs t c P F (BTree.lockAndSplit env ens parent node) s
      (fun _ s' => Advanced env t key m s s') := by
  have hfuel : 0 < env.fuel := by
    obtain ⟨l, c, -, -, hle⟩ := hb
    omega
  have hpa : parent.pid < s.allocCount := by
    rcases hpath.parent with ⟨h1, -⟩ | ⟨h1, -, -⟩
    · rw [h1]
      exact h.alloc.1
    · exact hs.alloc _ _ h1
  have hne : node.pid ≠ parent.pid := by
    rcases hpath.parent with ⟨h1, -⟩ | ⟨h1, -, -⟩
    · rw [h1]
      exact (hs.inv.bound _ _ hpath.level).1.ne'
    · intro heq
      rw [← heq, hpath.level, Option.some.injEq] at h1
      omega
  refine (h.runs_upgrade hpa (by simp) hfuel hp).onThrow.bind ?_
  rintro _ s1 ⟨rfl, hsolo1, hkept1, hword1⟩
  have hna : node.pid < s1.allocCount := hkept1.allocCount ▸ hs.alloc _ _ hpath.level
  have hn1 : node.version = s1.word node.pid := hn.trans (hword1 _ hne).symm
  refine (hsolo1.runs_upgrade hna (by simpa using hne) hfuel hn1).onThrow.bind ?_
  rintro _ s2 ⟨rfl, hsolo2, hkept2, -⟩
  have hkept := hkept1.trans hkept2
  have hs2 := hs.kept hkept
  have htree := hkept.tree
  have hb2 : Budget env s2.tree key m := htree ▸ hb
  have hpage : s2.page = s.page := congrArg Tree.page htree
  rcases hpath.parent with ⟨h1, h2⟩ | ⟨h1, h2, h3⟩
  · have hroot : node.pid = s2.tree.root := by rw [htree, h2]
    rw [h1, hroot] at hsolo2 ⊢
    refine (hsolo2.runs_trySplit_root hA hs2 hb2 ?_).mono ?_
    · rw [hpage, ← hroot]
      exact hfull
    · intro _ s3 hadv
      exact hadv.kept hkept
  · have hchild : s2.tree.ChildOn key node.pid parent.pid j := by
      rw [htree]
      exact ⟨hpath.level, h1, hpath.covers, h3, h2⟩
    refine (hsolo2.runs_trySplit_below hA hs2 hchild hb2
      ((hens (hs.inv.bound _ _ h1).1.ne').kept hkept)).mono ?_
    intro _ s3 hadv
    exact hadv.kept hkept

/-! ## Retry loops -/

omit [DecidableEq τ] in
lemma marks (h : Solo env t X s) (f : τ → List Nat) :
    Solo env t X { s with marks := f } ∧ Kept s { s with marks := f } :=
  ⟨h.congr rfl rfl rfl rfl h.crashed, rfl, rfl, rfl⟩

/-- What holds after an attempt that has not thrown. -/
def AttemptEnds (t : τ) (c : Choice) (P : Sys τ → Op → Prop) (F : Fault → Prop)
    (attempt : Prog (Option α)) (n : Nat) (Q : α → Sys τ → Prop) :
    Option (Option α) → Sys τ → Prop
  | some (some a), s => Q a s
  | some none, s => Runs t c P F (retry attempt n) s Q
  | none, _ => False

/-- A round of a retry loop. -/
lemma runs_retry_round {attempt : Prog (Option α)} {n : Nat} {Q : α → Sys τ → Prop}
    (hs : s.crashed = none)
    (hatt : Runs t c P F attempt (s.attempt t) (fun r s2 =>
      s2.crashed = none ∧ ∀ f, match r with
        | some a => Q a { s2 with marks := f }
        | none => Runs t c P F (retry attempt n) { s2 with marks := f } Q)) :
    Runs t c P F (retry attempt (n + 1)) s Q := by
  refine Runs.bind (Q := AttemptEnds t c P F attempt n Q) ?_ ?_
  · refine Program.Total.tryCatch (Runs.bind (Q := fun _ s' => s' = s.attempt t)
      (Runs.op .attempt hs rfl (fun _ => trivial) (fun _ => rfl)) ?_)
    rintro _ _ rfl
    refine hatt.bind ?_
    rintro r s2 ⟨hc2, hr⟩
    refine Runs.bind (Q := fun _ s' => s' = s2.leave t)
      (Runs.op .leave hc2 rfl (fun _ => trivial) (fun _ => rfl)) ?_
    rintro _ _ rfl
    have hend := hr (Function.update s2.marks t (s2.marks t).tail)
    cases r with
    | some a => exact Runs.pure hend
    | none => exact Runs.pure hend
  · rintro (_ | _ | a) s2 hr
    · exact hr.elim
    · exact hr
    · exact Runs.pure hr

/-- A round of a retry loop that begins without latches. -/
lemma runs_retry {attempt : Prog (Option α)} {n : Nat} {Q : α → Sys τ → Prop}
    (h : Solo env t [] s)
    (hatt : ∀ s1, Solo env t [] s1 → Kept s s1 → Runs t c P F attempt s1 (fun r s2 =>
      s2.crashed = none ∧ ∀ f, match r with
        | some a => Q a { s2 with marks := f }
        | none => Runs t c P F (retry attempt n) { s2 with marks := f } Q)) :
    Runs t c P F (retry attempt (n + 1)) s Q := by
  obtain ⟨hsolo1, hkept1⟩ := h.marks (Function.update s.marks t (s.changes t :: s.marks t))
  exact runs_retry_round h.crashed (hatt (s.attempt t) hsolo1 hkept1)

lemma runs_retry_once {p : Prog α} {n : Nat} {Q : α → Sys τ → Prop} (h : Solo env t [] s)
    (hp : ∀ s1, Solo env t [] s1 → Kept s s1 → Runs t c P F p s1 (fun a s2 =>
      s2.crashed = none ∧ ∀ f, Q a { s2 with marks := f })) :
    Runs t c P F (retry (once p) (n + 1)) s Q := by
  refine h.runs_retry (fun s1 hsolo1 hkept1 => (hp s1 hsolo1 hkept1).bind ?_)
  rintro a s2 ⟨hc2, hq⟩
  exact Runs.pure ⟨hc2, hq⟩

end Solo

omit [DecidableEq τ] in
lemma Advanced.marks {env : Env} {t : τ} {key : Key} {m : Nat} {s s1 : Sys τ}
    (h : Advanced env t key m s s1) (f : τ → List Nat) :
    Advanced env t key m s { s1 with marks := f } := by
  obtain ⟨hsolo, hkept⟩ := h.solo.marks f
  exact ⟨hsolo, h.planted.kept hkept, h.holds, h.splitOrdered, h.budget⟩

namespace Solo

variable {env : Env} {t : τ} {c : Choice} {P : Sys τ → Op → Prop} {F : Fault → Prop}
  {s : Sys τ} {x : PID} {key : Key} {j m l fuel : Nat}

/-! ## Making space -/

omit [DecidableEq τ] in
lemma onPath_root (hs : Planted s) (hl : s.tree.level s.tree.root = some l) (k : Key) :
    OnPath s.tree k metadataPageId s.tree.root l :=
  ⟨hl, hs.inv.covers_root k, Or.inl ⟨rfl, rfl⟩⟩

omit [DecidableEq τ] in
/-- The way to a page is the same for all keys that it covers. -/
lemma onPath_other (hs : Planted s) {sep : Key} {parent : PID}
    (h : OnPath s.tree sep parent x j) (hk : s.tree.Covers x key) :
    OnPath s.tree key parent x j := by
  refine ⟨h.level, hk, h.parent.imp_right ?_⟩
  rintro ⟨h1, h2, h3⟩
  have hchild : s.tree.ChildOn sep x parent j := ⟨h.level, h1, h.covers, h3, h2⟩
  have hother := hchild.other hs.inv hk
  exact ⟨h1, hother.covered, hother.childFor⟩

omit [DecidableEq τ] in
lemma level_le (hs : Planted s) (hl : s.tree.level s.tree.root = some l)
    (hx : s.tree.level x = some j) : j ≤ l := by
  obtain ⟨l', hl', hmax⟩ := hs.inv.root
  exact (hmax _ _ hx).trans (Option.some.inj (hl'.symm.trans hl)).le

/-- `ensureSpace` for a page on the path of the key. -/
lemma runs_ensureSpace (hA : Assumed env P F)
    (hl : s.tree.level s.tree.root = some l) (hs : Planted s) (hb : Budget env s.tree key m)
    (hx : s.tree.level x = some j) (hk : s.tree.Covers x key) (hj : l < j + fuel) :
    MakesSpace env t c P F key m (BTree.ensureSpace env fuel) x s := by
  have hjl := level_le hs hl hx
  have hfuel : l + m + 3 ≤ env.fuel := by
    obtain ⟨l', c, hcount, -, hle⟩ := hb
    rwa [Option.some.inj (hcount.root.symm.trans hl)] at hle
  induction fuel generalizing x j s with
  | zero => omega
  | succ fuel ih =>
    intro s1 sep hsolo1 hkept1 hcov hlen hno
    obtain ⟨n, hn⟩ : ∃ n, env.fuel = n + 1 := ⟨env.fuel - 1, by omega⟩
    rw [BTree.ensureSpace, hn]
    refine hsolo1.runs_retry_once (fun s2 hsolo2 hkept2 => ?_)
    have hkept := hkept1.trans hkept2
    have htree := hkept.tree
    have hpage : s2.page = s.page := congrArg Tree.page htree
    have hs2 := hs.kept hkept
    have hb2 : Budget env s2.tree key m := by rwa [htree]
    rw [← htree] at hl hx hk hcov
    refine (hsolo2.calm.runs_openRoot hs2 (by omega)).bind ?_
    rintro ⟨parent, node⟩ _ ⟨rfl, hp, hc, hpm, hnr⟩
    have hroot := onPath_root hs2 hl sep
    rw [← hpm, ← hnr] at hroot
    refine (hsolo2.calm.runs_descendWithParent hs2 (by omega) hx hcov (Or.inr rfl) hp hc hroot hjl
      (by omega)).bind ?_
    rintro ⟨parent', node'⟩ _ ⟨rfl, hp', hc', hnx, hpath⟩
    replace hpath := onPath_other hs2 hpath hk
    dsimp only at hp' hc' hnx hpath ⊢
    subst hnx
    rw [if_pos rfl]
    have hno2 : (s2.page node'.pid).hasSpaceFor sep.length 8 = false := by rwa [hpage]
    refine (hsolo2.calm.runs_readPage (BTreeNode.reads_hasSpaceFor sep.length 8)).bind ?_
    rintro b _ ⟨rfl, rfl⟩
    rw [hno2]
    refine (hsolo2.runs_lockAndSplit hA hs2 hb2 hp' hc' hpath (fun _ => ⟨sep, hlen, hno2⟩)
      (fun hne => ?_)).mono ?_
    · obtain ⟨h1, h2, -⟩ := hpath.parent.resolve_left (fun h => hne h.1)
      exact ih hl hs2 hb2 h1 h2 (by omega) (level_le hs2 hl h1)
    · intro _ s3 h3
      exact ⟨h3.solo.crashed, fun f => (h3.kept hkept).marks f⟩

end Solo

/-! ## Inserting -/

/-- The tree holds the entries `R` now, and at most `n` pages have been allocated. -/
structure Becomes (env : Env) (t : τ) (n : Nat) (R : Key → Key → Prop) (s s' : Sys τ) : Prop where
  solo : Solo env t [] s'
  planted : Planted s'
  holds : ∀ k v, s'.tree.Holds k v ↔ R k v
  splitOrdered : s'.splitOrdered = s.splitOrdered
  allocCount : s'.allocCount ≤ s.allocCount + n

omit [DecidableEq τ] in
lemma Becomes.marks {env : Env} {t : τ} {n : Nat} {R : Key → Key → Prop} {s s1 : Sys τ}
    (h : Becomes env t n R s s1) (f : τ → List Nat) :
    Becomes env t n R s { s1 with marks := f } := by
  obtain ⟨hsolo, hkept⟩ := h.solo.marks f
  exact ⟨hsolo, h.planted.kept hkept, h.holds, h.splitOrdered, h.allocCount⟩

omit [DecidableEq τ] in
lemma Becomes.kept {env : Env} {t : τ} {n : Nat} {R : Key → Key → Prop} {s s1 s2 : Sys τ}
    (h : Becomes env t n R s1 s2) (hk : Kept s s1) : Becomes env t n R s s2 :=
  ⟨h.solo, h.planted, h.holds, h.splitOrdered.trans hk.splitOrdered,
    hk.allocCount ▸ h.allocCount⟩

/-- The entries after an insert. -/
def Added (T : Tree) (key payload k v : Key) : Prop := (k = key ∧ v = payload) ∨ T.Holds k v

namespace Solo

variable {env : Env} {t : τ} {c : Choice} {P : Sys τ → Op → Prop} {F : Fault → Prop}
  {X : List PID} {s : Sys τ} {p : PID} {key payload : Key} {m : Nat}

/-- The leaf of the key takes the entry. -/
lemma runs_insertInPage (h : Solo env t X s) (hs : Planted s) (hp : s.tree.level p = some 0)
    (hk : s.tree.Covers p key) (hfresh : ∀ v, ¬s.tree.Holds key v)
    (hlen : key.length + payload.length ≤ maxKVSize)
    (hspace : (s.page p).hasSpaceFor key.length payload.length = true) :
    Runs t c P F (Program.op (S := signature) (.insertInPage p key payload)) s (fun _ s' =>
      Solo env t X s' ∧ Planted s' ∧
      (∀ k v, s'.tree.Holds k v ↔ (k = key ∧ v = payload) ∨ s.tree.Holds k v) ∧
      s'.splitOrdered = s.splitOrdered ∧ s'.allocCount = s.allocCount ∧ s'.word = s.word) := by
  obtain ⟨n, heq, hn, hinv, hholds⟩ := hs.inv.insertInPage hp hk hfresh hlen hspace
  refine Runs.op (.insertInPage p key payload) h.crashed rfl (fun _ => ⟨n, heq, hn⟩) (fun _ => ?_)
  have hs' : s.insertInPage t p key payload =
      ((s.setPage p n).record (.effect t (.insert key payload))).change t := by
    rw [Sys.insertInPage, show (s.page p).insertInPage key payload = .ok n from heq]
  rw [hs']
  exact ⟨((h.setPage p n).record _).change, ⟨hinv, hs.alloc, hs.height⟩, hholds, rfl, rfl, rfl⟩

lemma runs_insertAttempt (hA : Assumed env P F)
    (h : Solo env t [] s) (hs : Planted s) (hb : Budget env s.tree key m)
    (hfresh : ∀ v, ¬s.tree.Holds key v) (hlen : key.length + payload.length ≤ maxKVSize) :
    Runs t c P F (BTree.insertAttempt env key payload) s (fun r s' => match r with
      | some () => Becomes env t 0 (Added s.tree key payload) s s'
      | none => Advanced env t key m s s') := by
  obtain ⟨l, cs, hcount, hpot, hfuel⟩ := id hb
  have hl := hcount.root
  obtain ⟨x, hx, hk⟩ := hs.inv.covered key hl 0 (Nat.zero_le l)
  refine (h.calm.runs_openRoot hs (by omega)).bind ?_
  rintro ⟨parent, node⟩ _ ⟨rfl, hp, hc, hpm, hnr⟩
  have hroot := onPath_root hs hl key
  rw [← hpm, ← hnr] at hroot
  refine (h.calm.runs_descendWithParent hs (by omega) hx hk (Or.inl ⟨rfl, rfl⟩) hp hc hroot
    (Nat.zero_le l) (by omega)).bind ?_
  rintro ⟨parent', node'⟩ _ ⟨rfl, hp', hc', hnx, hpath⟩
  dsimp only at hp' hc' hnx hpath ⊢
  subst hnx
  refine (h.calm.runs_readPage (BTreeNode.reads_hasSpaceFor key.length payload.length)).bind ?_
  rintro b _ ⟨rfl, rfl⟩
  by_cases hspace : (s.page node'.pid).hasSpaceFor key.length payload.length = true
  · rw [if_pos hspace]
    have hne : parent'.pid ≠ node'.pid := by
      rcases hpath.parent with ⟨h1, -⟩ | ⟨h1, -, -⟩
      · rw [h1]
        exact (hs.inv.bound _ _ hx).1.ne
      · intro heq
        rw [heq, hx, Option.some.injEq] at h1
        omega
    refine (h.runs_upgrade (hs.alloc _ _ hx) (by simp) (by omega) hc').onThrow.bind ?_
    rintro _ s1 ⟨rfl, hsolo1, hkept1, hword1⟩
    refine (hsolo1.calm.runs_check (hp'.trans (hword1 _ hne).symm) false).onThrow.bind ?_
    rintro _ _ rfl
    have htree := hkept1.tree
    have hpage : s1.page = s.page := congrArg Tree.page htree
    rw [← htree] at hx hk hfresh
    rw [← hpage] at hspace
    refine (hsolo1.runs_insertInPage (hs.kept hkept1) hx hk hfresh hlen hspace).bind ?_
    rintro _ s2 ⟨hsolo2, hs2, hholds2, hord2, hcount2, -⟩
    refine (hsolo2.runs_unfixX hA (by simp)).bind ?_
    rintro _ s3 ⟨hsolo3, hkept3⟩
    refine Runs.pure ⟨hsolo3, hs2.kept hkept3, ?_, ?_, ?_⟩
    · intro k v
      rw [hkept3.tree, hholds2, htree]
      rfl
    · rw [hkept3.splitOrdered, hord2, hkept1.splitOrdered]
    · rw [hkept3.allocCount, hcount2, hkept1.allocCount]
      exact Nat.le_add_right _ _
  · rw [if_neg hspace]
    have hleaf : (s.page node'.pid).isLeaf = true := hs.inv.isLeaf_of_level hx
    refine (h.runs_lockAndSplit hA hs hb hp' hc' hpath (fun hi => ?_) (fun hne => ?_)).bind ?_
    · rw [hleaf] at hi
      cases hi
    · obtain ⟨h1, h2, -⟩ := hpath.parent.resolve_left (fun h => hne h.1)
      exact runs_ensureSpace hA hl hs hb h1 h2 (by omega)
    · intro _ s1 hadv
      exact Runs.pure hadv

/-- The loop of `insert` ends as soon as no split is needed any more. -/
lemma runs_insertLoop (hA : Assumed env P F)
    (h : Solo env t [] s) (hs : Planted s) (hb : Budget env s.tree key m)
    (hfresh : ∀ v, ¬s.tree.Holds key v) (hlen : key.length + payload.length ≤ maxKVSize) {n : Nat}
    (hn : m < n) :
    Runs t c P F (retry (BTree.insertAttempt env key payload) n) s
      (fun _ s' => Becomes env t (2 * m) (Added s.tree key payload) s s') := by
  induction m using Nat.strong_induction_on generalizing s n with
  | _ m ih =>
  obtain ⟨n, rfl⟩ : ∃ k, n = k + 1 := ⟨n - 1, by omega⟩
  refine h.runs_retry (fun s1 hsolo1 hkept1 => ?_)
  have htree := hkept1.tree
  have hfresh1 : ∀ v, ¬s1.tree.Holds key v := by rwa [htree]
  refine (hsolo1.runs_insertAttempt hA (hs.kept hkept1) (htree.symm ▸ hb) hfresh1 hlen).mono ?_
  rintro (_ | ⟨⟩) s2 hr
  · refine ⟨hr.solo.crashed, fun f => ?_⟩
    have hadv := (hr.kept hkept1).marks f
    obtain ⟨m', hlt, hb', hpages⟩ := hadv.budget
    have hfresh2 : ∀ v, ¬Tree.Holds (Sys.tree { s2 with marks := f }) key v := by
      intro v hv
      exact hfresh v ((hadv.holds key v).mp hv)
    refine (ih m' hlt hadv.solo hadv.planted hb' hfresh2 (by omega)).mono ?_
    intro _ s3 h3
    refine ⟨h3.solo, h3.planted, ?_, h3.splitOrdered.trans hadv.splitOrdered, ?_⟩
    · intro k v
      rw [h3.holds, Added, hadv.holds]
      rfl
    · have := h3.allocCount
      omega
  · refine ⟨hr.solo.crashed, fun f => ?_⟩
    have hst := hr.marks f
    refine ⟨hst.solo, hst.planted, ?_, hst.splitOrdered.trans hkept1.splitOrdered, ?_⟩
    · intro k v
      rw [hst.holds, Added, htree]
      rfl
    · have := hst.allocCount
      rw [hkept1.allocCount] at this
      omega

theorem runs_insert (hA : Assumed env P F)
    (h : Solo env t [] s) (hs : Planted s) (hb : Budget env s.tree key m)
    (hfresh : ∀ v, ¬s.tree.Holds key v) (hlen : key.length + payload.length ≤ maxKVSize) :
    Runs t c P F (BTree.insert env key payload) s
      (fun _ s' => Becomes env t (2 * m) (Added s.tree key payload) s s') := by
  have hfuel : m < env.fuel := by
    obtain ⟨l, cs, -, -, hle⟩ := hb
    omega
  refine (Runs.assert _ hlen).bind ?_
  rintro _ _ rfl
  exact h.runs_insertLoop hA hs hb hfresh hlen hfuel

end Solo

end MemSafeDB
