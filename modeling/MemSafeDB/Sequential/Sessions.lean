import MemSafeDB.Sequential.Calls
import MemSafeDB.Spec.Contents

/-!
# One thread alone: sessions

A thread that initialises the tree and then makes admissible calls sees a map from keys to
payloads, whatever splits and merges its calls lead to.
-/

namespace MemSafeDB
open Lib PageState

variable {τ : Type} [DecidableEq τ]

/-- The state stores the contents. -/
def Represents (s : Sys τ) (m : Contents) : Prop := ∀ k v, s.tree.Holds k v ↔ m k = some v

/-- Enough rounds for every loop of a thread that is alone. -/
def Env.Enough (env : Env) : Prop :=
  env.virtCount + Tree.potentialBound maxSlots env.virtCount + 3 ≤ env.fuel

instance (env : Env) : Decidable env.Enough := Nat.decLe _ _

omit [DecidableEq τ] in
lemma Planted.budget {env : Env} {t : τ} {X : List PID} {s : Sys τ} (hs : Planted s)
    (h : Solo env t X s) (hE : env.Enough) (key : Key) :
    ∃ l m, s.tree.level s.tree.root = some l ∧ l < env.fuel ∧ Budget env s.tree key m := by
  obtain ⟨l, hl, -⟩ := hs.inv.root
  obtain ⟨c, hc, hmax⟩ := hs.inv.exists_counts hl key
  have hheight := hs.height l hl
  have halloc := h.alloc.2
  have hle : l ≤ env.virtCount := by omega
  unfold Env.Enough at hE
  exact ⟨l, Tree.potentialBound maxSlots env.virtCount, hl, by omega, l, c, hc,
    Tree.potential_le hmax hle, by omega⟩

/-- A thread that sets the tree up and then makes calls. -/
def program (env : Env) (calls : List Call) : Prog (List Answer) := do
  BTree.init env
  session env calls

/-! ## Calls as changes of the contents -/

section Contents

variable {s : Sys τ} {m : Contents}

omit [DecidableEq τ] in
lemma Represents.isSome (hr : Represents s m) (key : Key) :
    (m key).isSome = true ↔ ∃ v, s.tree.Holds key v := by
  rw [Option.isSome_iff_exists]
  exact exists_congr (fun v => (hr key v).symm)

omit [DecidableEq τ] in
lemma Represents.not_holds (hr : Represents s m) {key : Key} (h : m key = none) (v : Key) :
    ¬s.tree.Holds key v := by
  rw [hr, h]
  exact nofun

omit [DecidableEq τ] in
lemma Represents.added (hr : Represents s m) {key : Key} (h : m key = none) (payload k v : Key) :
    Added s.tree key payload k v ↔ m.after (.insert key payload) k = some v := by
  rw [Added, hr, Contents.after]
  by_cases hk : k = key
  · subst hk
    simp [h, eq_comm]
  · simp [hk]

omit [DecidableEq τ] in
lemma Represents.removed (hr : Represents s m) (key k v : Key) :
    Removed s.tree key k v ↔ m.after (.remove key) k = some v := by
  rw [Removed, hr, Contents.after]
  by_cases hk : k = key
  · subst hk
    simp
  · simp [hk]

omit [DecidableEq τ] in
lemma Represents.updated (hr : Represents s m) (key : Key) (fn : PayloadUpdate) (k v : Key) :
    Updated s.tree key fn k v ↔ m.after (.updateInPlace key fn) k = some v := by
  simp only [Updated, hr k v, hr key, Contents.after]
  by_cases hk : k = key
  · subst hk
    simp [eq_comm]
  · simp [hk]

omit [DecidableEq τ] in
lemma Represents.eq_none (hr : Represents s m) {key : Key} (h : ∀ v, ¬s.tree.Holds key v) :
    m key = none := by
  cases hm : m key with
  | none => rfl
  | some v => exact absurd ((hr key v).mpr hm) (h v)

omit [DecidableEq τ] in
lemma Represents.lookupAnswer (hr : Represents s m) {key : Key} {size : Nat}
    {r : Option (List Byte × Nat)} (h : LookupAnswer s.tree key size r) :
    m.Answers (.lookup key size) (.lookup r) := by
  rcases h with ⟨v, hv, rfl⟩ | ⟨rfl, hno⟩
  · rw [hr] at hv
    simp [Contents.Answers, hv]
  · simp [Contents.Answers, hr.eq_none hno]

end Contents

namespace Solo

variable {env : Env} {t : τ} {c : Choice} {P : Sys τ → Op → Prop} {F : Fault → Prop}
  {s : Sys τ} {m : Contents}

/-- The thread is between two calls, and the tree stores the contents. -/
structure Idle (env : Env) (t : τ) (m : Contents) (s : Sys τ) : Prop where
  solo : Solo env t [] s
  planted : Planted s
  represents : Represents s m

omit [DecidableEq τ] in
lemma Idle.of_becomes {n : Nat} {R : Key → Key → Prop} {s' : Sys τ}
    (h : Becomes env t n R s s') (hR : ∀ k v, R k v ↔ m k = some v) : Idle env t m s' :=
  ⟨h.solo, h.planted, fun k v => (h.holds k v).trans (hR k v)⟩

omit [DecidableEq τ] in
lemma Idle.congr (h : Idle env t m s) {s' : Sys τ} (hsolo : Solo env t [] s')
    (htree : s'.tree = s.tree) (halloc : s'.allocCount = s.allocCount) : Idle env t m s' := by
  refine ⟨hsolo, ⟨htree ▸ h.planted.inv, ?_, ?_⟩, ?_⟩
  · rw [htree, halloc]
    exact h.planted.alloc
  · rw [htree, halloc]
    exact h.planted.height
  · intro k v
    rw [htree]
    exact h.represents k v

lemma Idle.runs_run (hA : Assumed env P F) (hE : env.Enough) (h : Idle env t m s) {call : Call}
    (hallow : m.Allows call) :
    Runs t c P F (call.run env) s (fun a s' => m.Answers call a ∧ Idle env t (m.after call) s') := by
  obtain ⟨hsolo, hs, hr⟩ := h
  have hbudget := fun key => hs.budget hsolo hE key
  cases call with
  | lookup key size =>
    obtain ⟨l, -, hl, hf, -⟩ := hbudget key
    refine (hsolo.runs_lookup hs hl hf size).bind ?_
    rintro r s1 ⟨hb, hans⟩
    exact Runs.pure ⟨hr.lookupAnswer hans, Idle.of_becomes hb hr⟩
  | insert key payload =>
    obtain ⟨l, n, hl, hf, hbud⟩ := hbudget key
    refine (hsolo.runs_insert hA hs hbud (hr.not_holds hallow.1) hallow.2).bind ?_
    intro _ s1 hb
    exact Runs.pure ⟨trivial, Idle.of_becomes hb (hr.added hallow.1 payload)⟩
  | remove key =>
    obtain ⟨l, -, hl, hf, -⟩ := hbudget key
    refine (hsolo.runs_remove hA hs hl hf).bind ?_
    rintro b s1 ⟨hb, hans⟩
    refine Runs.pure ⟨?_, Idle.of_becomes hb (hr.removed key)⟩
    exact Bool.eq_iff_iff.mpr (hans.trans (hr.isSome key).symm)
  | updateInPlace key fn =>
    obtain ⟨l, -, hl, hf, -⟩ := hbudget key
    refine (hsolo.runs_updateInPlace hA hs hl hf fn).bind ?_
    rintro b s1 ⟨hb, hans⟩
    refine Runs.pure ⟨?_, Idle.of_becomes hb (hr.updated key fn)⟩
    exact Bool.eq_iff_iff.mpr (hans.trans (hr.isSome key).symm)
  | scanAsc key fn => exact hallow.elim
  | scanDesc key fn => exact hallow.elim
  | setSplitOrdered b =>
    refine Runs.bind (Q := fun _ s' => s' = { s with splitOrdered := b })
      (Runs.op (.setSplitOrdered b) hsolo.crashed rfl (fun _ => trivial) (fun _ => rfl)) ?_
    rintro _ _ rfl
    exact Runs.pure ⟨trivial, hsolo.congr rfl rfl rfl rfl hsolo.crashed,
      ⟨hs.inv, hs.alloc, hs.height⟩, hr⟩

lemma Idle.runs_record (h : Idle env t m s) (o : Op) {e : Event τ} {u : o.Res}
    (hexec : Sys.perform t c o s = some (u, s.record e)) (hgood : Good F s o) :
    Runs t c P F (Program.op (S := signature) o) s (fun _ s' => Idle env t m s') :=
  Runs.op o h.solo.crashed hexec (fun _ => hgood)
    (fun _ => h.congr (h.solo.record e) rfl rfl)

lemma Idle.runs_perform (hA : Assumed env P F) (hE : env.Enough) (h : Idle env t m s) {call : Call}
    (hallow : m.Allows call) :
    Runs t c P F (call.perform env) s
      (fun a s' => m.Answers call a ∧ Idle env t (m.after call) s') := by
  refine (h.runs_record (.call call) rfl trivial).bind ?_
  intro _ s1 h1
  refine (h1.runs_run hA hE hallow).bind ?_
  rintro a s2 ⟨hans, h2⟩
  refine (h2.runs_record (.ret a) rfl trivial).bind ?_
  intro _ s3 h3
  exact Runs.pure ⟨hans, h3⟩

/-- Admissible calls one after the other. -/
theorem Idle.runs_session (hA : Assumed env P F) (hE : env.Enough) (h : Idle env t m s)
    {calls : List Call} (hadm : m.Admits calls) :
    Runs t c P F (session env calls) s
      (fun as s' => ∃ m', m.Behaves calls as m' ∧ Idle env t m' s') := by
  induction calls generalizing s m with
  | nil => exact Runs.pure ⟨m, .nil, h⟩
  | cons call calls ih =>
    refine (h.runs_perform hA hE hadm.1).bind ?_
    rintro a s1 ⟨hans, h1⟩
    refine (ih h1 hadm.2).bind ?_
    rintro as s2 ⟨m', hbeh, h2⟩
    exact Runs.pure ⟨m', .cons hans hbeh, h2⟩

/-! ## The beginning -/

/-- The metadata page is taken in first. -/
lemma runs_fixMetadata (hE : env.Enough) :
    Runs t c P F (BufferManager.fixX env metadataPageId) (Sys.start : Sys τ) (fun p s' =>
      metadataPageId = p ∧ s'.crashed = none ∧ Kept (Sys.start : Sys τ) s' ∧
      (0 < env.virtCount → Solo env t [metadataPageId] s')) := by
  obtain ⟨n, hn⟩ : ∃ n, env.fuel = n + 1 := by
    unfold Env.Enough at hE
    exact ⟨env.fuel - 1, by omega⟩
  unfold BufferManager.fixX
  rw [hn]
  refine (Runs.load .other metadataPageId rfl).bind ?_
  rintro v _ ⟨rfl, rfl⟩
  have hev : getState ((Sys.start : Sys τ).word metadataPageId) = Evicted :=
    getState_sameVersion _ (by decide)
  rw [if_pos hev]
  have hlock : Runs t c P F
      (tryLockX metadataPageId ((Sys.start : Sys τ).word metadataPageId)) (Sys.start : Sys τ)
      (fun ok s' => ok = true ∧ s' = (Sys.start : Sys τ).cas t .lockX metadataPageId
        (sameVersion ((Sys.start : Sys τ).word metadataPageId) Locked)) := by
    refine Runs.op (.cas .lockX metadataPageId _ _) rfl ?_ (fun _ => trivial)
      (fun _ => ⟨rfl, rfl⟩)
    simp [Sys.perform]
  refine hlock.bind ?_
  rintro ok s1 ⟨rfl, hs1⟩
  have hw : s1.word = Function.update (Sys.start : Sys τ).word metadataPageId
      (sameVersion ((Sys.start : Sys τ).word metadataPageId) Locked) := by
    rw [hs1]
    rfl
  have hx : s1.xHolders = Function.update (fun _ => []) metadataPageId [t] := by
    rw [hs1]
    rfl
  have hr : s1.resident = fun _ => false := by
    rw [hs1]
    rfl
  have hc1 : s1.crashed = none := by
    rw [hs1]
    rfl
  have hkept1 : Kept (Sys.start : Sys τ) s1 := by
    rw [hs1]
    exact ⟨rfl, rfl, rfl⟩
  have hins : Runs t c P F (residentInsert metadataPageId) s1
      (fun _ s' => s' = { s1 with resident := Function.update s1.resident metadataPageId true }) :=
    runs_residentInsert hc1 (by rw [hr])
  refine hins.bind ?_
  rintro _ _ rfl
  refine Runs.pure ⟨rfl, hc1, hkept1.trans ⟨rfl, rfl, rfl⟩, fun hv => ?_⟩
  have ha : s1.allocCount = 1 := hkept1.allocCount
  refine ⟨hc1, ?_, ?_, ?_, ?_, ?_⟩
  · intro q hq
    rw [List.mem_singleton.mp hq]
    change metadataPageId < s1.allocCount ∧ getState (s1.word metadataPageId) = Locked
    rw [ha, hw, Function.update_self, getState_sameVersion _ (by decide)]
    exact ⟨Nat.one_pos, rfl⟩
  · intro q hq hX
    change q < s1.allocCount at hq
    rw [ha] at hq
    exact absurd (List.mem_singleton.mpr (Nat.lt_one_iff.mp hq)) hX
  · intro q hq
    change s1.allocCount ≤ q at hq
    rw [ha] at hq
    have hne : q ≠ metadataPageId := Nat.ne_of_gt hq
    change getState (s1.word q) = Evicted ∧
      Function.update s1.resident metadataPageId true q = false
    rw [hw, Function.update_of_ne hne, Function.update_of_ne hne, hr]
    exact ⟨getState_sameVersion _ (by decide), rfl⟩
  · intro q u hu
    change u ∈ s1.xHolders q at hu
    rw [hx] at hu
    by_cases hq : q = metadataPageId
    · subst hq
      simpa using hu
    · rw [Function.update_of_ne hq] at hu
      cases hu
  · change 0 < s1.allocCount ∧ s1.allocCount ≤ env.virtCount
    rw [ha]
    exact ⟨Nat.one_pos, hv⟩

/-- `init` leaves an empty tree. -/
theorem runs_init_tree (hA : Assumed env P F) (hE : env.Enough) :
    Runs t c P F (BTree.init env) (Sys.start : Sys τ) (fun _ s' => Idle env t .empty s') := by
  refine (runs_fixMetadata hE).bind ?_
  rintro _ s1 ⟨rfl, hc1, hkept1, hsolo1⟩
  by_cases hv : 0 < env.virtCount
  · replace hsolo1 := hsolo1 hv
    have hcount1 : s1.allocCount = 1 := hkept1.allocCount
    refine (hsolo1.runs_allocGuard hA true).bind ?_
    rintro m s2 ⟨rfl, hal, htree2⟩
    have hcount2 : s2.allocCount = 2 := hal.allocCount.trans (by rw [hcount1])
    have hsolo2 := hal.solo
    rw [hcount1] at htree2 hsolo2 ⊢
    rw [hkept1.tree] at htree2
    have hpage2 : s2.page 1 = BTreeNode.new true :=
      (congrArg (fun T : Tree => T.page 1) htree2).trans (by simp [Tree.setPage])
    have hlevel2 : s2.level = fun _ => none := congrArg Tree.level htree2
    refine Runs.bind (Q := fun _ s' => Solo env t [1, metadataPageId] s' ∧ s'.allocCount = 2 ∧
      s'.tree = ⟨s2.page, Function.update (fun _ => none) 1 (some 0), 1⟩)
      (Runs.op (.setRoot 1) hsolo2.crashed rfl (fun _ => trivial) (fun _ => ?_)) ?_
    · refine ⟨hsolo2.congr rfl rfl rfl rfl hsolo2.crashed, hcount2, ?_⟩
      have hroot : s2.rootLevel 1 = some 0 := by
        rw [Sys.rootLevel, hpage2]
        rfl
      simp only [Sys.setRoot, Sys.setLevel, Sys.change, Sys.tree, Sys.rootLevel] at hroot ⊢
      rw [hroot, hlevel2]
    · rintro _ s3 ⟨hsolo3, hcount3, htree3⟩
      refine (hsolo3.runs_unfixX hA (by decide)).bind ?_
      rintro _ s4 ⟨hsolo4, hkept4⟩
      refine (hsolo4.runs_unfixX hA (by simp)).mono ?_
      rintro _ s5 ⟨hsolo5, hkept5⟩
      have htree : s5.tree = ⟨s2.page, Function.update (fun _ => none) 1 (some 0), 1⟩ :=
        (hkept5.tree.trans hkept4.tree).trans htree3
      have hcount : s5.allocCount = 2 :=
        (hkept5.allocCount.trans hkept4.allocCount).trans hcount3
      have hlevel : ∀ p l, s5.tree.level p = some l ↔ p = s5.tree.root ∧ l = 0 := by
        intro p l
        rw [htree]
        by_cases hp : p = 1
        · subst hp
          simp [eq_comm]
        · simp [hp]
      have hroot : s5.tree.root = 1 := by rw [htree]
      have hinv : s5.tree.Inv := by
        refine Tree.inv_single ?_ hlevel ?_
        · rw [hroot]
          decide
        · rw [htree]
          exact hpage2
      refine ⟨hsolo5, ⟨hinv, ?_, ?_⟩, ?_⟩
      · intro p l hp
        rw [((hlevel p l).mp hp).1, hroot, hcount]
        decide
      · intro l hl
        rw [((hlevel _ l).mp hl).2, hcount]
      · intro k v
        refine iff_of_false ?_ (fun h => Option.some_ne_none v h.symm)
        rintro ⟨p, hp, hmem⟩
        have hview : (s5.tree.view p).entries = [] := by
          rw [((hlevel p 0).mp hp).1, hroot, Tree.view, htree]
          exact (congrArg BTreeNode.entries hpage2).trans rfl
        rw [hview] at hmem
        cases hmem
  · refine Runs.bind (Q := fun _ _ => False) (Runs.bind (Q := fun _ _ => False) ?_ ?_) ?_
    · refine runs_allocPage_full hA hc1 ?_
      rw [hkept1.allocCount]
      exact (not_lt.mp hv).trans Nat.one_pos.le
    · exact fun _ _ hf => hf.elim
    · exact fun _ _ hf => hf.elim

theorem runs_program (hA : Assumed env P F) (hE : env.Enough) {calls : List Call}
    (hadm : Contents.empty.Admits calls) :
    Runs t c P F (program env calls) (Sys.start : Sys τ)
      (fun as s' => ∃ m', Contents.empty.Behaves calls as m' ∧ Idle env t m' s') := by
  refine (runs_init_tree hA hE).bind ?_
  intro _ s1 h1
  exact h1.runs_session hA hE hadm

end Solo

end MemSafeDB
