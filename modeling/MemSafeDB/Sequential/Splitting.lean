import MemSafeDB.Sequential.Descent
import MemSafeDB.Tree.Measure

/-!
# One thread alone: splits

`trySplit` splits the node that is full, or the first of its ancestors whose parent has space
for its separator, below a new root if need be. The contents stay the same, and the path of the
key makes progress.
-/

namespace MemSafeDB
open Lib PageState

variable {τ : Type} [DecidableEq τ]

/-- The state after a page has been allocated. -/
structure Allocated (env : Env) (t : τ) (X : List PID) (s s' : Sys τ) : Prop where
  solo : Solo env t (s.allocCount :: X) s'
  valid : s.allocCount < env.virtCount
  allocCount : s'.allocCount = s.allocCount + 1
  splitOrdered : s'.splitOrdered = s.splitOrdered

/-- The split of `node`, with the right half in the page that was allocated last. -/
structure Divided (s s' : Sys τ) (node parent : PID) (h : Nat) (sep : Key)
    (es : List (Key × Key)) (e : Key × Key) (fs : List (Key × Key)) : Prop where
  step : ∃ l r n, s.tree.SplitStep node s.allocCount parent h sep es e fs l r n ∧
    s'.tree = s.tree.splitPages node s.allocCount parent l r n
  allocCount : s'.allocCount = s.allocCount + 1
  splitOrdered : s'.splitOrdered = s.splitOrdered

namespace Solo

variable {env : Env} {t : τ} {c : Choice} {P : Sys τ → Op → Prop} {F : Fault → Prop}
  {X : List PID} {s : Sys τ} {p : PID} {key : Key}

/-! ## New pages -/

omit [DecidableEq τ] in
lemma notMem_allocCount (h : Solo env t X s) : s.allocCount ∉ X :=
  fun hX => absurd (h.held _ hX).1 (lt_irrefl _)

omit [DecidableEq τ] in
/-- The next page becomes an allocated page that the thread holds. -/
lemma allocate (h : Solo env t X s) (hv : s.allocCount < env.virtCount) {s' : Sys τ}
    (hc : s'.crashed = none) (ha : s'.allocCount = s.allocCount + 1)
    (hw : ∀ q, q ≠ s.allocCount → s'.word q = s.word q)
    (hl : getState (s'.word s.allocCount) = Locked)
    (hr : ∀ q, q ≠ s.allocCount → s'.resident q = s.resident q)
    (hx : ∀ q, ∀ u ∈ s'.xHolders q, u = t) : Solo env t (s.allocCount :: X) s' where
  crashed := hc
  held := by
    intro q hq
    rw [ha]
    by_cases hqa : q = s.allocCount
    · subst hqa
      exact ⟨Nat.lt_succ_self _, hl⟩
    · obtain ⟨h1, h2⟩ := h.held q ((List.mem_cons.mp hq).resolve_left hqa)
      exact ⟨Nat.lt_succ_of_lt h1, by rwa [hw q hqa]⟩
  free := by
    intro q hq hX
    rw [List.mem_cons, not_or] at hX
    have hne : q ≠ s.allocCount := hX.1
    rw [hw q hne]
    exact h.free q (by omega) hX.2
  fresh := by
    intro q hq
    have hne : q ≠ s.allocCount := by omega
    rw [hw q hne, hr q hne]
    exact h.fresh q (by omega)
  alone := hx
  alloc := by
    have ha' := h.alloc
    omega

lemma runs_residentInsert (hc : s.crashed = none) (hr : s.resident p = false) :
    Runs t c P F (residentInsert p) s
      (fun _ s' => s' = { s with resident := Function.update s.resident p true }) := by
  refine Runs.op (.residentInsert p) hc rfl (fun _ => trivial) (fun _ => ?_)
  rw [Sys.residentInsert, hr]
  rfl

/-- `nextPid` answers the counter. -/
lemma runs_nextPid (hA : Assumed env P F) (hc : s.crashed = none) :
    Runs t c P F nextPid s (fun m s' => m = s.allocCount ∧
      s' = { s with allocCount := s.allocCount + 1 } ∧
      (env.virtCount ≤ s.allocCount → F .outOfPages)) :=
  Runs.op .nextPid hc rfl (fun _ => trivial) (fun hP => ⟨rfl, rfl, hA.outOfPages s hP⟩)

lemma runs_allocPage_full (hA : Assumed env P F) (hc : s.crashed = none)
    (hv : env.virtCount ≤ s.allocCount) {Q : PID → Sys τ → Prop} :
    Runs t c P F (BufferManager.allocPage env) s Q := by
  refine (runs_nextPid hA hc).bind ?_
  rintro m s1 ⟨rfl, rfl, hpages⟩
  have hc1 : ({ s with allocCount := s.allocCount + 1 } : Sys τ).crashed = none := hc
  rw [if_pos hv]
  exact Runs.crash hc1 (hpages hv)

lemma runs_allocPage (hA : Assumed env P F) (h : Solo env t X s) :
    Runs t c P F (BufferManager.allocPage env) s (fun m s' => m = s.allocCount ∧
      Allocated env t X s s' ∧ s'.tree = s.tree) := by
  by_cases hv : env.virtCount ≤ s.allocCount
  · exact runs_allocPage_full hA h.crashed hv
  obtain ⟨hword, hres⟩ := h.fresh s.allocCount le_rfl
  refine (runs_nextPid hA h.crashed).bind ?_
  rintro m s1 ⟨rfl, rfl, -⟩
  have hc1 : ({ s with allocCount := s.allocCount + 1 } : Sys τ).crashed = none := h.crashed
  rw [if_neg hv]
  refine (Runs.load .other s.allocCount hc1).bind ?_
  rintro v _ ⟨rfl, rfl⟩
  have hlock : Runs t c P F (tryLockX s.allocCount (s.word s.allocCount))
      { s with allocCount := s.allocCount + 1 } (fun ok s' => ok = true ∧
        s' = ({ s with allocCount := s.allocCount + 1 } : Sys τ).cas t .lockX s.allocCount
          (sameVersion (s.word s.allocCount) Locked)) := by
    refine Runs.op (.cas .lockX s.allocCount (s.word s.allocCount) _) hc1 ?_ (fun _ => trivial)
      (fun _ => ⟨rfl, rfl⟩)
    simp [Sys.perform]
  refine hlock.bind ?_
  rintro ok _ ⟨rfl, rfl⟩
  refine (Runs.assert _ rfl).bind ?_
  rintro _ _ rfl
  set s1 : Sys τ := ({ s with allocCount := s.allocCount + 1 } : Sys τ).cas t .lockX s.allocCount
    (sameVersion (s.word s.allocCount) Locked) with hs1
  have hins : Runs t c P F (residentInsert s.allocCount) s1
      (fun _ s' => s' = { s1 with resident := Function.update s.resident s.allocCount true }) :=
    runs_residentInsert h.crashed hres
  refine hins.bind ?_
  rintro _ _ rfl
  refine Runs.pure ⟨rfl, ⟨?_, not_le.mp hv, rfl, rfl⟩, rfl⟩
  refine h.allocate (not_le.mp hv) h.crashed rfl (fun q hq => Function.update_of_ne hq _ _) ?_
    (fun q hq => Function.update_of_ne hq _ _) ?_
  · change getState (Function.update s.word s.allocCount _ s.allocCount) = Locked
    rw [Function.update_self, getState_sameVersion _ (by decide)]
  · intro q u hu
    change u ∈ Function.update s.xHolders s.allocCount (t :: s.xHolders s.allocCount) q at hu
    by_cases hq : q = s.allocCount
    · subst hq
      rw [Function.update_self, List.mem_cons] at hu
      exact hu.elim id (h.alone _ u)
    · rw [Function.update_of_ne hq] at hu
      exact h.alone q u hu

lemma runs_allocGuard (hA : Assumed env P F) (h : Solo env t X s) (b : Bool) :
    Runs t c P F (allocGuard env b) s (fun m s' => m = s.allocCount ∧
      Allocated env t X s s' ∧ s'.tree = s.tree.setPage s.allocCount (BTreeNode.new b)) := by
  refine (h.runs_allocPage hA).bind ?_
  rintro m s' ⟨rfl, hal, htree⟩
  refine Runs.bind (Runs.op (.construct s.allocCount b) hal.solo.crashed rfl (fun _ => trivial)
    (fun _ => rfl)) (Q := fun _ s'' => s'' = (s'.setPage s.allocCount (BTreeNode.new b)).change t) ?_
  rintro _ _ rfl
  refine Runs.pure ⟨rfl, ⟨?_, hal.valid, hal.allocCount, hal.splitOrdered⟩, ?_⟩
  · exact hal.solo.congr rfl rfl rfl rfl hal.solo.crashed
  · rw [← htree]
    rfl

omit [DecidableEq τ] in
lemma perm (h : Solo env t X s) {Y : List PID} (hY : ∀ q, q ∈ Y ↔ q ∈ X) : Solo env t Y s :=
  ⟨h.crashed, fun q hq => h.held q ((hY q).mp hq), fun q hq hX => h.free q hq (mt (hY q).mpr hX),
    h.fresh, h.alone, h.alloc⟩

omit [DecidableEq τ] in
lemma fresh_level (hs : Planted s) : s.tree.level s.allocCount = none := by
  cases hl : s.tree.level s.allocCount with
  | none => rfl
  | some l => exact absurd (hs.alloc _ _ hl) (lt_irrefl _)

omit [DecidableEq τ] in
lemma fresh_bound (h : Solo env t X s) (hv : s.allocCount < env.virtCount) :
    0 < s.allocCount ∧ s.allocCount < noNeighbour := by
  refine ⟨h.alloc.1, ?_⟩
  have hsize := env.memsize_lt
  have hvirt : env.virtCount ≤ env.memsize := Nat.div_le_self _ _
  simp only [noNeighbour]
  omega

/-- The new root above the old one. -/
lemma runs_growRoot (hA : Assumed env P F)
    (h : Solo env t (metadataPageId :: X) s) (hX : metadataPageId ∉ X) (hs : Planted s) {l : Nat}
    (hl : s.tree.level s.tree.root = some l) :
    Runs t c P F (BTree.growRoot env s.tree.root) s (fun m s' => m = s.allocCount ∧
      Solo env t (s.allocCount :: X) s' ∧ Planted s' ∧
      s'.tree = s.tree.growRoot s.allocCount l ∧ s'.allocCount = s.allocCount + 1 ∧
      s'.splitOrdered = s.splitOrdered) := by
  have hroot : s.tree.root ≠ s.allocCount := ne_of_lt (hs.alloc _ _ hl)
  refine (h.runs_allocGuard hA false).bind ?_
  rintro m s1 ⟨rfl, hal, htree⟩
  refine Runs.bind (Runs.op (.setUpperInnerNode s.allocCount s.tree.root) hal.solo.crashed rfl
    (fun _ => trivial) (fun _ => rfl)) (Q := fun _ s' => s' = (s1.setPage s.allocCount
      { s1.page s.allocCount with link := s.tree.root }).change t) ?_
  rintro _ _ rfl
  have hpage : s1.page s.allocCount = BTreeNode.new false := by
    have heq := congrArg (fun T : Tree => T.page s.allocCount) htree
    simpa [Sys.tree, Tree.setPage] using heq
  have hlevel : s1.level s.tree.root = some l := by
    have heq := congrArg (fun T : Tree => T.level s.tree.root) htree
    exact heq.trans hl
  rw [hpage]
  set s2 : Sys τ := (s1.setPage s.allocCount
    { BTreeNode.new false with link := s.tree.root }).change t with hs2
  have hsolo2 : Solo env t (s.allocCount :: metadataPageId :: X) s2 :=
    hal.solo.congr rfl rfl rfl rfl hal.solo.crashed
  refine Runs.bind (Runs.op (.setRoot s.allocCount) hsolo2.crashed rfl
    (fun _ => trivial) (fun _ => rfl)) (Q := fun _ s' => s' = s2.setRoot t s.allocCount) ?_
  rintro _ _ rfl
  have htree2 : (s2.setRoot t s.allocCount).tree = s.tree.growRoot s.allocCount l := by
    have h1 : s1.page = Function.update s.page s.allocCount (BTreeNode.new false) :=
      congrArg Tree.page htree
    have h2 : s1.level = s.level := congrArg Tree.level htree
    have hrl : s2.rootLevel s.allocCount = some (l + 1) := by
      simp [Sys.rootLevel, hs2, Sys.setPage, Sys.change, BTreeNode.new, hlevel]
    simp only [Sys.tree, Tree.growRoot, Sys.setRoot, hrl, Tree.mk.injEq]
    refine ⟨?_, ?_, rfl⟩
    · change Function.update s1.page s.allocCount _ = _
      rw [h1, Function.update_idem]
      rfl
    · change Function.update s1.level s.allocCount _ = _
      rw [h2]
  have hsolo3 : Solo env t (s.allocCount :: metadataPageId :: X) (s2.setRoot t s.allocCount) :=
    hsolo2.congr rfl rfl rfl rfl hsolo2.crashed
  replace hsolo3 : Solo env t (metadataPageId :: s.allocCount :: X) (s2.setRoot t s.allocCount) :=
    hsolo3.perm (fun q => by simp only [List.mem_cons, or_left_comm])
  have hmeta : metadataPageId ∉ s.allocCount :: X := by
    rw [List.mem_cons, not_or]
    exact ⟨(ne_of_lt h.alloc.1), hX⟩
  refine (hsolo3.runs_unfixX hA hmeta).bind ?_
  rintro _ s4 ⟨hsolo4, hkept⟩
  have htree4 : s4.tree = s.tree.growRoot s.allocCount l := hkept.tree.trans htree2
  have hcount : s4.allocCount = s.allocCount + 1 := hkept.allocCount.trans hal.allocCount
  refine Runs.pure ⟨rfl, hsolo4, ⟨?_, ?_, ?_⟩, htree4, hcount,
    hkept.splitOrdered.trans hal.splitOrdered⟩
  · rw [htree4]
    exact hs.inv.growRoot hl (fresh_level hs) (h.fresh_bound hal.valid)
  · intro q k hq
    rw [htree4] at hq
    rw [hcount]
    by_cases hqm : q = s.allocCount
    · rw [hqm]
      exact Nat.lt_succ_self _
    · have hq' : s.tree.level q = some k := by simpa [Tree.growRoot, hqm] using hq
      exact Nat.lt_succ_of_lt (hs.alloc q k hq')
  · intro k hk
    rw [htree4] at hk
    have hkl : k = l + 1 := by simpa [Tree.growRoot, eq_comm] using hk
    have := hs.height l hl
    omega

/-! ## Splitting a node -/

/-- After a fault nothing is unlocked any more. -/
lemma runs_unfixX_stopped {f : Fault} (hc : s.crashed = some f) (hf : F f)
    {Q : Unit → Sys τ → Prop} : Runs t c P F (BufferManager.unfixX p) s Q := by
  have hstop : exec t c (Op.load .other p) s = none := by simp [exec, hc]
  intro _
  refine ⟨trivial, ?_⟩
  rw [hstop]
  exact ⟨f, hf, hc⟩

lemma runs_splitOp {newPID parent : PID} {sepSlot : Nat} {sep : Key} (h : Solo env t X s)
    {l r q : BTreeNode} (heq : (s.page p).splitNode p newPID (s.page parent) sepSlot sep =
      .ok (l, r, q))
    (hgood : Good F s (.splitNode p newPID parent sepSlot sep)) :
    Runs t c P F (Program.op (S := signature) (.splitNode p newPID parent sepSlot sep)) s
      (fun _ s' => Solo env t X s' ∧ s'.allocCount = s.allocCount ∧
        s'.splitOrdered = s.splitOrdered ∧
        s'.tree = ⟨Function.update (Function.update (Function.update s.page p l) newPID r) parent q,
          Function.update s.level newPID (s.level p), s.root⟩) := by
  refine Runs.op (.splitNode p newPID parent sepSlot sep) h.crashed rfl (fun _ => hgood)
    (fun _ => ?_)
  rw [Sys.splitNode, heq]
  refine ⟨((((h.setPage p l).setPage newPID r).setPage parent q).setLevel _ _).change, ?_⟩
  simp only [Sys.change, Sys.setLevel, Sys.setPage, Sys.tree, and_self]

lemma runs_splitOp_error {newPID parent : PID} {sepSlot : Nat} {sep : Key} {v : View}
    (hc : s.crashed = none)
    (hf : P s (.splitNode p newPID parent sepSlot sep) → F (BTreeNode.unfitFault v))
    (herr : (s.page p).splitNode p newPID (s.page parent) sepSlot sep =
      .error (BTreeNode.unfitFault v)) :
    Runs t c P F (Program.op (S := signature) (.splitNode p newPID parent sepSlot sep)) s
      (fun _ s' => F (BTreeNode.unfitFault v) ∧ s'.crashed = some (BTreeNode.unfitFault v)) := by
  refine Runs.op (.splitNode p newPID parent sepSlot sep) hc rfl
    (fun hP => Or.inr ⟨v, hf hP, herr⟩) (fun hP => ⟨hf hP, ?_⟩)
  rw [Sys.splitNode, herr]
  rfl

lemma runs_splitNode (hA : Assumed env P F) (h : Solo env t X s)
    (hs : Planted s) {node parent : PID} {j : Nat} (hc : s.tree.ChildOn key node parent j)
    {info : BTreeNode.SeparatorInfo} {sep : Key} {es fs : List (Key × Key)} {e : Key × Key}
    (hsep : Separator (s.tree.view node) info sep es e fs) (hpos : 0 < info.slot)
    (hspace : (s.page parent).hasSpaceFor sep.length 8 = true) :
    Runs t c P F (BTree.splitNode env node parent info.slot sep) s (fun _ s' =>
      Solo env t X s' ∧ Divided s s' node parent j sep es e fs) := by
  have hvalid := hs.inv.valid node j hc.node
  have hlen : info.slot < (s.page node).count := by
    have hent := congrArg List.length hsep.entries
    simp only [List.length_append, List.length_cons] at hent
    rw [hsep.slot, ← BTreeNode.length_entries]
    exact lt_of_lt_of_eq (by omega) hent.symm
  have hmax : info.slot < pageSize / 8 := by
    have hle : (s.page node).count ≤ 399 := hvalid.count_le
    change _ < 512
    omega
  refine (Runs.assert _ hpos).bind ?_
  rintro _ _ rfl
  refine (Runs.assert _ hmax).bind ?_
  rintro _ _ rfl
  refine (Runs.view node h.crashed).bind ?_
  rintro n _ ⟨rfl, rfl⟩
  refine (h.runs_allocGuard hA _).bind ?_
  rintro m s1 ⟨rfl, hal, htree⟩
  have hnode : node ≠ s.allocCount := ne_of_lt (hs.alloc _ _ hc.node)
  have hparent : parent ≠ s.allocCount := ne_of_lt (hs.alloc _ _ hc.parent)
  have hpage : s1.page = Function.update s.page s.allocCount (BTreeNode.new (s.page node).isLeaf) :=
    congrArg Tree.page htree
  have hpn : s1.page node = s.page node := by rw [hpage, Function.update_of_ne hnode]
  have hpp : s1.page parent = s.page parent := by rw [hpage, Function.update_of_ne hparent]
  by_cases hfit : ((s.tree.view node).leftHalf sep es e noNeighbour).size ≤ pageSize
  · obtain ⟨l, r, q, heq, hstep⟩ := hc.splitNode hs.inv hsep hpos hspace (fresh_level hs)
      (h.fresh_bound hal.valid) hfit
    have hres := hstep.result
    have hlc : l.count < (s.page node).count := by
      have hview := congrArg (fun v : View => v.entries.length) hres.left_view
      have hl : l.count = ((s.tree.view node).leftEntries es e).length := by
        rw [← BTreeNode.length_entries]
        exact hview
      have hsplit := Tree.splittable_of_separator hsep hpos (hs.inv.leaf node j hc.node)
        (c := fun _ => (s.page node).count) (BTreeNode.length_entries _) (Or.inl rfl)
      rw [hl]
      exact hsplit.1
    have heq1 : (s1.page node).splitNode node s.allocCount (s1.page parent) info.slot sep =
        .ok (l, r, q) := by
      rw [hpn, hpp]
      exact heq
    have hgood : Good F s1 (.splitNode node s.allocCount parent info.slot sep) :=
      Or.inl ⟨l, r, q, heq1, hres.left_valid, hres.right_valid, hres.parent_valid, hpos,
        by rwa [hpn], by rwa [hpn]⟩
    refine (hal.solo.runs_splitOp heq1 hgood).bind ?_
    rintro _ s2 ⟨hsolo2, hcount2, hordered2, htree2⟩
    refine (runs_unfixX hA hsolo2 h.notMem_allocCount).mono ?_
    rintro _ s3 ⟨hsolo, hkept⟩
    refine ⟨hsolo, ⟨⟨l, r, q, hstep, ?_⟩, ?_, ?_⟩⟩
    · have hlevel : s1.level = s.level := congrArg Tree.level htree
      have hroot : s1.root = s.root := congrArg Tree.root htree
      rw [hkept.tree, htree2, hpage, hlevel, hroot, Tree.splitPages, Tree.mk.injEq]
      refine ⟨?_, rfl, rfl⟩
      funext x
      by_cases hx : x = s.allocCount
      · subst hx
        simp [hparent.symm]
      · simp [Sys.tree, Function.update_apply, hx]
    · rw [hkept.allocCount, hcount2, hal.allocCount]
    · rw [hkept.splitOrdered, hordered2, hal.splitOrdered]
  · have hgt := not_le.mp hfit
    have herr := hc.splitNode_unfit hs.inv hsep hpos hspace s.allocCount hgt
    have hleft : (s.tree.view node).leftHalf sep es e noNeighbour =
        (s1.page node).leftView info.slot sep := by
      rw [hpn]
      exact BTreeNode.leftHalf_eq hsep
    have herr1 : (s1.page node).splitNode node s.allocCount (s1.page parent) info.slot sep =
        .error (BTreeNode.unfitFault ((s1.page node).leftView info.slot sep)) := by
      rw [← hleft, hpn, hpp]
      exact herr
    refine (runs_splitOp_error hal.solo.crashed
      (fun hP => hA.unfit s1 _ _ _ _ _ hP (hleft ▸ hgt)) herr1).bind ?_
    rintro _ s2 ⟨hf, hcrash⟩
    exact runs_unfixX_stopped hcrash hf

end Solo

end MemSafeDB
