import MemSafeDB.Sequential.Latches

/-!
# One thread alone: reads and descents

A thread that is alone reads what is on the pages, and its descents end at the leaf that covers
the key, with the parent of that leaf in the second guard.
-/

namespace MemSafeDB
open Lib PageState

variable {τ : Type} [DecidableEq τ]

/-- The tree is in order and consists of allocated pages. -/
structure Planted (s : Sys τ) : Prop where
  inv : s.tree.Inv
  alloc : ∀ p l, s.tree.level p = some l → p < s.allocCount
  height : ∀ l, s.tree.level s.tree.root = some l → l + 2 ≤ s.allocCount

/-- The descent for a key passes from `parent` to `node`. -/
structure OnPath (T : Tree) (key : Key) (parent node : PID) (l : Nat) : Prop where
  level : T.level node = some l
  covers : T.Covers node key
  parent : (parent = metadataPageId ∧ node = T.root) ∨
    (T.level parent = some (l + 1) ∧ T.Covers parent key ∧ (T.view parent).childFor key = node)

/-- The guard holds the current version of a page. -/
def Current (s : Sys τ) (g : GuardO) : Prop := g.version = s.word g.pid

omit [DecidableEq τ] in
lemma Current.mk (s : Sys τ) (p : PID) : Current s ⟨p, s.word p⟩ := rfl

namespace Calm

variable {env : Env} {t : τ} {c : Choice} {P : Sys τ → Op → Prop} {F : Fault → Prop}
  {X : List PID} {s : Sys τ} {p : PID} {fuel : Nat} {key : Key}

lemma runs_readPage {β : Type} (h : Calm env t X s) {r : PageRead β} {b : β}
    (hr : (s.page p).Reads r b) :
    Runs t c P F (readPage p r) s (fun b' s' => b' = b ∧ s = s') := by
  induction r with
  | ret a => exact ⟨Except.ok.inj hr.1, rfl⟩
  | throw e => cases hr.1
  | step l k ih =>
    obtain ⟨h1, h2, h3⟩ := hr
    have hexec : Sys.perform t c (.peek p l) s = some ((s.page p).fetch l, s) :=
      congrArg (fun v => some (v, s)) (if_pos ⟨h2, h.readable p⟩)
    refine Runs.bind (Runs.op (.peek p l) h.crashed hexec (fun _ => trivial) (fun _ => ?_)) ?_
      (Q := fun r s' => r = (s.page p).fetch l ∧ s = s')
    · exact ⟨rfl, rfl⟩
    · rintro r _ ⟨rfl, rfl⟩
      exact ih _ ⟨h1, h3⟩

lemma runs_peekRoot (h : Calm env t X s) :
    Runs t c P F peekRoot s (fun r s' => r = s.tree.root ∧ s = s') := by
  have hexec : Sys.perform t c .peekRoot s = some (s.root, s) :=
    congrArg (fun v => some (v, s)) (if_pos (h.readable metadataPageId))
  exact Runs.op .peekRoot h.crashed hexec (fun _ => trivial) (fun _ => ⟨rfl, rfl⟩)

omit [DecidableEq τ] in
lemma isInner_eq {l : Nat} (hs : Planted s) (hp : s.tree.level p = some l) :
    (s.page p).isInner = decide (0 < l) := by
  have hleaf := hs.inv.leaf p l hp
  change (s.page p).isLeaf = decide (l = 0) at hleaf
  rw [BTreeNode.isInner, hleaf]
  cases l <;> simp

omit [DecidableEq τ] in
lemma isLeaf_inner {l : Nat} (hs : Planted s) (hp : s.tree.level p = some (l + 1)) :
    (s.page p).isLeaf = false := by
  have hleaf := hs.inv.leaf p _ hp
  change (s.page p).isLeaf = _ at hleaf
  simpa using hleaf

/-- The child that a descent reads and opens. -/
lemma runs_child (h : Calm env t [] s) (hs : Planted s) (hf : 0 < env.fuel) {g : GuardO}
    (hg : Current s g) {l : Nat} (hl : s.tree.level g.pid = some (l + 1))
    (hk : s.tree.Covers g.pid key) :
    Runs t c P F (do
      let pid ← readPage g.pid (PageRead.lookupInner key)
      GuardO.ofParent env pid g) s
      (fun g' s' => s = s' ∧ Current s g' ∧ g'.pid = (s.tree.view g.pid).childFor key) := by
  have hvalid := hs.inv.valid g.pid _ hl
  refine (h.runs_readPage (hvalid.reads_lookupInner (isLeaf_inner hs hl) key)).bind ?_
  rintro pid _ ⟨rfl, rfl⟩
  have hchild := (hs.inv.childFor hl hk).1
  refine (h.runs_ofParent (hs.alloc _ _ hchild) (by simp) hf hg).mono ?_
  rintro g' _ ⟨rfl, rfl⟩
  exact ⟨rfl, Current.mk _ _, rfl⟩

/-- The loop of `findLeafO` ends at the leaf that covers the key. -/
lemma runs_descend (h : Calm env t [] s) (hs : Planted s) (hf : 0 < env.fuel) {g : GuardO}
    (hg : Current s g) {l : Nat} (hl : s.tree.level g.pid = some l)
    (hk : s.tree.Covers g.pid key) (hfuel : l < fuel) :
    Runs t c P F (BTree.descend env key g fuel) s
      (fun g' s' => s = s' ∧ Current s g' ∧ s.tree.level g'.pid = some 0 ∧
        s.tree.Covers g'.pid key) := by
  induction l generalizing g fuel with
  | zero =>
    obtain ⟨n, rfl⟩ : ∃ n, fuel = n + 1 := ⟨fuel - 1, by omega⟩
    refine (h.runs_readPage BTreeNode.reads_isInner).bind ?_
    rintro inner _ ⟨rfl, rfl⟩
    rw [isInner_eq hs hl]
    exact Runs.pure ⟨rfl, hg, hl, hk⟩
  | succ l ih =>
    obtain ⟨n, rfl⟩ : ∃ n, fuel = n + 1 := ⟨fuel - 1, by omega⟩
    refine (h.runs_readPage BTreeNode.reads_isInner).bind ?_
    rintro inner _ ⟨rfl, rfl⟩
    rw [isInner_eq hs hl]
    refine (h.runs_child hs hf hg hl hk).onThrow.bind ?_
    rintro child _ ⟨rfl, hcur, hpid⟩
    refine (h.runs_check hg false).onThrow.bind ?_
    rintro _ _ rfl
    obtain ⟨hcl, hck⟩ := hs.inv.childFor hl hk
    rw [← hpid] at hcl hck
    exact ih hcur hcl hck (by omega)

lemma runs_openRoot (h : Calm env t [] s) (hs : Planted s) (hf : 0 < env.fuel) :
    Runs t c P F (BTree.openRoot env) s
      (fun g s' => s = s' ∧ Current s g.1 ∧ Current s g.2 ∧ g.1.pid = metadataPageId ∧
        g.2.pid = s.tree.root) := by
  obtain ⟨l, hl, -⟩ := hs.inv.root
  refine (h.runs_ofPid h.alloc.1 (by simp) hf).bind ?_
  rintro parent _ ⟨rfl, rfl⟩
  refine Runs.bind (Q := fun g s' => g = ⟨s.tree.root, s.word s.tree.root⟩ ∧ s = s')
    (Runs.onThrow ?_) ?_
  · refine h.runs_peekRoot.bind ?_
    rintro r _ ⟨rfl, rfl⟩
    exact h.runs_ofParent (hs.alloc _ _ hl) (by simp) hf rfl
  · rintro g _ ⟨rfl, rfl⟩
    exact Runs.pure ⟨rfl, rfl, rfl, rfl, rfl⟩

lemma runs_findLeafO (h : Calm env t [] s) (hs : Planted s) {l : Nat}
    (hl : s.tree.level s.tree.root = some l) (hf : l < env.fuel) (key : Key) :
    Runs t c P F (BTree.findLeafO env key) s
      (fun g s' => s = s' ∧ Current s g ∧ s.tree.level g.pid = some 0 ∧
        s.tree.Covers g.pid key) := by
  refine (h.runs_ofPid h.alloc.1 (by simp) (by omega)).bind ?_
  rintro parent _ ⟨rfl, rfl⟩
  refine Runs.bind (Q := fun g s' => g = ⟨s.tree.root, s.word s.tree.root⟩ ∧ s = s')
    (Runs.onThrow ?_) ?_
  · refine h.runs_peekRoot.bind ?_
    rintro r _ ⟨rfl, rfl⟩
    exact h.runs_ofParent (hs.alloc _ _ hl) (by simp) (by omega) rfl
  · rintro g _ ⟨rfl, rfl⟩
    refine (h.runs_check rfl false).onThrow.bind ?_
    rintro _ _ rfl
    exact h.runs_descend hs (by omega) (Current.mk _ _) hl (hs.inv.covers_root key) hf

/-- The loop with the parent in the second guard ends at the page it looks for. -/
lemma runs_descendWithParent (h : Calm env t [] s) (hs : Planted s) (hf : 0 < env.fuel)
    {toSplit : Option PID} {x : PID} {j : Nat} (hx : s.tree.level x = some j)
    (hxk : s.tree.Covers x key) (hstop : (toSplit = none ∧ j = 0) ∨ toSplit = some x)
    {parent node : GuardO} (hp : Current s parent) (hn : Current s node) {l : Nat}
    (hpath : OnPath s.tree key parent.pid node.pid l) (hj : j ≤ l) (hfuel : l - j < fuel) :
    Runs t c P F (BTree.descendWithParent env key toSplit parent node fuel) s
      (fun g s' => s = s' ∧ Current s g.1 ∧ Current s g.2 ∧ g.2.pid = x ∧
        OnPath s.tree key g.1.pid x j) := by
  induction hd : l - j generalizing parent node l fuel with
  | zero =>
    obtain ⟨n, rfl⟩ : ∃ n, fuel = n + 1 := ⟨fuel - 1, by omega⟩
    have hlj : l = j := by omega
    subst hlj
    have hnx : node.pid = x := hs.inv.disjoint _ _ _ key hpath.level hx hpath.covers hxk
    refine (h.runs_readPage BTreeNode.reads_isInner).bind ?_
    rintro inner _ ⟨rfl, rfl⟩
    rw [isInner_eq hs hpath.level, if_neg]
    · exact Runs.pure ⟨rfl, hp, hn, hnx, hnx ▸ hpath⟩
    · rintro ⟨h1, h2⟩
      rcases hstop with ⟨-, hz⟩ | hz
      · simp [hz] at h1
      · exact h2 (hz.trans (congrArg some hnx.symm))
  | succ d ih =>
    obtain ⟨n, rfl⟩ : ∃ n, fuel = n + 1 := ⟨fuel - 1, by omega⟩
    obtain ⟨m, rfl⟩ : ∃ m, l = m + 1 := ⟨l - 1, by omega⟩
    have hne : node.pid ≠ x := by
      intro heq
      have hlev := hpath.level
      rw [heq, hx, Option.some.injEq] at hlev
      omega
    refine (h.runs_readPage BTreeNode.reads_isInner).bind ?_
    rintro inner _ ⟨rfl, rfl⟩
    rw [isInner_eq hs hpath.level, if_pos]
    · refine (h.runs_check hp false).onThrow.bind ?_
      rintro _ _ rfl
      refine (h.runs_child hs hf hn hpath.level hpath.covers).onThrow.bind ?_
      rintro child _ ⟨rfl, hcur, hpid⟩
      obtain ⟨hcl, hck⟩ := hs.inv.childFor hpath.level hpath.covers
      rw [← hpid] at hcl hck
      exact ih hn hcur ⟨hcl, hck, Or.inr ⟨hpath.level, hpath.covers, hpid.symm⟩⟩ (by omega)
        (by omega) (by omega)
    · refine ⟨by simp, ?_⟩
      rcases hstop with ⟨hz, -⟩ | hz
      · simp [hz]
      · rw [hz]
        exact fun heq => hne (Option.some.inj heq).symm

end Calm

end MemSafeDB
