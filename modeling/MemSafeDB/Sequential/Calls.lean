import MemSafeDB.Sequential.Inserting

/-!
# One thread alone: `lookup`, `updateInPlace` and `remove`

The first attempt of each of these calls succeeds. It works on the leaf that covers the key; a
`remove` may merge that leaf with its right neighbour.
-/

namespace MemSafeDB
open Lib PageState

variable {τ : Type} [DecidableEq τ]

/-- What `lookup` answers. -/
def LookupAnswer (T : Tree) (key : Key) (size : Nat) (r : Option (List Byte × Nat)) : Prop :=
  (∃ v, T.Holds key v ∧ r = some (v.take size, v.length)) ∨ (r = none ∧ ∀ v, ¬T.Holds key v)

/-- The entries after an update of the payload. -/
def Updated (T : Tree) (key : Key) (fn : PayloadUpdate) (k v : Key) : Prop :=
  (k = key ∧ ∃ w, T.Holds key w ∧ v = fn.run w) ∨ (k ≠ key ∧ T.Holds k v)

/-- The entries after a remove. -/
def Removed (T : Tree) (key k v : Key) : Prop := k ≠ key ∧ T.Holds k v

omit [DecidableEq τ] in
lemma Planted.search {s : Sys τ} (hs : Planted s) {p : PID} {key : Key}
    (hp : s.tree.level p = some 0) (hk : s.tree.Covers p key) :
    (key ∈ (s.page p).keys ∧ rank (s.page p).keys key < (s.page p).count ∧
      (s.page p).fullKey (rank (s.page p).keys key) = key ∧
      s.tree.Holds key ((s.page p).getPayload (rank (s.page p).keys key))) ∨
    (key ∉ (s.page p).keys ∧ ∀ v, ¬s.tree.Holds key v) :=
  hs.inv.search hp hk

namespace Solo

variable {env : Env} {t : τ} {c : Choice} {P : Sys τ → Op → Prop} {F : Fault → Prop}
  {X : List PID} {s : Sys τ} {p : PID} {key : Key} {l fuel : Nat}

omit [DecidableEq τ] in
lemma becomes_kept (hs : Planted s) {s' : Sys τ} (h : Solo env t [] s') (hk : Kept s s') :
    Becomes env t 0 s.tree.Holds s s' := by
  refine ⟨h, hs.kept hk, ?_, hk.splitOrdered, hk.allocCount.le⟩
  intro k v
  rw [hk.tree]

/-! ## Lookups -/

lemma runs_lookupAttempt (h : Solo env t [] s) (hs : Planted s)
    (hl : s.tree.level s.tree.root = some l) (hf : l < env.fuel) (size : Nat) :
    Runs t c P F (BTree.lookupAttempt env key size) s
      (fun r s' => s = s' ∧ LookupAnswer s.tree key size r) := by
  refine (h.calm.runs_findLeafO hs hl hf key).bind ?_
  rintro g _ ⟨rfl, hg, hlevel, hk⟩
  have hvalid : (s.page g.pid).Valid := hs.inv.valid _ _ hlevel
  refine Runs.bind (Q := fun r s' => s = s' ∧ LookupAnswer s.tree key size r) (Runs.onThrow ?_) ?_
  · refine (h.calm.runs_readPage (hvalid.reads_lowerBound key)).bind ?_
    rintro _ _ ⟨rfl, rfl⟩
    rcases hs.search hlevel hk with ⟨hmem, -, -, hhold⟩ | ⟨hmem, hno⟩
    · dsimp only
      rw [if_pos (decide_eq_true hmem)]
      refine (h.calm.runs_readPage (hvalid.reads_copyPayload hmem size)).bind ?_
      rintro _ _ ⟨rfl, rfl⟩
      exact Runs.pure ⟨rfl, Or.inl ⟨_, hhold, rfl⟩⟩
    · dsimp only
      rw [if_neg (by simpa using hmem)]
      exact Runs.pure ⟨rfl, Or.inr ⟨rfl, hno⟩⟩
  · rintro r _ ⟨rfl, hr⟩
    refine (h.calm.runs_check hg false).bind ?_
    rintro _ _ rfl
    exact Runs.pure ⟨rfl, hr⟩

theorem runs_lookup (h : Solo env t [] s) (hs : Planted s)
    (hl : s.tree.level s.tree.root = some l) (hf : l < env.fuel) (size : Nat) :
    Runs t c P F (BTree.lookup env key size) s (fun r s' =>
      Becomes env t 0 s.tree.Holds s s' ∧ LookupAnswer s.tree key size r) := by
  obtain ⟨n, hn⟩ : ∃ n, env.fuel = n + 1 := ⟨env.fuel - 1, by omega⟩
  unfold BTree.lookup
  rw [hn]
  refine h.runs_retry_once (fun s1 hsolo1 hkept1 => ?_)
  have htree := hkept1.tree
  refine (hsolo1.runs_lookupAttempt (hs.kept hkept1) (htree.symm ▸ hl) hf size).mono ?_
  rintro r _ ⟨rfl, hr⟩
  rw [htree] at hr
  exact ⟨hsolo1.crashed, fun f => ⟨(becomes_kept hs hsolo1 hkept1).marks f, hr⟩⟩

/-! ## Updates -/

lemma runs_updatePayload (h : Solo env t X s) (hs : Planted s) (hp : s.tree.level p = some 0)
    (hk : s.tree.Covers p key) (hmem : key ∈ (s.page p).keys) (fn : PayloadUpdate) :
    Runs t c P F (Program.op (S := signature) (.updatePayload p (rank (s.page p).keys key) fn)) s
      (fun _ s' => Solo env t X s' ∧ Planted s' ∧
        (∀ k v, s'.tree.Holds k v ↔ Updated s.tree key fn k v) ∧
        s'.splitOrdered = s.splitOrdered ∧ s'.allocCount = s.allocCount) := by
  obtain ⟨-, hlt, hfull, hhold⟩ := (hs.search hp hk).resolve_right (fun h => h.1 hmem)
  generalize rank (s.page p).keys key = i at hlt hfull hhold
  have hlen := fn.length_run ((s.page p).getPayload i)
  obtain ⟨n, heq, hn, hinv, hholds⟩ := hs.inv.setPayload hp hlt hlen
  refine Runs.op (.updatePayload p i fn) h.crashed rfl (fun _ => ⟨n, heq, hn⟩) (fun _ => ?_)
  have hs' : s.updatePayload t p i fn =
      ((s.setPage p n).record (.effect t (.update ((s.page p).fullKey i) fn))).change t := by
    rw [Sys.updatePayload,
      show (s.page p).setPayload i (fn.run ((s.page p).getPayload i)) = .ok n from heq]
  rw [hs']
  refine ⟨((h.setPage p n).record _).change, ⟨hinv, hs.alloc, hs.height⟩, ?_, rfl, rfl⟩
  intro k v
  refine (hholds k v).trans ?_
  have hkey : (s.tree.page p).fullKey i = key := hfull
  rw [hkey]
  refine or_congr_left (and_congr_right (fun _ => ?_))
  constructor
  · rintro rfl
    exact ⟨_, hhold, rfl⟩
  · rintro ⟨w, hw, rfl⟩
    rw [hs.inv.holds_unique hw hhold]

lemma runs_updateAttempt (hA : Assumed env P F) (h : Solo env t [] s) (hs : Planted s)
    (hl : s.tree.level s.tree.root = some l) (hf : l < env.fuel) (fn : PayloadUpdate) :
    Runs t c P F (BTree.updateAttempt env key fn) s (fun r s' =>
      Becomes env t 0 (Updated s.tree key fn) s s' ∧ (r = true ↔ ∃ v, s.tree.Holds key v)) := by
  refine (h.calm.runs_findLeafO hs hl hf key).bind ?_
  rintro g _ ⟨rfl, hg, hlevel, hk⟩
  have hvalid : (s.page g.pid).Valid := hs.inv.valid _ _ hlevel
  refine (h.calm.runs_readPage (hvalid.reads_lowerBound key)).onThrow.bind ?_
  rintro _ _ ⟨rfl, rfl⟩
  rcases hs.search hlevel hk with ⟨hmem, -, -, hhold⟩ | ⟨hmem, hno⟩
  · dsimp only
    rw [if_pos (decide_eq_true hmem)]
    refine (h.runs_upgrade (hs.alloc _ _ hlevel) (by simp) (by omega) hg).onThrow.bind ?_
    rintro _ s1 ⟨rfl, hsolo1, hkept1, -⟩
    have htree := hkept1.tree
    have hpage : s1.page = s.page := congrArg Tree.page htree
    rw [← hpage] at hmem ⊢
    have hstep := hsolo1.runs_updatePayload (c := c) (P := P) (F := F) (hs.kept hkept1)
      (htree.symm ▸ hlevel) (htree.symm ▸ hk) hmem fn
    refine hstep.bind ?_
    rintro _ s2 ⟨hsolo2, hs2, hholds2, hord2, hcount2⟩
    refine (hsolo2.runs_unfixX hA (by simp)).bind ?_
    rintro _ s3 ⟨hsolo3, hkept3⟩
    refine Runs.pure ⟨⟨hsolo3, hs2.kept hkept3, ?_, ?_, ?_⟩, iff_of_true rfl ⟨_, hhold⟩⟩
    · intro k v
      rw [hkept3.tree, hholds2, htree]
    · rw [hkept3.splitOrdered, hord2, hkept1.splitOrdered]
    · rw [hkept3.allocCount, hcount2, hkept1.allocCount]
      exact le_rfl
  · dsimp only
    rw [if_neg (by simpa using hmem)]
    refine (h.calm.runs_check hg false).bind ?_
    rintro _ _ rfl
    refine Runs.pure ⟨⟨h, hs, ?_, rfl, le_rfl⟩, iff_of_false (by simp) (by simpa using hno)⟩
    intro k v
    constructor
    · intro hv
      refine Or.inr ⟨?_, hv⟩
      rintro rfl
      exact hno v hv
    · rintro (⟨-, w, hw, -⟩ | ⟨-, hv⟩)
      · exact absurd hw (hno w)
      · exact hv

theorem runs_updateInPlace (hA : Assumed env P F) (h : Solo env t [] s) (hs : Planted s)
    (hl : s.tree.level s.tree.root = some l) (hf : l < env.fuel) (fn : PayloadUpdate) :
    Runs t c P F (BTree.updateInPlace env key fn) s (fun r s' =>
      Becomes env t 0 (Updated s.tree key fn) s s' ∧ (r = true ↔ ∃ v, s.tree.Holds key v)) := by
  obtain ⟨n, hn⟩ : ∃ n, env.fuel = n + 1 := ⟨env.fuel - 1, by omega⟩
  unfold BTree.updateInPlace
  rw [hn]
  refine h.runs_retry_once (fun s1 hsolo1 hkept1 => ?_)
  have htree := hkept1.tree
  refine (hsolo1.runs_updateAttempt hA (hs.kept hkept1) (htree.symm ▸ hl) hf fn).mono ?_
  rintro r s2 ⟨hb, hr⟩
  rw [htree] at hb hr
  exact ⟨hb.solo.crashed, fun f => ⟨(hb.kept hkept1).marks f, hr⟩⟩

/-! ## Removes -/

/-- The slot of a child in its parent, as `remove` keeps it. -/
def SlotOf (s : Sys τ) (key : Key) (parent : PID) (pos : Nat) : Prop :=
  parent = metadataPageId ∨ pos = rank (s.page parent).keys key

omit [DecidableEq τ] in
lemma reads_removeChild {n : BTreeNode} (hn : n.Valid) (hl : n.isLeaf = false) (key : Key) :
    n.Reads (PageRead.removeChild key) (rank n.keys key, n.view.childFor key) := by
  refine (hn.reads_lowerBound key).bind ?_
  have hcount : n.Reads (PageRead.fetch .count) n.count := BTreeNode.Reads.fetch (by decide)
  refine hcount.bind ?_
  rw [hn.childFor_eq hl]
  have hle : rank n.keys key ≤ n.count := by simpa using rank_le_length n.keys key
  dsimp only
  by_cases heq : rank n.keys key = n.count
  · have hlink : n.Reads (PageRead.fetch .link) n.link := BTreeNode.Reads.fetch (by decide)
    rw [if_pos heq, if_neg (by omega)]
    exact hlink.bind (BTreeNode.Reads.pure _)
  · rw [if_neg heq, if_pos (by omega)]
    exact (hn.reads_getChild hl (by omega)).bind (BTreeNode.Reads.pure _)

/-- The loop of `remove` ends at the leaf that covers the key. -/
lemma runs_descendWithSlot (h : Solo env t [] s) (hs : Planted s) (hf : 0 < env.fuel)
    {parent node : GuardO} {pos : Nat} (hp : Current s parent) (hn : Current s node)
    (hpath : OnPath s.tree key parent.pid node.pid l) (hpos : SlotOf s key parent.pid pos)
    (hfuel : l < fuel) :
    Runs t c P F (BTree.descendWithSlot env key parent node pos fuel) s
      (fun g s' => s = s' ∧ Current s g.1 ∧ Current s g.2.1 ∧
        OnPath s.tree key g.1.pid g.2.1.pid 0 ∧ SlotOf s key g.1.pid g.2.2) := by
  induction l generalizing parent node pos fuel with
  | zero =>
    obtain ⟨n, rfl⟩ : ∃ n, fuel = n + 1 := ⟨fuel - 1, by omega⟩
    refine (h.calm.runs_readPage BTreeNode.reads_isInner).bind ?_
    rintro inner _ ⟨rfl, rfl⟩
    rw [Calm.isInner_eq hs hpath.level]
    exact Runs.pure ⟨rfl, hp, hn, hpath, hpos⟩
  | succ l ih =>
    obtain ⟨n, rfl⟩ : ∃ n, fuel = n + 1 := ⟨fuel - 1, by omega⟩
    have hvalid : (s.page node.pid).Valid := hs.inv.valid _ _ hpath.level
    refine (h.calm.runs_readPage BTreeNode.reads_isInner).bind ?_
    rintro inner _ ⟨rfl, rfl⟩
    rw [Calm.isInner_eq hs hpath.level]
    refine (h.calm.runs_readPage (reads_removeChild hvalid
      (Calm.isLeaf_inner hs hpath.level) key)).onThrow.bind ?_
    rintro _ _ ⟨rfl, rfl⟩
    refine (h.calm.runs_check hp false).onThrow.bind ?_
    rintro _ _ rfl
    obtain ⟨hcl, hck⟩ := hs.inv.childFor hpath.level hpath.covers
    refine (h.calm.runs_ofParent (hs.alloc _ _ hcl) (by simp) hf hn).onThrow.bind ?_
    rintro child _ ⟨rfl, rfl⟩
    exact ih hn (Current.mk _ _) ⟨hcl, hck, Or.inr ⟨hpath.level, hpath.covers, rfl⟩⟩ (Or.inr rfl)
      (by omega)

/-- What `underfull` promises when it says yes. -/
lemma runs_underfull (h : Solo env t [] s) {parent node : GuardO} {pos slotId : Nat}
    (hslot : slotId < maxSlots) :
    Runs t c P F (BTree.underfull parent node pos slotId) s (fun b s' => s = s' ∧
      (b = true → parent.pid ≠ metadataPageId ∧ pos + 1 < (s.page parent.pid).count)) := by
  obtain ⟨-, h2, h3, -⟩ := BTreeNode.inPage_slot hslot
  have hsize : (s.page node.pid).Reads (do
      let keyLen ← PageRead.fetch (.slotKeyLen slotId)
      let payloadLen ← PageRead.fetch (.slotPayloadLen slotId)
      pure (keyLen + payloadLen)) _ :=
    (BTreeNode.Reads.fetch h2).bind ((BTreeNode.Reads.fetch h3).bind (BTreeNode.Reads.pure _))
  refine (h.calm.runs_readPage hsize).bind ?_
  rintro _ _ ⟨rfl, rfl⟩
  refine (h.calm.runs_readPage BTreeNode.reads_freeSpaceAfterCompaction).bind ?_
  rintro _ _ ⟨rfl, rfl⟩
  have hcount : (s.page parent.pid).Reads (PageRead.fetch .count) (s.page parent.pid).count :=
    BTreeNode.Reads.fetch (by decide)
  have hpair : (s.page parent.pid).Reads (do
      let count ← PageRead.fetch .count
      if 2 ≤ count then
        let count ← PageRead.fetch .count
        pure (decide (pos + 1 < count))
      else
        pure false)
      (if 2 ≤ (s.page parent.pid).count then decide (pos + 1 < (s.page parent.pid).count)
        else false) := by
    refine hcount.bind ?_
    split
    · exact hcount.bind (BTreeNode.Reads.pure _)
    · exact BTreeNode.Reads.pure _
  split
  · rename_i hcond
    refine (h.calm.runs_readPage hpair).mono ?_
    rintro b _ ⟨rfl, rfl⟩
    refine ⟨rfl, fun hb => ⟨hcond.2, ?_⟩⟩
    split at hb
    · exact of_decide_eq_true hb
    · cases hb
  · exact Runs.pure ⟨rfl, fun hb => by cases hb⟩

lemma runs_removeSlot (h : Solo env t X s) (hs : Planted s) (hp : s.tree.level p = some 0)
    {i : Nat} (hi : i < (s.page p).count) (hkey : (s.page p).fullKey i = key) :
    Runs t c P F (Program.op (S := signature) (.removeSlot p i)) s (fun _ s' =>
      Solo env t X s' ∧ Planted s' ∧ (∀ k v, s'.tree.Holds k v ↔ Removed s.tree key k v) ∧
        s'.splitOrdered = s.splitOrdered ∧ s'.allocCount = s.allocCount ∧ s'.word = s.word ∧
        s'.tree = s.tree.setPage p ((s.page p).removeSlot i)) := by
  obtain ⟨hn, hinv, hholds⟩ := hs.inv.removeSlot hp hi
  refine Runs.op (.removeSlot p i) h.crashed rfl (fun _ => hn) (fun _ => ?_)
  refine ⟨((h.setPage p _).record _).change, ⟨hinv, hs.alloc, hs.height⟩, ?_, rfl, rfl, rfl, rfl⟩
  intro k v
  refine (hholds k v).trans ?_
  rw [show (s.tree.page p).fullKey i = key from hkey]
  rfl

lemma runs_mergeNodes (h : Solo env t X s) (hs : Planted s) {q z : PID} {i : Nat}
    (hq : s.tree.level q = some 1) (hi : i + 1 < (s.page q).count)
    (hp : (s.page q).getChild i = p) (hz : (s.page q).getChild (i + 1) = z) :
    Runs t c P F (Program.op (S := signature) (.mergeNodes p i q z)) s (fun _ s' =>
      Solo env t X s' ∧ Planted s' ∧ (∀ k v, s'.tree.Holds k v ↔ s.tree.Holds k v) ∧
        s'.splitOrdered = s.splitOrdered ∧ s'.allocCount = s.allocCount) := by
  have hmem : ∀ {l : Nat}, s.tree.level p = some l → (s.page p).Valid := fun h => hs.inv.valid p _ h
  obtain ⟨es, a, b, fs, -, -, hsib⟩ := hs.inv.siblings hq hi
  rw [show (s.tree.page q).getChild i = p from hp,
    show (s.tree.page q).getChild (i + 1) = z from hz] at hsib
  obtain ⟨-, -, hzq⟩ := hsib.distinct hs.inv
  rcases hs.inv.mergeNodes hq hi hp hz with heq | ⟨l, n, heq, hl, hn, hinv, hholds⟩
  · have hexec : s.mergeNodes t p i q z = (false, s) := by
      rw [Sys.mergeNodes, show (s.page p).mergeNodes p i (s.page q) (s.page z) = _ from heq]
    refine Runs.op (.mergeNodes p i q z) h.crashed (congrArg some hexec)
      (fun _ => ⟨false, _, _, heq, hmem (hsib.childOk hs.inv).1.1, hs.inv.valid q _ hq⟩)
      (fun _ => ?_)
    exact ⟨h, hs, fun _ _ => Iff.rfl, rfl, rfl⟩
  · have hexec : s.mergeNodes t p i q z =
        (true, (((s.setPage p l).setPage q n).setLevel z none).change t) := by
      rw [Sys.mergeNodes, show (s.page p).mergeNodes p i (s.page q) (s.page z) = _ from heq]
    refine Runs.op (.mergeNodes p i q z) h.crashed (congrArg some hexec)
      (fun _ => ⟨true, l, n, heq, hl, hn⟩) (fun _ => ?_)
    have htree : ((((s.setPage p l).setPage q n).setLevel z none).change t).tree =
        s.tree.mergePages p z q l n := rfl
    refine ⟨(((h.setPage p l).setPage q n).setLevel z none).change, ⟨hinv, ?_, ?_⟩, hholds, ?_⟩
    · intro x k hx
      rw [htree] at hx
      exact hs.alloc x k (Tree.MergeStep.level_old hx).2
    · intro k hk
      rw [htree] at hk
      exact hs.height k (Tree.MergeStep.level_old hk).2
    · simp only [Sys.change, Sys.setLevel, Sys.setPage, and_self]

/-- What is known of the leaf when `remove` has found the key. -/
structure Found (s : Sys τ) (key : Key) (parent node : GuardO) (pos slotId : Nat) : Prop where
  currentParent : Current s parent
  currentNode : Current s node
  path : OnPath s.tree key parent.pid node.pid 0
  pos : SlotOf s key parent.pid pos
  slot : slotId < (s.page node.pid).count
  key : (s.page node.pid).fullKey slotId = key

omit [DecidableEq τ] in
lemma OnPath.parent_ne (hs : Planted s) {parent node : PID} {j : Nat}
    (hpath : OnPath s.tree key parent node j) : parent ≠ node := by
  rcases hpath.parent with ⟨h1, -⟩ | ⟨h1, -, -⟩
  · rw [h1]
    exact (hs.inv.bound _ _ hpath.level).1.ne
  · intro heq
    rw [heq, hpath.level, Option.some.injEq] at h1
    omega

lemma runs_removeOnly (hA : Assumed env P F) (h : Solo env t [] s) (hs : Planted s)
    (hf : 0 < env.fuel) {parent node : GuardO} {pos slotId : Nat}
    (hfound : Found s key parent node pos slotId) :
    Runs t c P F (BTree.removeOnly env parent node slotId) s
      (fun _ s' => Becomes env t 0 (Removed s.tree key) s s') := by
  have hlevel := hfound.path.level
  refine (h.runs_upgrade (hs.alloc _ _ hlevel) (by simp) hf hfound.currentNode).onThrow.bind ?_
  rintro _ s1 ⟨rfl, hsolo1, hkept1, hword1⟩
  have hne := OnPath.parent_ne hs hfound.path
  refine (hsolo1.calm.runs_check (hfound.currentParent.trans (hword1 _ hne).symm) false).onThrow.bind ?_
  rintro _ _ rfl
  have htree := hkept1.tree
  have hpage : s1.page = s.page := congrArg Tree.page htree
  refine (hsolo1.runs_removeSlot (hs.kept hkept1) (htree.symm ▸ hlevel) (hpage.symm ▸ hfound.slot)
    (hpage.symm ▸ hfound.key)).bind ?_
  rintro _ s2 ⟨hsolo2, hs2, hholds2, hord2, hcount2, -, -⟩
  refine (hsolo2.runs_unfixX hA (by simp)).mono ?_
  rintro _ s3 ⟨hsolo3, hkept3⟩
  refine ⟨hsolo3, hs2.kept hkept3, ?_, ?_, ?_⟩
  · intro k v
    rw [hkept3.tree, hholds2, htree]
  · rw [hkept3.splitOrdered, hord2, hkept1.splitOrdered]
  · rw [hkept3.allocCount, hcount2, hkept1.allocCount]
    exact le_rfl

lemma runs_unlockThree (hA : Assumed env P F) {a b d : PID} (h : Solo env t [a, b, d] s)
    (hab : a ≠ b) (had : a ≠ d) (hbd : b ≠ d) :
    Runs t c P F (do
      BufferManager.unfixX a
      BufferManager.unfixX b
      BufferManager.unfixX d) s (fun _ s' => Solo env t [] s' ∧ Kept s s') := by
  refine (h.runs_unfixX hA (by simp [hab, had])).bind ?_
  rintro _ s1 ⟨hsolo1, hkept1⟩
  refine (hsolo1.runs_unfixX hA (by simpa using hbd)).bind ?_
  rintro _ s2 ⟨hsolo2, hkept2⟩
  refine (hsolo2.runs_unfixX hA (by simp)).mono ?_
  rintro _ s3 ⟨hsolo3, hkept3⟩
  exact ⟨hsolo3, (hkept1.trans hkept2).trans hkept3⟩

lemma runs_removeAndMerge (hA : Assumed env P F) (h : Solo env t [] s) (hs : Planted s)
    (hf : 0 < env.fuel) {parent node : GuardO} {pos slotId : Nat}
    (hfound : Found s key parent node pos slotId) (hmeta : parent.pid ≠ metadataPageId)
    (hcount : pos + 1 < (s.page parent.pid).count) :
    Runs t c P F (BTree.removeAndMerge env parent node pos slotId) s
      (fun _ s' => Becomes env t 0 (Removed s.tree key) s s') := by
  have hlevel := hfound.path.level
  obtain ⟨hq, hcov, hchild⟩ := hfound.path.parent.resolve_left (fun h => hmeta h.1)
  have hpos := hfound.pos.resolve_left hmeta
  have hvalid : (s.page parent.pid).Valid := hs.inv.valid _ _ hq
  have hget : (s.page parent.pid).getChild pos = node.pid := by
    have heq := hvalid.childFor_eq (Calm.isLeaf_inner hs hq) key
    rw [← hpos, if_pos (by omega)] at heq
    exact heq.symm.trans hchild
  obtain ⟨es, a, b, fs, -, -, hsib⟩ := hs.inv.siblings hq hcount
  obtain ⟨z, hz⟩ : ∃ z, (s.page parent.pid).getChild (pos + 1) = z := ⟨_, rfl⟩
  rw [show (s.tree.page parent.pid).getChild pos = _ from hget,
    show (s.tree.page parent.pid).getChild (pos + 1) = _ from hz] at hsib
  obtain ⟨hnz, hnp, hzp⟩ := hsib.distinct hs.inv
  have hzl : s.tree.level z = some 0 := (hsib.childOk hs.inv).2.1
  refine (h.runs_upgrade (hs.alloc _ _ hq) (by simp) hf hfound.currentParent).onThrow.bind ?_
  rintro _ s1 ⟨rfl, hsolo1, hkept1, hword1⟩
  refine (hsolo1.runs_upgrade (hkept1.allocCount ▸ hs.alloc _ _ hlevel) (by simpa using hnp) hf
    (hfound.currentNode.trans (hword1 _ hnp).symm)).onThrow.bind ?_
  rintro _ s2 ⟨rfl, hsolo2, hkept2, -⟩
  have hkept := hkept1.trans hkept2
  refine (Runs.view parent.pid hsolo2.crashed).bind ?_
  rintro q _ ⟨rfl, rfl⟩
  have hpage2 : s2.page = s.page := congrArg Tree.page hkept.tree
  rw [hpage2, hz]
  refine (hsolo2.runs_fixX (hkept.allocCount ▸ hs.alloc _ _ hzl) (by simp [hnz.symm, hzp]) hf).bind ?_
  rintro _ s3 ⟨rfl, hsolo3, hkept3⟩
  replace hkept := hkept.trans hkept3
  have htree3 := hkept.tree
  have hpage3 : s3.page = s.page := congrArg Tree.page htree3
  have hs3 := hs.kept hkept
  refine (hsolo3.runs_removeSlot hs3 (htree3.symm ▸ hlevel) (hpage3.symm ▸ hfound.slot)
    (hpage3.symm ▸ hfound.key)).bind ?_
  rintro _ s4 ⟨hsolo4, hs4, hholds4, hord4, hcount4, -, htree4⟩
  refine (Runs.view _ hsolo4.crashed).bind ?_
  rintro right _ ⟨rfl, rfl⟩
  have hpar4 : s4.page parent.pid = s.page parent.pid := by
    have heq := congrArg (fun T : Tree => T.page parent.pid) htree4
    refine heq.trans ((Function.update_of_ne hnp.symm _ _).trans ?_)
    exact congrFun hpage3 _
  have hq4 : s4.tree.level parent.pid = some 1 := by
    have heq := congrArg (fun T : Tree => T.level parent.pid) (htree4.trans rfl)
    exact heq.trans ((congrArg (fun T : Tree => T.level parent.pid) htree3).trans hq)
  have hrest : ∀ s5, Solo env t [z, node.pid, parent.pid] s5 ∧ Planted s5 ∧
      (∀ k v, s5.tree.Holds k v ↔ s4.tree.Holds k v) ∧ s5.splitOrdered = s4.splitOrdered ∧
      s5.allocCount = s4.allocCount → Runs t c P F (do
        BufferManager.unfixX z
        BufferManager.unfixX node.pid
        BufferManager.unfixX parent.pid) s5
        (fun _ s' => Becomes env t 0 (Removed s.tree key) s s') := by
    rintro s5 ⟨hsolo5, hs5, hholds5, hord5, hcount5⟩
    refine (hsolo5.runs_unlockThree hA hnz.symm hzp hnp).mono ?_
    rintro _ s6 ⟨hsolo6, hkept6⟩
    refine ⟨hsolo6, hs5.kept hkept6, ?_, ?_, ?_⟩
    · intro k v
      rw [hkept6.tree, hholds5, hholds4, htree3]
    · rw [hkept6.splitOrdered, hord5, hord4, hkept.splitOrdered]
    · rw [hkept6.allocCount, hcount5, hcount4, hkept.allocCount]
      exact le_rfl
  dsimp only
  split
  · refine (hsolo4.runs_mergeNodes hs4 hq4 ?_ ?_ ?_).bind ?_
    · rw [hpar4]
      exact hcount
    · rw [hpar4]
      exact hget
    · rw [hpar4]
      exact hz
    · intro b s5 h5
      exact hrest s5 h5
  · exact hrest s4 ⟨hsolo4, hs4, fun _ _ => Iff.rfl, rfl, rfl⟩

lemma runs_removeAttempt (hA : Assumed env P F) (h : Solo env t [] s) (hs : Planted s)
    (hl : s.tree.level s.tree.root = some l) (hf : l < env.fuel) :
    Runs t c P F (BTree.removeAttempt env key) s (fun r s' =>
      Becomes env t 0 (Removed s.tree key) s s' ∧ (r = true ↔ ∃ v, s.tree.Holds key v)) := by
  refine (h.calm.runs_openRoot hs (by omega)).bind ?_
  rintro ⟨parent, node⟩ _ ⟨rfl, hp, hc, hpm, hnr⟩
  have hroot := onPath_root hs hl key
  rw [← hpm, ← hnr] at hroot
  refine (h.runs_descendWithSlot hs (by omega) hp hc hroot (Or.inl hpm) hf).bind ?_
  rintro ⟨parent', node', pos⟩ _ ⟨rfl, hp', hc', hpath, hpos⟩
  dsimp only at hp' hc' hpath hpos ⊢
  have hvalid : (s.page node'.pid).Valid := hs.inv.valid _ _ hpath.level
  refine (h.calm.runs_readPage (hvalid.reads_lowerBound key)).onThrow.bind ?_
  rintro _ _ ⟨rfl, rfl⟩
  rcases hs.search hpath.level hpath.covers with ⟨hmem, hlt, hfull, hhold⟩ | ⟨hmem, hno⟩
  · dsimp only
    rw [if_pos (decide_eq_true hmem)]
    have hfound : Found s key parent' node' pos (rank (s.page node'.pid).keys key) :=
      ⟨hp', hc', hpath, hpos, hlt, hfull⟩
    refine (h.runs_underfull (lt_of_lt_of_le hlt hvalid.count_le)).bind ?_
    rintro b _ ⟨rfl, hb⟩
    cases b with
    | true =>
      obtain ⟨hmeta, hcount⟩ := hb rfl
      refine (h.runs_removeAndMerge hA hs (by omega) hfound hmeta hcount).bind ?_
      intro _ s1 h1
      exact Runs.pure ⟨h1, iff_of_true rfl ⟨_, hhold⟩⟩
    | false =>
      refine (h.runs_removeOnly hA hs (by omega) hfound).bind ?_
      intro _ s1 h1
      exact Runs.pure ⟨h1, iff_of_true rfl ⟨_, hhold⟩⟩
  · dsimp only
    rw [if_neg (by simpa using hmem)]
    refine Runs.bind (Q := fun _ s' => s = s') ?_ ?_
    · refine (h.calm.runs_check hc' false).onThrow.bind ?_
      rintro _ _ rfl
      exact h.calm.runs_check hp' false
    · rintro _ _ rfl
      refine Runs.pure ⟨⟨h, hs, ?_, rfl, le_rfl⟩, iff_of_false (by simp) (by simpa using hno)⟩
      intro k v
      refine ⟨fun hv => ⟨?_, hv⟩, And.right⟩
      rintro rfl
      exact hno v hv

theorem runs_remove (hA : Assumed env P F) (h : Solo env t [] s) (hs : Planted s)
    (hl : s.tree.level s.tree.root = some l) (hf : l < env.fuel) :
    Runs t c P F (BTree.remove env key) s (fun r s' =>
      Becomes env t 0 (Removed s.tree key) s s' ∧ (r = true ↔ ∃ v, s.tree.Holds key v)) := by
  obtain ⟨n, hn⟩ : ∃ n, env.fuel = n + 1 := ⟨env.fuel - 1, by omega⟩
  unfold BTree.remove
  rw [hn]
  refine h.runs_retry_once (fun s1 hsolo1 hkept1 => ?_)
  have htree := hkept1.tree
  refine (hsolo1.runs_removeAttempt hA (hs.kept hkept1) (htree.symm ▸ hl) hf).mono ?_
  rintro r s2 ⟨hb, hr⟩
  rw [htree] at hb hr
  exact ⟨hb.solo.crashed, fun f => ⟨(hb.kept hkept1).marks f, hr⟩⟩

end Solo

end MemSafeDB
