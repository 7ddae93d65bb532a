import MemSafeDB.BTree.Bounds
import MemSafeDB.BTree.View

/-!
# Accounting for the bytes of a page

Fences, insertion, removal and compaction keep the books of a page, whatever its keys are: the
used bytes are counted, the extents lie apart, and the slots end before the data. So one
compaction makes all bytes free that are not used.
-/

namespace MemSafeDB
open Lib

namespace BTreeNode

/-! ## Fresh pages -/

/-- A page without entries as `setFences` leaves it. -/
structure Fresh (n : BTreeNode) (isLeaf : Bool) (lower upper : Key) : Prop where
  isLeaf : n.isLeaf = isLeaf
  link : n.link = noNeighbour
  count : n.count = 0
  filled : n.Filled 0 []
  lower_eq : n.getLowerFence = lower
  upper_eq : n.getUpperFence = upper
  prefixLen : n.prefixLen = commonLen lower upper
  dataOffset : n.dataOffset = pageSize - (lower.length + upper.length)

lemma insertFence_eq (n : BTreeNode) (key : Key) (hc : n.count = 0)
    (hroom : n.dataOffset + n.spaceUsed ≤ pageSize)
    (hfit : headerSize + key.length ≤ n.dataOffset) :
    n.insertFence key = .ok (⟨n.dataOffset - key.length, key.length⟩,
      { n with
        dataOffset := n.dataOffset - key.length
        spaceUsed := n.spaceUsed + key.length
        bytes := n.bytes.write (n.dataOffset - key.length) key }) := by
  simp only [headerSize, pageSize] at *
  have hfree : n.freeSpace = n.dataOffset - 104 := by
    rw [freeSpace, hc, slotPos_eq]
    exact u32_eq (by omega) (by omega)
  have hoff : u16 ((n.dataOffset : Int) - key.length) = n.dataOffset - key.length :=
    u16_eq (by omega) (by omega)
  have hused : u16 ((n.spaceUsed : Int) + key.length) = n.spaceUsed + key.length :=
    u16_eq (by omega) (by omega)
  have hlen : u16 (key.length : Int) = key.length := u16_eq rfl (by omega)
  have hle : key.length ≤ n.dataOffset - 104 := by omega
  have hin : n.dataOffset - key.length + key.length ≤ 4096 := by omega
  simp only [insertFence, check, hfree, hle, ite_true, hoff, hused, hlen, storeBytes, hin,
    bind, Except.bind, pure, Except.pure, pageSize]

/-- The upper fence is stored below the lower fence. -/
def FencesApart (n : BTreeNode) : Prop :=
  n.upperFence.offset + n.upperFence.len ≤ n.lowerFence.offset

/-- Fences that fit behind the header can be stored on a new page. -/
lemma setFences_eq (b : Bool) (lower upper : Key)
    (hfit : headerSize + lower.length + upper.length ≤ pageSize) :
    ∃ n, (new b).setFences lower upper = .ok n ∧ n.Fresh b lower upper ∧ n.FencesApart := by
  simp only [headerSize, pageSize] at hfit
  have h1 := insertFence_eq (new b) lower rfl (by simp [new])
    (by simp only [new, headerSize, pageSize]; omega)
  have h2 := insertFence_eq
    { new b with
      dataOffset := pageSize - lower.length
      spaceUsed := 0 + lower.length
      bytes := (new b).bytes.write (pageSize - lower.length) lower
      lowerFence := ⟨pageSize - lower.length, lower.length⟩ } upper rfl
    (by simp only [pageSize]; omega) (by simp only [headerSize, pageSize]; omega)
  refine ⟨_, by
    rw [setFences, h1]
    simp only [bind, Except.bind]
    rw [show (new b).dataOffset = pageSize from rfl, show (new b).spaceUsed = 0 from rfl, h2]
    rfl, ?_⟩
  have hlower : (((new b).bytes.write (pageSize - lower.length) lower).write
      (pageSize - lower.length - upper.length) upper).read (pageSize - lower.length)
        lower.length = lower := by
    rw [Memory.read_write_of_disjoint _ (Or.inr (by simp only [pageSize]; omega))]
    exact Memory.read_write_same _ _ _
  refine ⟨⟨rfl, rfl, rfl, ⟨⟨?_, ?_, ?_, ?_, ?_, ?_, ?_, ?_, ?_, ?_, ?_⟩, rfl⟩, hlower,
    Memory.read_write_same _ _ _, rfl, ?_⟩, ?_⟩
  · simp only [heap, pageSize]
    omega
  · simp only [heap, slotPos_eq, firstn, pageSize]
    simp
    omega
  · simp [heap, firstn]
  · exact commonLen_le_left lower upper
  · refine ⟨Or.inr ?_, ?_⟩
    · simp only [heap]
      omega
    · simp only [heap, pageSize]
      omega
  · refine ⟨Or.inr le_rfl, ?_⟩
    simp only [heap, pageSize]
    omega
  · simp [firstn]
  · simp [firstn]
  · simp [firstn]
  · simp [firstn]
  · simp [firstn]
  · simp only [pageSize]
    omega
  · simp only [FencesApart, pageSize]
    omega

lemma insertFence_fits {n : BTreeNode} {key : Key} {r : FenceKeySlot × BTreeNode}
    (hc : n.count = 0) (hroom : n.dataOffset ≤ pageSize) (hbase : headerSize ≤ n.dataOffset)
    (h : n.insertFence key = .ok r) : headerSize + key.length ≤ n.dataOffset := by
  simp only [headerSize, pageSize] at *
  have hfree : n.freeSpace = n.dataOffset - 104 := by
    rw [freeSpace, hc, slotPos_eq]
    exact u32_eq (by omega) (by omega)
  by_contra hgt
  have hle : ¬key.length ≤ n.dataOffset - 104 := by omega
  simp only [insertFence, check, hfree, hle, ite_false, bind, Except.bind, reduceCtorEq] at h

/-- `setFences` fails on fences that do not fit. -/
lemma setFences_fits {b : Bool} {lower upper : Key} {n : BTreeNode}
    (h : (new b).setFences lower upper = .ok n) :
    headerSize + lower.length + upper.length ≤ pageSize := by
  simp only [setFences, bind, Except.bind] at h
  split at h
  · cases h
  rename_i r1 h1
  have hfit1 := insertFence_fits rfl le_rfl (show 104 ≤ 4096 by decide) h1
  change headerSize + lower.length ≤ pageSize at hfit1
  rw [insertFence_eq (new b) lower rfl (by simp [new]) hfit1] at h1
  cases h1
  split at h
  · cases h
  rename_i r2 h2
  have hfit2 := insertFence_fits rfl (by simp only [new, pageSize]; omega)
    (by simp only [new, headerSize, pageSize] at hfit1 ⊢; omega) h2
  simp only [new, headerSize, pageSize] at hfit1 hfit2 ⊢
  omega

/-! ## Hints -/

lemma hintsUpToDate_makeHint (n : BTreeNode) : n.makeHint.HintsUpToDate := by
  intro _ i hi
  simp only [makeHint, hi, ite_true]

@[simp] lemma view_makeHint (n : BTreeNode) : n.makeHint.view = n.view := rfl

/-- The hints that an update leaves out sample slots before the new one. -/
lemma sample_before {slotId dist i : Nat} (hq : 1 < slotId / dist) (hi : i < slotId / dist - 1) :
    dist * (i + 1) < slotId := by
  have hmul : dist * (slotId / dist) ≤ slotId := Nat.mul_div_le _ _
  have hdist : 0 < dist := by
    rcases Nat.eq_zero_or_pos dist with hz | hz
    · rw [hz, Nat.div_zero] at hq
      omega
    · exact hz
  have hstep : dist * (i + 1) + dist ≤ dist * (slotId / dist) := by
    rw [← Nat.mul_succ]
    exact Nat.mul_le_mul_left dist (by omega)
  omega

/-- Adding slot `slotId` keeps the hints up to date when they are updated from there on. -/
lemma hintsUpToDate_updateHint {n : BTreeNode} (hn : n.HintsUpToDate) {slotId : Nat} {s : Slot} :
    ({ n with
        slot := Function.update (moveUp n.slot slotId n.count) slotId s
        count := n.count + 1 } : BTreeNode).updateHint slotId |>.HintsUpToDate := by
  intro hc i hi
  simp only [updateHint] at hc ⊢
  by_cases hb : hintCount * 2 + 1 < n.count + 1 ∧
      (n.count + 1 - 1) / (hintCount + 1) = (n.count + 1) / (hintCount + 1) ∧
      1 < slotId / ((n.count + 1) / (hintCount + 1))
  · simp only [hb, and_self, ite_true]
    by_cases hge : slotId / ((n.count + 1) / (hintCount + 1)) - 1 ≤ i
    · simp only [hge, hi, and_self, ite_true]
    · simp only [hge, false_and, ite_false]
      obtain ⟨h1, h2, h3⟩ := hb
      rw [Nat.add_sub_cancel] at h2
      have hold := hn (by omega) i hi
      rw [h2] at hold
      set d := (n.count + 1) / (hintCount + 1) with hd
      have hpos := sample_before h3 (not_le.mp hge)
      rw [hold, Function.update_of_ne (by omega), moveUp]
      congr 1
      rw [if_neg (by omega)]
  · simp only [hb, ite_false, Nat.zero_le, hi, and_self, ite_true]

/-! ## Compaction -/

/-- The fences of two pages are stored at the same place. -/
def SameFences (n n' : BTreeNode) : Prop :=
  n'.lowerFence = n.lowerFence ∧ n'.upperFence = n.upperFence

lemma SameFences.apart {n n' : BTreeNode} (h : SameFences n n') (hn : n.FencesApart) :
    n'.FencesApart := by
  unfold FencesApart
  rw [h.1, h.2]
  exact hn

lemma sameFences_storeBytes {n n' : BTreeNode} {off : Nat} {bs : List Byte}
    (h : n.storeBytes off bs = .ok n') : SameFences n n' := by
  unfold storeBytes at h
  split at h
  · cases h
    exact ⟨rfl, rfl⟩
  · cases h

lemma sameFences_storeKeyValue {n n' : BTreeNode} {i : Nat} {key payload : Key}
    (h : n.storeKeyValue i key payload = .ok n') : SameFences n n' := by
  simp only [storeKeyValue, bind, Except.bind] at h
  split at h
  · cases h
  · split at h
    · cases h
    · have hsame := sameFences_storeBytes h
      exact ⟨hsame.1, hsame.2⟩

lemma sameFences_copyStep {n dst dst' : BTreeNode} {i j : Nat}
    (h : n.copyStep i dst j = .ok dst') : SameFences dst dst' := by
  unfold copyStep at h
  split at h
  · have hsame := sameFences_storeBytes h
    exact ⟨hsame.1, hsame.2⟩
  · exact sameFences_storeKeyValue h

lemma sameFences_copyLoop {n : BTreeNode} (rest : Nat) {dst dst' : BTreeNode} {i j : Nat}
    (h : n.copyLoop rest dst j i = .ok dst') : SameFences dst dst' := by
  induction rest generalizing dst i j with
  | zero =>
    cases h
    exact ⟨rfl, rfl⟩
  | succ rest ih =>
    simp only [copyLoop, bind, Except.bind] at h
    split at h
    · cases h
    · rename_i d hd
      have h1 := sameFences_copyStep hd
      have h2 := ih h
      exact ⟨h2.1.trans h1.1, h2.2.trans h1.2⟩

lemma sameFences_copyKeyValueRange {n dst dst' : BTreeNode} {i j c : Nat}
    (h : n.copyKeyValueRange dst j i c = .ok dst') : SameFences dst dst' := by
  simp only [copyKeyValueRange, bind, Except.bind, pure, Except.pure] at h
  split at h
  · cases h
  rename_i d hd
  split at h
  · cases h
  cases h
  have hsame := sameFences_copyLoop c hd
  exact ⟨hsame.1, hsame.2⟩

namespace Accounted

variable {n : BTreeNode}

lemma source (hn : n.Accounted) {i : Nat} (hi : i < n.entries.length) :
    n.Source i n.entries[i] := by
  have hs := hn.layout.slots _ (mem_firstn.mpr ⟨i, by simpa using hi, rfl⟩)
  refine ⟨?_, ?_, hs.2⟩
  · simp only [entries_eq, List.getElem_map, slots, getElem_firstn]
  · have hp := hn.prefixLen_le
    have hf := hn.layout.lower.2
    change n.lowerFence.offset + n.lowerFence.len ≤ pageSize at hf
    omega

/-- The entries of a range of slots are the sources of a copy. -/
lemma sources (hn : n.Accounted) (i len : Nat) :
    ∀ k (h : k < ((n.entries.drop i).take len).length),
      n.Source (i + k) ((n.entries.drop i).take len)[k] := by
  intro k hk
  have hlen : i + k < n.entries.length := by
    simp only [List.length_take, List.length_drop] at hk
    omega
  have hsrc := hn.source hlen
  simpa only [List.getElem_take, List.getElem_drop] using hsrc

/-- Copying all entries of a page to a fresh page whose prefix they have. -/
lemma copy_all {dst : BTreeNode} (hn : n.Accounted) {b : Bool} {lower upper : Key}
    (hf : dst.Fresh b lower upper) (ht : dst.Target n.entries)
    (hfit : slotPos n.count + (lower.length + upper.length) +
      entriesSpace (commonLen lower upper) n.entries ≤ pageSize) :
    ∃ dst', n.copyKeyValueRange dst 0 0 n.count = .ok dst' ∧ Copied dst [] n.entries dst' := by
  have hfill : dst.Filled dst.count [] := hf.count ▸ hf.filled
  have hsrc := hn.sources 0 n.count
  rw [List.drop_zero, List.take_of_length_le (by simp)] at hsrc
  have hcopy := copyKeyValueRange_eq hsrc hfill ht (by
    rw [hf.count, hf.prefixLen, hf.dataOffset, length_entries, Nat.zero_add]
    omega)
  rw [hf.count, length_entries] at hcopy
  exact hcopy

lemma entry_space_le (hn : n.Accounted) {e : Key × Key} (he : e ∈ n.entries) :
    n.getPrefix <+: e.1 ∧ e.1.length ≤ pageSize ∧ e.2.length ≤ pageSize := by
  rw [entries_eq, List.mem_map] at he
  obtain ⟨s, hs, rfl⟩ := he
  obtain ⟨i, hi, rfl⟩ := List.mem_iff_getElem.mp hs
  have hroom := hn.layout.room
  have hused := hn.layout.used
  have hpfx := hn.layout.pfx
  have hsum := Layout.sum_space_eraseIdx hi
  rw [Slot.space] at hsum
  refine ⟨⟨n.heap.suffix n.slots[i], rfl⟩, ?_, ?_⟩
  · simp only [Heap.entry, List.length_append, Heap.length_pfx, Heap.length_suffix]
    omega
  · simp only [Heap.entry, Heap.length_payload]
    omega

/-- A fresh page with the same fences takes the entries of a page. -/
lemma target {dst : BTreeNode} (hn : n.Accounted) {b : Bool}
    (hf : dst.Fresh b n.getLowerFence n.getUpperFence) : dst.Target n.entries := by
  have hlen : dst.prefixLen = n.prefixLen := hf.prefixLen.trans hn.prefixLen.symm
  have hpfx : dst.heap.pfx = n.getPrefix := by
    rw [dst.heap.pfx_eq_take hf.filled.layout.pfx, hn.getPrefix_eq, ← hlen, ← hf.lower_eq]
    rfl
  refine ⟨fun e he => ?_, fun e he => (hn.entry_space_le he).2, by simpa using hn.count_le⟩
  rw [HasPrefix, hpfx]
  exact (hn.entry_space_le he).1

/-- One compaction makes all bytes free that are not used, and changes no contents. -/
theorem compactify_eq (hn : n.Accounted) :
    ∃ n', n.compactify = .ok n' ∧ n'.Accounted ∧ n'.view = n.view ∧
      n'.freeSpace = n.freeSpaceAfterCompaction ∧ n'.HintsUpToDate ∧ n'.FencesApart := by
  have hsz := hn.size_le
  have hll : n.getLowerFence.length = n.lowerFence.len := by simp [getLowerFence]
  have hul : n.getUpperFence.length = n.upperFence.len := by simp [getUpperFence]
  simp only [View.size, View.spaceUsed, View.prefixLen, view_entries, length_entries, view_lower,
    view_upper] at hsz
  obtain ⟨tmp, htmp, hf, hapart⟩ := setFences_eq n.isLeaf n.getLowerFence n.getUpperFence (by
    simp only [slotPos_eq] at hsz
    simp only [headerSize]
    omega)
  obtain ⟨tmp', hcopy, hc⟩ := hn.copy_all hf (hn.target hf) (by omega)
  have hentries : tmp'.entries = n.entries := by
    rw [entries_eq]
    exact hc.filled.entries
  have hview : ({ tmp' with link := n.link } : BTreeNode).makeHint.view = n.view := by
    change View.mk tmp'.isLeaf n.link tmp'.heap.lower tmp'.heap.upper tmp'.entries = _
    rw [hc.frame.isLeaf, hf.isLeaf, hc.frame.lower, hc.frame.upper, hentries]
    change View.mk n.isLeaf n.link tmp.getLowerFence tmp.getUpperFence n.entries = _
    rw [hf.lower_eq, hf.upper_eq]
    rfl
  have hacc : ({ tmp' with link := n.link } : BTreeNode).makeHint.Accounted := by
    refine ⟨hc.filled.layout, ?_⟩
    rw [hview]
    exact hc.frame.prefixLen.trans hf.prefixLen
  have hfree : ({ tmp' with link := n.link } : BTreeNode).makeHint.freeSpace =
      n.freeSpaceAfterCompaction := by
    rw [hacc.freeSpace_eq, hn.freeSpaceAfterCompaction_eq]
    change tmp'.dataOffset - slotPos tmp'.count = _
    rw [hc.dataOffset, hc.count, hf.count, hf.dataOffset, hf.prefixLen]
    simp only [View.size, View.spaceUsed, View.prefixLen, view_entries, length_entries, view_lower,
      view_upper, Nat.zero_add]
    omega
  refine ⟨_, ?_, hacc, hview, hfree, hintsUpToDate_makeHint _, ?_⟩
  · simp only [compactify, htmp, hcopy, check, hfree, ite_true, bind, Except.bind, pure,
      Except.pure]
  · exact (sameFences_copyKeyValueRange hcopy).apart hapart

lemma makeSpace_eq (hn : n.Accounted) {needed : Nat} (h : needed ≤ n.freeSpaceAfterCompaction) :
    ∃ n', n.makeSpace needed = .ok n' ∧ n'.Accounted ∧ n'.view = n.view ∧ needed ≤ n'.freeSpace ∧
      (n.HintsUpToDate → n'.HintsUpToDate) ∧ (n.FencesApart → n'.FencesApart) := by
  unfold makeSpace
  by_cases hlt : n.freeSpace < needed
  · obtain ⟨n', hcomp, hacc, hview, hfree, hhints, hapart⟩ := hn.compactify_eq
    refine ⟨n', ?_, hacc, hview, hfree ▸ h, fun _ => hhints, fun _ => hapart⟩
    simp only [hlt, ite_true, check, h, bind, Except.bind, hcomp]
  · refine ⟨n, ?_, hn, rfl, by omega, id, id⟩
    simp only [hlt, ite_false]
    rfl

end Accounted

/-! ## Insertion -/

/-- The page with the slot of a new entry put in its place. -/
lemma insert_layout {n : BTreeNode} {ss : List Slot} {i : Nat} {key payload : Key}
    (hl : Layout n.heap ss) (hi : i ≤ ss.length) (hp : n.HasPrefix (key, payload))
    (hfit : slotPos (ss.length + 1) + entrySpace n.prefixLen (key, payload) ≤ n.dataOffset) :
    let h := n.heap.put (key.drop n.prefixLen ++ payload)
    let s := Layout.nextSlot n.heap (key.drop n.prefixLen) payload
    Layout h (ss.insertIdx i s) ∧
      (ss.insertIdx i s).map h.entry = (ss.map n.heap.entry).insertIdx i (key, payload) := by
  have hsp : entrySpace n.prefixLen (key, payload) =
      (key.drop n.prefixLen).length + payload.length := by simp [entrySpace]
  rw [hsp] at hfit
  refine ⟨hl.put hfit (List.perm_insertIdx _ _ hi), ?_⟩
  have hold : ss.map (n.heap.put (key.drop n.prefixLen ++ payload)).entry =
      ss.map n.heap.entry := by
    apply List.map_congr_left
    intro s hs
    exact hl.entry_put (by rw [List.length_append]; change _ ≤ n.dataOffset; omega) hs
  rw [List.map_insertIdx, hold, hl.entry_nextSlot (by change _ ≤ n.dataOffset; omega)]
  congr 2
  exact hp.append_drop

/-- `insertInPage` behind the search. -/
def insertAt (n : BTreeNode) (slotId : Nat) (key payload : Key) : Except Fault BTreeNode := do
  let n := { n with slot := moveUp n.slot slotId n.count }
  let n ← n.storeKeyValue slotId key payload
  let n := { n with count := u16 (n.count + 1) }
  pure (n.updateHint slotId)

lemma insertInPage_eq_bind {n m : BTreeNode} {key payload : Key} {r : Nat × Bool}
    (hm : n.makeSpace (n.spaceNeeded key.length payload.length) = .ok m)
    (hr : m.lowerBound key = .ok r) :
    n.insertInPage key payload = m.insertAt r.1 key payload := by
  simp only [insertInPage, hm, hr, bind, Except.bind]
  rfl

/-- Putting an entry at a slot adds it to the contents there. -/
theorem Accounted.insertAt_eq {m : BTreeNode} (hm : m.Accounted) {i : Nat} (hi : i ≤ m.count)
    {key payload : Key} (hpfx : m.HasPrefix (key, payload))
    (hfit : slotPos (m.count + 1) + entrySpace m.prefixLen (key, payload) ≤ m.dataOffset) :
    ∃ n', m.insertAt i key payload = .ok n' ∧ n'.Accounted ∧
      n'.view = { m.view with entries := m.entries.insertIdx i (key, payload) } ∧
      (m.HintsUpToDate → n'.HintsUpToDate) ∧ SameFences m n' := by
  -- the slots behind the new one are moved up
  set moved : BTreeNode := { m with slot := moveUp m.slot i m.count } with hmoved
  have hlen := hpfx.length_le
  have hst : moved.Storable (key, payload) := by
    have hroom := hm.layout.room
    have hused := hm.layout.used
    have hpre := hm.prefixLen_le
    change m.dataOffset + m.spaceUsed ≤ pageSize at hroom
    change m.spaceUsed = m.lowerFence.len + m.upperFence.len + _ at hused
    simp only [entrySpace] at hfit hlen
    refine ⟨hroom, ?_, ?_, hlen⟩
    · dsimp only
      omega
    · dsimp only
      omega
  have hstore := storeKeyValue_eq hst i (by
    change _ + entrySpace m.prefixLen (key, payload) ≤ m.dataOffset
    simp only [slotPos_eq] at hfit ⊢
    omega)
  have hslots : firstn (moved.putEntry i (key, payload)).slot (m.count + 1) =
      m.slots.insertIdx i (Layout.nextSlot m.heap (key.drop m.prefixLen) payload) :=
    firstn_moveUp_update m.slot _ hi
  have hcount : u16 (((moved.putEntry i (key, payload)).count : Int) + 1) = m.count + 1 := by
    have hle := hm.count_le
    change m.count ≤ 399 at hle
    exact u16_eq rfl (by omega)
  obtain ⟨hlay, hent⟩ := insert_layout hm.layout (i := i) (by simpa using hi) hpfx
    (by simpa using hfit)
  have hframe := frame_putEntry hm.layout (e := (key, payload)) (by omega) i
  set n' : BTreeNode := ({ moved.putEntry i (key, payload) with
    count := m.count + 1 } : BTreeNode).updateHint i with hn'
  have hv : n'.view = { m.view with entries := m.entries.insertIdx i (key, payload) } := by
    have hes : n'.entries = m.entries.insertIdx i (key, payload) := by
      rw [entries_eq, entries_eq m, ← hent]
      change (firstn (moved.putEntry i (key, payload)).slot (m.count + 1)).map _ = _
      rw [hslots]
      rfl
    change View.mk m.isLeaf m.link (m.putEntry i (key, payload)).heap.lower
      (m.putEntry i (key, payload)).heap.upper n'.entries = _
    rw [hes, hframe.lower, hframe.upper]
    rfl
  refine ⟨n', ?_, ⟨?_, ?_⟩, hv, fun hh => hintsUpToDate_updateHint hh, rfl, rfl⟩
  · simp only [insertAt, bind, Except.bind]
    rw [← hmoved, hstore]
    simp only [hcount, pure, Except.pure]
    rfl
  · change Layout _ (firstn (moved.putEntry i (key, payload)).slot (m.count + 1))
    rw [hslots]
    exact hlay
  · rw [hv]
    exact hm.prefixLen

/-! ## Removal -/

/-- Removing an existing slot removes its entry from the contents. -/
theorem Accounted.removeSlot_eq {n : BTreeNode} (hn : n.Accounted) {i : Nat} (hi : i < n.count) :
    (n.removeSlot i).Accounted ∧
      (n.removeSlot i).view = { n.view with entries := n.entries.eraseIdx i } := by
  have hlen : i < n.slots.length := by simpa using hi
  have hslot : n.slots[i] = n.slot i := getElem_firstn _ _ _ _
  have hle := hn.count_le
  change n.count ≤ 399 at hle
  have hcount : u16 ((n.count : Int) - 1) = n.count - 1 := u16_eq (by omega) (by omega)
  have hspace : (n.slot i).space ≤ n.spaceUsed := by
    have hsum := Layout.sum_space_eraseIdx hlen
    have hused := hn.layout.used
    rw [hslot] at hsum
    change n.spaceUsed = _ at hused
    omega
  have hroom := hn.layout.room
  change n.dataOffset + n.spaceUsed ≤ 4096 at hroom
  have hused : u16 ((u16 ((n.spaceUsed : Int) - (n.slot i).keyLen) : Int) - (n.slot i).payloadLen) =
      n.spaceUsed - (n.slot i).space := by
    simp only [Slot.space] at hspace ⊢
    have h1 : u16 ((n.spaceUsed : Int) - (n.slot i).keyLen) = n.spaceUsed - (n.slot i).keyLen :=
      u16_eq (by omega) (by omega)
    rw [h1]
    exact u16_eq (by omega) (by omega)
  have hslots : (n.removeSlot i).slots = n.slots.eraseIdx i := by
    simp only [slots, removeSlot, makeHint, hcount]
    exact firstn_moveDown n.slot hi
  have hlay := hn.layout.erase hlen
  rw [hslot] at hlay
  have hheap : (n.removeSlot i).heap =
      { n.heap with spaceUsed := n.spaceUsed - (n.slot i).space } := by
    simp only [heap, removeSlot, makeHint, hused]
  have hentries : (n.removeSlot i).entries = n.entries.eraseIdx i := by
    rw [entries_eq, entries_eq n, hslots, List.eraseIdx_map, hheap]
    rfl
  have hv : (n.removeSlot i).view = { n.view with entries := n.entries.eraseIdx i } := by
    change View.mk n.isLeaf n.link n.getLowerFence n.getUpperFence (n.removeSlot i).entries = _
    rw [hentries]
    rfl
  refine ⟨⟨?_, ?_⟩, hv⟩
  · rw [hslots, hheap]
    exact hlay
  · rw [hv]
    exact hn.prefixLen

end BTreeNode

end MemSafeDB
