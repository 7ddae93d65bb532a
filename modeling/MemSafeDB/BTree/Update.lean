import MemSafeDB.BTree.Accounting

/-!
# Changing one page

Insertion, removal, compaction and overwriting a payload keep a page valid, and each of them
changes the contents of the page as its name says.
-/

namespace MemSafeDB
open Lib

namespace BTreeNode

variable {limit : Nat}

/-- Accounted bytes, hints and contents that make sense make a page valid. -/
lemma Accounted.valid {n : BTreeNode} (hn : n.Accounted) (hh : n.HintsUpToDate)
    (hok : n.view.Ok limit) : n.Valid limit :=
  ⟨hn.layout, hn.prefixLen, hh, hok⟩

/-! ## Rebuilding a page -/

lemma Valid.source {n : BTreeNode} (hn : n.Valid limit) {i : Nat} (hi : i < n.entries.length) :
    n.Source i n.entries[i] :=
  hn.accounted.source hi

lemma Valid.sources {n : BTreeNode} (hn : n.Valid limit) (i len : Nat) :
    ∀ k (h : k < ((n.entries.drop i).take len).length),
      n.Source (i + k) ((n.entries.drop i).take len)[k] :=
  hn.accounted.sources i len

/-- Entries within the fences can be copied to a fresh page. -/
lemma Fresh.target {n n' : BTreeNode} {b : Bool} {lower upper : Key} (hf : n.Fresh b lower upper)
    (hframe : Frame n n') {es : List (Key × Key)} (hr : ∀ e ∈ es, InRange lower upper e.1)
    (hsize : ∀ e ∈ es, e.1.length ≤ pageSize ∧ e.2.length ≤ pageSize)
    (hlen : es.length ≤ maxSlots) : n'.Target es := by
  refine ⟨?_, hsize, hlen⟩
  intro e he
  have hpfx : n.heap.pfx = n.getLowerFence.take n.prefixLen :=
    n.heap.pfx_eq_take hf.filled.layout.pfx
  rw [HasPrefix, hframe.pfx, hpfx, hf.prefixLen, hf.lower_eq]
  exact (hr e he).isPrefix

/-- A fresh page that has been filled with entries in order is valid once its hints are made. -/
lemma Fresh.valid {n n' : BTreeNode} {b : Bool} {lower upper : Key} {es : List (Key × Key)}
    (hf : n.Fresh b lower upper) (hframe : Frame n n') (hfill : n'.Filled n'.count es) (link : PID)
    (hok : View.Ok ⟨b, link, lower, upper, es⟩ limit) :
    ({ n' with link := link } : BTreeNode).makeHint.Valid limit ∧
      ({ n' with link := link } : BTreeNode).makeHint.view = ⟨b, link, lower, upper, es⟩ := by
  have hentries : n'.entries = es := by
    rw [entries_eq]
    exact hfill.entries
  have hlower : n'.getLowerFence = lower := hframe.lower.trans hf.lower_eq
  have hupper : n'.getUpperFence = upper := hframe.upper.trans hf.upper_eq
  have hview : ({ n' with link := link } : BTreeNode).makeHint.view =
      ⟨b, link, lower, upper, es⟩ := by
    change View.mk n'.isLeaf link n'.getLowerFence n'.getUpperFence n'.entries = _
    rw [hlower, hupper, hentries, hframe.isLeaf, hf.isLeaf]
  refine ⟨⟨hfill.layout, ?_, hintsUpToDate_makeHint _, hview ▸ hok⟩, hview⟩
  rw [hview]
  exact hframe.prefixLen.trans hf.prefixLen

/-- Copying all entries of a page to a fresh page whose fences admit them. -/
lemma Valid.copy_all {n dst : BTreeNode} (hn : n.Valid limit) {b : Bool} {lower upper : Key}
    (hf : dst.Fresh b lower upper) (hr : ∀ e ∈ n.entries, InRange lower upper e.1)
    (hfit : slotPos n.count + (lower.length + upper.length) +
      entriesSpace (commonLen lower upper) n.entries ≤ pageSize) :
    ∃ dst', n.copyKeyValueRange dst 0 0 n.count = .ok dst' ∧ Copied dst [] n.entries dst' :=
  hn.accounted.copy_all hf (hf.target (Frame.refl dst) hr
    (fun _ he => (hn.accounted.entry_space_le he).2) (by simpa using hn.count_le)) hfit

/-! ## Compaction, insertion and removal -/

lemma Valid.compactify_eq {n : BTreeNode} (hn : n.Valid limit) :
    ∃ n', n.compactify = .ok n' ∧ n'.Valid limit ∧ n'.view = n.view ∧
      n'.freeSpace = n.freeSpaceAfterCompaction := by
  obtain ⟨n', hcomp, hacc, hview, hfree, hhints, -⟩ := hn.accounted.compactify_eq
  exact ⟨n', hcomp, hacc.valid hhints (hview ▸ hn.ok), hview, hfree⟩

/-- The key starts with the prefix of the page, and `spaceNeeded` does not wrap around. -/
def Admissible (n : BTreeNode) (key payload : Key) : Prop :=
  n.getPrefix <+: key ∧ slotSize + (key.length - n.prefixLen) + payload.length < 2 ^ 32

lemma Accounted.getPrefix_congr {n m : BTreeNode} (hn : n.Accounted) (hm : m.Accounted)
    (hview : m.view = n.view) : m.getPrefix = n.getPrefix := by
  have hlower : m.getLowerFence = n.getLowerFence := congrArg View.lower hview
  rw [hm.getPrefix_eq, hn.getPrefix_eq, hm.prefixLen, hn.prefixLen, hview, hlower]

/-- An insertion for which there is space puts the entry where the search on the page ends, which
has been compactified if that was needed. -/
lemma Accounted.insertInPage_of_space {n : BTreeNode} (hn : n.Accounted) {key payload : Key}
    (hadm : n.Admissible key payload)
    (hspace : n.hasSpaceFor key.length payload.length = true) :
    ∃ m, m.Accounted ∧ m.view = n.view ∧ (n.HintsUpToDate → m.HintsUpToDate) ∧
      (n.FencesApart → m.FencesApart) ∧
      ∀ r, m.lowerBound key = .ok r → r.1 ≤ m.count →
        ∃ n', n.insertInPage key payload = .ok n' ∧ n'.Accounted ∧
          n'.view = { n.view with entries := n.entries.insertIdx r.1 (key, payload) } ∧
          (m.HintsUpToDate → n'.HintsUpToDate) ∧ SameFences m n' := by
  rw [hasSpaceFor, decide_eq_true_eq] at hspace
  obtain ⟨m, hm, hacc, hview, hfree, hhints, hapart⟩ := hn.makeSpace_eq hspace
  refine ⟨m, hacc, hview, hhints, hapart, fun r hr hle => ?_⟩
  have hpl : m.prefixLen = n.prefixLen := by rw [hacc.prefixLen, hn.prefixLen, hview]
  have hpfx : m.HasPrefix (key, payload) := by
    change m.getPrefix <+: key
    rw [hn.getPrefix_congr hacc hview]
    exact hadm.1
  have hlen : n.prefixLen ≤ key.length := by simpa using hadm.1.length_le
  have hfit : slotPos (m.count + 1) + entrySpace m.prefixLen (key, payload) ≤ m.dataOffset := by
    have hoff := hacc.slotEnd
    rw [hacc.freeSpace_eq, spaceNeeded_eq hlen hadm.2] at hfree
    rw [hpl]
    simp only [slotPos_eq, slotSize] at hfree hoff ⊢
    omega
  obtain ⟨n', hput, hacc', hv, hh, hsame⟩ := hacc.insertAt_eq hle hpfx hfit
  rw [hview, show m.entries = n.entries from congrArg View.entries hview] at hv
  exact ⟨n', (insertInPage_eq_bind hm hr).trans hput, hacc', hv, hh, hsame⟩

/-- Inserting a new key of the page's interval for which there is space. -/
theorem Valid.insertInPage_eq {n : BTreeNode} (hn : n.Valid limit) {key payload : Key}
    (hk : key ∉ n.keys) (hr : n.view.Admits key)
    (he : View.EntryOk n.isLeaf (key, payload) limit)
    (hsize : slotSize + (key.length - n.prefixLen) + payload.length < 2 ^ 32)
    (hspace : n.hasSpaceFor key.length payload.length = true) :
    ∃ n', n.insertInPage key payload = .ok n' ∧ n'.Valid limit ∧
      n'.view = { n.view with
        entries := n.entries.insertIdx (rank n.keys key) (key, payload) } := by
  obtain ⟨m, hacc, hview, hhints, -, hinsert⟩ :=
    hn.accounted.insertInPage_of_space ⟨hn.hasPrefix hr.1 payload, hsize⟩ hspace
  have hmv : m.Valid limit := hacc.valid (hhints hn.hints) (hview ▸ hn.ok)
  have hkeys : m.keys = n.keys := by
    rw [keys_eq, keys_eq, show m.entries = n.entries from congrArg View.entries hview]
  have hrank : rank m.keys key ≤ m.count := by simpa using rank_le_length m.keys key
  obtain ⟨n', hok, hacc', hv, hh, -⟩ := hinsert _ (hmv.lowerBound_eq key) hrank
  rw [hkeys] at hv
  refine ⟨n', hok, hacc'.valid (hh hmv.hints) ?_, hv⟩
  rw [hv]
  have hins := hn.ok.insert (show key ∉ n.view.keys by simpa using hk) hr he
  simpa using hins

/-- Removing an existing slot. -/
theorem Valid.removeSlot_eq {n : BTreeNode} (hn : n.Valid limit) {i : Nat} (hi : i < n.count) :
    (n.removeSlot i).Valid limit ∧
      (n.removeSlot i).view = { n.view with entries := n.entries.eraseIdx i } := by
  obtain ⟨hacc, hv⟩ := hn.accounted.removeSlot_eq hi
  exact ⟨hacc.valid (hintsUpToDate_makeHint _) (hv ▸ hn.ok.erase i), hv⟩

/-! ## Overwriting a payload -/

/-- Overwriting the payload of a slot with as many bytes. -/
theorem Valid.setPayload_eq {n : BTreeNode} (hn : n.Valid limit) {i : Nat} (hi : i < n.count)
    (bs : List Byte) (hb : bs.length = (n.slot i).payloadLen) :
    let n' : BTreeNode := { n with bytes := n.bytes.write (n.payloadOffset i) bs }
    n.setPayload i bs = .ok n' ∧ n'.Valid limit ∧
      n'.view = { n.view with entries := n.entries.set i (n.fullKey i, bs) } := by
  have hlen : i < n.slots.length := by simpa using hi
  have hslot : n.slots[i] = n.slot i := getElem_firstn _ _ _ _
  have hin := hn.searchable.slotInPage i hi
  have hb' : bs.length = n.slots[i].payloadLen := by rw [hslot, hb]
  have hlay := hn.layout.setPayload_layout hlen hb'
  have hmap := hn.layout.map_entry_setPayload hlen hb'
  have hfence : ∀ f : FenceKeySlot, f.Apart (n.slot i) →
      (n.bytes.write (n.payloadOffset i) bs).read f.offset f.len = n.bytes.read f.offset f.len :=
    fun f hf => Layout.fence_setPayload (h := n.heap) hb hf le_rfl
  rw [hslot] at hlay hmap
  intro n'
  have hentries : n'.entries = n.entries.set i (n.fullKey i, bs) := by
    rw [entries_eq, entries_eq n]
    exact hmap
  have hv : n'.view = { n.view with entries := n.entries.set i (n.fullKey i, bs) } := by
    have hl : n'.getLowerFence = n.getLowerFence :=
      hfence _ (hn.layout.apartLower _ (slot_mem n hi))
    have hu : n'.getUpperFence = n.getUpperFence :=
      hfence _ (hn.layout.apartUpper _ (slot_mem n hi))
    change View.mk n.isLeaf n.link n'.getLowerFence n'.getUpperFence n'.entries = _
    rw [hentries, hl, hu]
    rfl
  have hlt : i < n.entries.length := by simpa using hi
  have hfst : n.entries[i].1 = n.fullKey i := by
    simp [entries, getElem_firstn]
  have hsnd : n.entries[i].2 = n.getPayload i := by
    simp [entries, getElem_firstn]
  refine ⟨?_, ⟨hlay, ?_, hn.hints, ?_⟩, hv⟩
  · have hcond : n.payloadOffset i + bs.length ≤ pageSize := by
      simp only [payloadOffset, hb]
      omega
    simp only [setPayload, storeBytes, hcond, ite_true, n']
  · rw [hv]
    exact hn.prefixLen
  · rw [hv, ← hfst]
    exact hn.ok.setPayload (show i < n.view.entries.length by simpa using hi)
      (hb.trans ((congrArg List.length hsnd).trans (length_getPayload n i)).symm)

end BTreeNode

end MemSafeDB
