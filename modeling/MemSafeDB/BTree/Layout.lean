import Mathlib.Data.List.Perm.Basic
import MemSafeDB.BTree.Search

/-!
# Layout of a page

Keys, payloads and fences live in the heap of a page, between `dataOffset` and the end of the
page. `Layout h ss` says that the slots `ss` describe the heap `h`: every extent lies in the
used part, extents do not overlap, and `spaceUsed` is their total size. New data is put below
`dataOffset`, so that nothing stored before changes.
-/

namespace MemSafeDB
open Lib

namespace Slot

/-- Bytes that key and payload of a slot occupy. -/
def space (s : Slot) : Nat := s.keyLen + s.payloadLen

/-- The end of the payload. -/
def stop (s : Slot) : Nat := s.offset + s.keyLen + s.payloadLen

/-- The bytes of two slots do not overlap. -/
def Apart (s t : Slot) : Prop := s.stop ≤ t.offset ∨ t.stop ≤ s.offset

lemma Apart.symm {s t : Slot} (h : s.Apart t) : t.Apart s := Or.symm h

end Slot

/-- The bytes of a slot do not overlap with a fence. -/
def FenceKeySlot.Apart (f : FenceKeySlot) (s : Slot) : Prop :=
  f.len = 0 ∨ s.stop ≤ f.offset ∨ f.offset + f.len ≤ s.offset

/-- The part of a page that fences, keys and payloads live in. -/
structure Heap where
  dataOffset : Nat
  spaceUsed : Nat
  prefixLen : Nat
  lowerFence : FenceKeySlot
  upperFence : FenceKeySlot
  bytes : Memory Byte

def BTreeNode.heap (n : BTreeNode) : Heap :=
  ⟨n.dataOffset, n.spaceUsed, n.prefixLen, n.lowerFence, n.upperFence, n.bytes⟩

def BTreeNode.slots (n : BTreeNode) : List Slot := firstn n.slot n.count

namespace Heap

def lower (h : Heap) : Key := h.bytes.read h.lowerFence.offset h.lowerFence.len

def upper (h : Heap) : Key := h.bytes.read h.upperFence.offset h.upperFence.len

def pfx (h : Heap) : Key := h.bytes.read h.lowerFence.offset h.prefixLen

def suffix (h : Heap) (s : Slot) : Key := h.bytes.read s.offset s.keyLen

def payload (h : Heap) (s : Slot) : Key := h.bytes.read (s.offset + s.keyLen) s.payloadLen

def entry (h : Heap) (s : Slot) : Key × Key := (h.pfx ++ h.suffix s, h.payload s)

/-- Puts `data` below everything stored so far. -/
def put (h : Heap) (data : List Byte) : Heap :=
  { h with
    dataOffset := h.dataOffset - data.length
    spaceUsed := h.spaceUsed + data.length
    bytes := h.bytes.write (h.dataOffset - data.length) data }

@[simp] lemma length_lower (h : Heap) : h.lower.length = h.lowerFence.len := by simp [lower]

@[simp] lemma length_upper (h : Heap) : h.upper.length = h.upperFence.len := by simp [upper]

@[simp] lemma length_pfx (h : Heap) : h.pfx.length = h.prefixLen := by simp [pfx]

@[simp] lemma length_suffix (h : Heap) (s : Slot) : (h.suffix s).length = s.keyLen := by
  simp [suffix]

@[simp] lemma length_payload (h : Heap) (s : Slot) : (h.payload s).length = s.payloadLen := by
  simp [payload]

lemma pfx_eq_take (h : Heap) (hp : h.prefixLen ≤ h.lowerFence.len) :
    h.pfx = h.lower.take h.prefixLen := by
  rw [lower, Memory.take_read, Nat.min_eq_left hp, pfx]

/-- A fence is stored in the used part of the heap. -/
def FenceIn (h : Heap) (f : FenceKeySlot) : Prop :=
  (f.len = 0 ∨ h.dataOffset ≤ f.offset) ∧ f.offset + f.len ≤ pageSize

end Heap

/-- The slots `ss` describe the used part of the heap. -/
@[mk_iff]
structure Layout (h : Heap) (ss : List Slot) : Prop where
  room : h.dataOffset + h.spaceUsed ≤ pageSize
  slotEnd : slotPos ss.length ≤ h.dataOffset
  used : h.spaceUsed = h.lowerFence.len + h.upperFence.len + (ss.map Slot.space).sum
  pfx : h.prefixLen ≤ h.lowerFence.len
  lower : h.FenceIn h.lowerFence
  upper : h.FenceIn h.upperFence
  slots : ∀ s ∈ ss, h.dataOffset ≤ s.offset ∧ s.stop ≤ pageSize
  apart : ss.Pairwise Slot.Apart
  apartLower : ∀ s ∈ ss, h.lowerFence.Apart s
  apartUpper : ∀ s ∈ ss, h.upperFence.Apart s
  heads : ∀ s ∈ ss, s.head = head (h.suffix s)

instance : DecidableRel Slot.Apart := fun _ _ => inferInstanceAs (Decidable (_ ∨ _))

instance : DecidableRel FenceKeySlot.Apart := fun _ _ => inferInstanceAs (Decidable (_ ∨ _))

instance (h : Heap) (f : FenceKeySlot) : Decidable (h.FenceIn f) :=
  inferInstanceAs (Decidable (_ ∧ _))

instance (h : Heap) (ss : List Slot) : Decidable (Layout h ss) :=
  decidable_of_iff' _ (layout_iff h ss)

namespace Layout

variable {h : Heap} {ss : List Slot}

lemma dataOffset_le (hl : Layout h ss) : h.dataOffset ≤ pageSize := by
  have := hl.room
  omega

lemma length_le (hl : Layout h ss) : ss.length ≤ maxSlots := by
  have h1 := hl.slotEnd
  have h2 := hl.dataOffset_le
  simp only [slotPos_eq, pageSize] at h1 h2
  change ss.length ≤ 399
  omega

lemma spaceUsed_le (hl : Layout h ss) : h.spaceUsed + slotPos ss.length ≤ pageSize := by
  have h1 := hl.slotEnd
  have h2 := hl.room
  omega

/-! ## Putting data -/

lemma fence_put {f : FenceKeySlot} (hf : h.FenceIn f) {data : List Byte}
    (hd : data.length ≤ h.dataOffset) {len : Nat} (hlen : len ≤ f.len) :
    (h.put data).bytes.read f.offset len = h.bytes.read f.offset len := by
  rcases Nat.eq_zero_or_pos len with rfl | hpos
  · rfl
  · rcases hf.1 with hzero | hge
    · omega
    · exact Memory.read_write_of_disjoint _ (Or.inr (by omega))

lemma lower_put (hl : Layout h ss) {data : List Byte} (hd : data.length ≤ h.dataOffset) :
    (h.put data).lower = h.lower :=
  fence_put hl.lower hd le_rfl

lemma upper_put (hl : Layout h ss) {data : List Byte} (hd : data.length ≤ h.dataOffset) :
    (h.put data).upper = h.upper :=
  fence_put hl.upper hd le_rfl

lemma pfx_put (hl : Layout h ss) {data : List Byte} (hd : data.length ≤ h.dataOffset) :
    (h.put data).pfx = h.pfx :=
  fence_put hl.lower hd hl.pfx

lemma read_put {data : List Byte} (hd : data.length ≤ h.dataOffset)
    {off len : Nat} (ho : h.dataOffset ≤ off) :
    (h.put data).bytes.read off len = h.bytes.read off len :=
  Memory.read_write_of_disjoint _ (Or.inr (by omega))

lemma suffix_put (hl : Layout h ss) {data : List Byte} (hd : data.length ≤ h.dataOffset)
    {s : Slot} (hs : s ∈ ss) : (h.put data).suffix s = h.suffix s :=
  read_put hd (hl.slots s hs).1

lemma entry_put (hl : Layout h ss) {data : List Byte} (hd : data.length ≤ h.dataOffset)
    {s : Slot} (hs : s ∈ ss) : (h.put data).entry s = h.entry s := by
  have ho := (hl.slots s hs).1
  have hpay : (h.put data).payload s = h.payload s := read_put hd (by omega)
  simp only [Heap.entry, hl.pfx_put hd, hl.suffix_put hd hs, hpay]

/-- The slot of a key and a payload that are put next. -/
def nextSlot (h : Heap) (key payload : Key) : Slot :=
  ⟨h.dataOffset - (key.length + payload.length), key.length, payload.length, head key⟩

lemma read_nextSlot (h : Heap) (key payload : Key) :
    (h.put (key ++ payload)).suffix (nextSlot h key payload) = key ∧
      (h.put (key ++ payload)).payload (nextSlot h key payload) = payload := by
  apply Memory.read_parts
  rw [← List.length_append]
  simp only [nextSlot, Heap.put, ← List.length_append]
  exact Memory.read_write_same _ _ _

lemma entry_nextSlot (hl : Layout h ss) {key payload : Key}
    (hd : key.length + payload.length ≤ h.dataOffset) :
    (h.put (key ++ payload)).entry (nextSlot h key payload) = (h.pfx ++ key, payload) := by
  obtain ⟨h1, h2⟩ := read_nextSlot h key payload
  simp only [Heap.entry, h1, h2, hl.pfx_put (show (key ++ payload).length ≤ h.dataOffset by simpa using hd)]

/-- Putting an entry and adding its slot keeps the layout, wherever the slot is added. -/
lemma put (hl : Layout h ss) {key payload : Key}
    (hd : slotPos (ss.length + 1) + (key.length + payload.length) ≤ h.dataOffset)
    {ss' : List Slot} (hperm : ss'.Perm (nextSlot h key payload :: ss)) :
    Layout (h.put (key ++ payload)) ss' := by
  have hlen : (key ++ payload).length ≤ h.dataOffset := by
    rw [List.length_append]
    omega
  have hmem : ∀ s, s ∈ ss' ↔ s = nextSlot h key payload ∨ s ∈ ss := by
    intro s
    rw [hperm.mem_iff, List.mem_cons]
  have hstop : (nextSlot h key payload).stop = h.dataOffset := by
    simp only [nextSlot, Slot.stop]
    omega
  have hroom := hl.room
  have hfence : ∀ f : FenceKeySlot, h.FenceIn f → f.Apart (nextSlot h key payload) := by
    intro f hf
    rcases hf.1 with hz | hge
    · exact Or.inl hz
    · exact Or.inr (Or.inl (hstop.trans_le hge))
  have hin : ∀ f : FenceKeySlot, h.FenceIn f → (h.put (key ++ payload)).FenceIn f := by
    intro f hf
    refine ⟨hf.1.imp_right (fun hge => ?_), hf.2⟩
    simp only [Heap.put]
    omega
  refine ⟨?_, ?_, ?_, hl.pfx, hin _ hl.lower, hin _ hl.upper, ?_, ?_, ?_, ?_, ?_⟩
  · simp only [Heap.put]
    omega
  · rw [hperm.length_eq, List.length_cons]
    simp only [Heap.put, List.length_append]
    omega
  · rw [(hperm.map _).sum_nat, List.map_cons, List.sum_cons]
    simp only [Heap.put, List.length_append, nextSlot, Slot.space, hl.used]
    omega
  · intro s hs
    rcases (hmem s).mp hs with rfl | hs
    · rw [hstop]
      simp only [Heap.put, nextSlot, List.length_append, le_refl, true_and]
      omega
    · have hold := hl.slots s hs
      refine ⟨?_, hold.2⟩
      simp only [Heap.put]
      omega
  · rw [hperm.pairwise_iff (fun hst => Slot.Apart.symm hst), List.pairwise_cons]
    refine ⟨?_, hl.apart⟩
    intro t ht
    exact Or.inl (hstop.trans_le (hl.slots t ht).1)
  · intro s hs
    rcases (hmem s).mp hs with rfl | hs
    · exact hfence _ hl.lower
    · exact hl.apartLower s hs
  · intro s hs
    rcases (hmem s).mp hs with rfl | hs
    · exact hfence _ hl.upper
    · exact hl.apartUpper s hs
  · intro s hs
    rcases (hmem s).mp hs with rfl | hs
    · rw [(read_nextSlot h key payload).1]
      rfl
    · rw [hl.suffix_put hlen hs]
      exact hl.heads s hs

/-! ## Removing slots and overwriting payloads -/

lemma sum_space_eraseIdx {ss : List Slot} {i : Nat} (hi : i < ss.length) :
    (ss.map Slot.space).sum = ss[i].space + ((ss.eraseIdx i).map Slot.space).sum := by
  have hperm : ss.Perm (ss[i] :: ss.eraseIdx i) := (List.getElem_cons_eraseIdx_perm hi).symm
  rw [(hperm.map _).sum_nat, List.map_cons, List.sum_cons]

/-- Dropping a slot and its bytes from the count of used bytes keeps the layout. -/
lemma erase (hl : Layout h ss) {i : Nat} (hi : i < ss.length) :
    Layout { h with spaceUsed := h.spaceUsed - ss[i].space } (ss.eraseIdx i) := by
  have hsum := sum_space_eraseIdx hi
  have hsub : ∀ s ∈ ss.eraseIdx i, s ∈ ss := fun s hs => List.mem_of_mem_eraseIdx hs
  have hroom := hl.room
  have hused := hl.used
  have hend := hl.slotEnd
  refine ⟨?_, ?_, ?_, hl.pfx, hl.lower, hl.upper, fun s hs => hl.slots s (hsub s hs),
    hl.apart.sublist (List.eraseIdx_sublist _ _), fun s hs => hl.apartLower s (hsub s hs),
    fun s hs => hl.apartUpper s (hsub s hs), fun s hs => hl.heads s (hsub s hs)⟩
  · dsimp only
    omega
  · simp only [List.length_eraseIdx, hi, ite_true, slotPos_eq] at hend ⊢
    omega
  · dsimp only
    omega

/-- The heap after the payload of a slot has been overwritten in place. -/
def setPayload (h : Heap) (s : Slot) (bs : List Byte) : Heap :=
  { h with bytes := h.bytes.write (s.offset + s.keyLen) bs }

lemma payload_setPayload (h : Heap) {s : Slot} {bs : List Byte} (hb : bs.length = s.payloadLen) :
    (setPayload h s bs).payload s = bs := by
  simp only [Heap.payload, setPayload, ← hb]
  exact Memory.read_write_same _ _ _

lemma fence_setPayload {s : Slot} {bs : List Byte} (hb : bs.length = s.payloadLen)
    {f : FenceKeySlot} (hf : f.Apart s) {len : Nat} (hlen : len ≤ f.len) :
    (setPayload h s bs).bytes.read f.offset len = h.bytes.read f.offset len := by
  rcases Nat.eq_zero_or_pos len with rfl | hpos
  · rfl
  · apply Memory.read_write_of_disjoint
    rcases hf with hz | hlt | hge
    · omega
    · simp only [Slot.stop] at hlt
      omega
    · omega

lemma suffix_setPayload_self {s : Slot} {bs : List Byte} :
    (setPayload h s bs).suffix s = h.suffix s :=
  Memory.read_write_of_disjoint _ (Or.inl le_rfl)

lemma read_setPayload_of_apart {s t : Slot} {bs : List Byte} (hb : bs.length = s.payloadLen)
    (ha : s.Apart t) : (setPayload h s bs).suffix t = h.suffix t ∧
      (setPayload h s bs).payload t = h.payload t := by
  simp only [Slot.Apart, Slot.stop] at ha
  constructor
  · exact Memory.read_write_of_disjoint _ (by omega)
  · exact Memory.read_write_of_disjoint _ (by omega)

lemma setPayload_layout (hl : Layout h ss) {i : Nat} (hi : i < ss.length) {bs : List Byte}
    (hb : bs.length = ss[i].payloadLen) : Layout (setPayload h ss[i] bs) ss := by
  refine ⟨hl.room, hl.slotEnd, hl.used, hl.pfx, hl.lower, hl.upper, hl.slots, hl.apart,
    hl.apartLower, hl.apartUpper, ?_⟩
  intro s hs
  rw [hl.heads s hs]
  congr 1
  obtain ⟨j, hj, rfl⟩ := List.mem_iff_getElem.mp hs
  rcases Nat.lt_trichotomy i j with hlt | heq | hgt
  · exact (read_setPayload_of_apart hb (List.pairwise_iff_getElem.mp hl.apart i j hi hj hlt)).1.symm
  · subst heq
    exact suffix_setPayload_self.symm
  · exact (read_setPayload_of_apart hb
      (List.pairwise_iff_getElem.mp hl.apart j i hj hi hgt).symm).1.symm

/-- Overwriting one payload changes that payload only. -/
lemma map_entry_setPayload (hl : Layout h ss) {i : Nat} (hi : i < ss.length) {bs : List Byte}
    (hb : bs.length = ss[i].payloadLen) :
    ss.map (setPayload h ss[i] bs).entry = (ss.map h.entry).set i ((h.entry ss[i]).1, bs) := by
  have hpfx : (setPayload h ss[i] bs).pfx = h.pfx :=
    fence_setPayload hb (hl.apartLower _ (List.getElem_mem hi)) hl.pfx
  apply List.ext_getElem (by simp)
  intro j h1 h2
  have hj : j < ss.length := by simpa using h1
  rw [List.getElem_map, List.getElem_set]
  by_cases hij : i = j
  · subst hij
    simp only [ite_true, Heap.entry, hpfx, suffix_setPayload_self, payload_setPayload h hb]
  · have hap : ss[i].Apart ss[j] := by
      rcases Nat.lt_or_gt_of_ne hij with hlt | hgt
      · exact List.pairwise_iff_getElem.mp hl.apart i j hi hj hlt
      · exact (List.pairwise_iff_getElem.mp hl.apart j i hj hi hgt).symm
    have hread := read_setPayload_of_apart (h := h) hb hap
    simp only [hij, ite_false, List.getElem_map, Heap.entry, hpfx, hread.1, hread.2]

end Layout

namespace BTreeNode

lemma entries_eq (n : BTreeNode) : n.entries = n.slots.map n.heap.entry := by
  simp only [entries, slots, firstn, List.map_map]
  rfl

@[simp] lemma length_slots (n : BTreeNode) : n.slots.length = n.count := length_firstn _ _

end BTreeNode

end MemSafeDB
