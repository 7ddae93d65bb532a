import MemSafeDB.BTree.Copy

/-!
# What a page means

The contents of a page without its layout: the fences and the entries. The keys of a page lie
in the interval of its fences, which determines the common prefix and thereby the space that
the entries take.
-/

namespace MemSafeDB
open Lib

/-! ## Intervals of fences -/

/-- The lower fence is exclusive and the upper fence inclusive. An empty fence leaves its side
open. -/
def InRange (lower upper k : Key) : Prop :=
  (lower = [] ∨ lower < k) ∧ (upper = [] ∨ k ≤ upper)

def FencesOrdered (lower upper : Key) : Prop := upper = [] ∨ lower < upper

instance (lower upper k : Key) : Decidable (InRange lower upper k) :=
  inferInstanceAs (Decidable (_ ∧ _))

instance (lower upper : Key) : Decidable (FencesOrdered lower upper) :=
  inferInstanceAs (Decidable (_ ∨ _))

lemma nil_le (k : Key) : ([] : Key) ≤ k := by
  simpa using le_append ([] : Key) k

lemma nil_lt_of_ne_nil {k : Key} (h : k ≠ []) : ([] : Key) < k :=
  lt_of_le_of_ne (nil_le k) (Ne.symm h)

lemma InRange.lower_le {lower upper k : Key} (h : InRange lower upper k) : lower ≤ k := by
  rcases h.1 with rfl | hlt
  · exact nil_le k
  · exact hlt.le

/-- Every key in the interval starts with the common prefix of the fences. -/
lemma InRange.take_eq {lower upper k : Key} (h : InRange lower upper k) :
    k.take (commonLen lower upper) = lower.take (commonLen lower upper) := by
  rcases h.2 with rfl | hle
  · simp
  · exact take_eq_of_between h.lower_le hle (take_commonLen lower upper)

lemma InRange.isPrefix {lower upper k : Key} (h : InRange lower upper k) :
    lower.take (commonLen lower upper) <+: k := by
  rw [← h.take_eq]
  exact List.take_prefix _ _

lemma InRange.prefix_le {lower upper k : Key} (h : InRange lower upper k) :
    commonLen lower upper ≤ k.length := by
  have hlen := h.isPrefix.length_le
  rwa [List.length_take, Nat.min_eq_left (commonLen_le_left lower upper)] at hlen

/-- The keys up to a separator within the fences. -/
lemma inRange_left_iff {lower upper sep k : Key} (hs : InRange lower upper sep) (hne : sep ≠ []) :
    InRange lower sep k ↔ InRange lower upper k ∧ k ≤ sep := by
  constructor
  · rintro ⟨h1, h2⟩
    have hk : k ≤ sep := h2.resolve_left hne
    exact ⟨⟨h1, hs.2.imp_right (fun h => hk.trans h)⟩, hk⟩
  · rintro ⟨⟨h1, -⟩, hk⟩
    exact ⟨h1, Or.inr hk⟩

/-- The keys behind a separator within the fences. -/
lemma inRange_right_iff {lower upper sep k : Key} (hs : InRange lower upper sep) (hne : sep ≠ []) :
    InRange sep upper k ↔ InRange lower upper k ∧ sep < k := by
  constructor
  · rintro ⟨h1, h2⟩
    have hk : sep < k := h1.resolve_left hne
    exact ⟨⟨hs.1.imp_right (fun h => h.trans hk), h2⟩, hk⟩
  · rintro ⟨⟨-, h2⟩, hk⟩
    exact ⟨Or.inr hk, h2⟩

lemma InRange.prefix_le_left {lower upper sep : Key} (hs : InRange lower upper sep) :
    commonLen lower upper ≤ commonLen lower sep := by
  rcases hs.2 with rfl | hle
  · simp
  · exact commonLen_mono_right hs.lower_le hle

lemma InRange.prefix_le_right {lower upper sep : Key} (hs : InRange lower upper sep) :
    commonLen lower upper ≤ commonLen sep upper := by
  rcases hs.2 with rfl | hle
  · simp
  · exact commonLen_mono_left hs.lower_le hle

/-! ## Entries -/

/-- The contents of a page. -/
structure View where
  isLeaf : Bool
  /-- `nextLeafNode` or `upperInnerNode` -/
  link : PID
  lower : Key
  upper : Key
  entries : List (Key × Key)

namespace View

def keys (v : View) : List Key := v.entries.map Prod.fst

def prefixLen (v : View) : Nat := commonLen v.lower v.upper

/-- Bytes that fences, keys and payloads take. -/
def spaceUsed (v : View) : Nat :=
  v.lower.length + v.upper.length + entriesSpace v.prefixLen v.entries

/-- Bytes that the whole page takes. -/
def size (v : View) : Nat := slotPos v.entries.length + v.spaceUsed

/-- Entries obey a bound, which is that of `insert` if nothing else is said; entries of inner nodes
map a separator to a page id. -/
def EntryOk (isLeaf : Bool) (e : Key × Key) (limit : Nat := maxKVSize) : Prop :=
  if isLeaf then e.1.length + e.2.length ≤ limit
  else e.1 ≠ [] ∧ e.1.length ≤ limit ∧ e.2.length = 8

/-- A key that may be stored: separators lie strictly below the upper fence. -/
def Admits (v : View) (k : Key) : Prop :=
  InRange v.lower v.upper k ∧ (v.isLeaf = false → v.upper = [] ∨ k < v.upper)

/-- Sorted keys within ordered fences, and fences and entries within the bound. -/
@[mk_iff]
structure Ok (v : View) (limit : Nat := maxKVSize) : Prop where
  sorted : StrictSorted v.keys
  admits : ∀ k ∈ v.keys, v.Admits k
  fences : FencesOrdered v.lower v.upper
  lowerLen : v.lower.length ≤ limit
  upperLen : v.upper.length ≤ limit
  entryOk : ∀ e ∈ v.entries, EntryOk v.isLeaf e limit

variable {limit : Nat}

instance (b : Bool) (e : Key × Key) : Decidable (EntryOk b e limit) := by
  unfold EntryOk
  infer_instance

instance (v : View) (k : Key) : Decidable (v.Admits k) := inferInstanceAs (Decidable (_ ∧ _))

instance (v : View) : Decidable (v.Ok limit) :=
  have : Decidable (StrictSorted v.keys) := inferInstanceAs (Decidable (v.keys.Pairwise (· < ·)))
  decidable_of_iff' _ (ok_iff v limit)

@[simp] lemma length_keys (v : View) : v.keys.length = v.entries.length := by simp [keys]

lemma EntryOk.key_le {b : Bool} {e : Key × Key} (h : EntryOk b e limit) : e.1.length ≤ limit := by
  unfold EntryOk at h
  split at h
  · omega
  · exact h.2.1

lemma EntryOk.mono {b : Bool} {e : Key × Key} (h : EntryOk b e limit) {limit' : Nat}
    (hle : limit ≤ limit') : EntryOk b e limit' := by
  cases b with
  | true =>
    simp only [EntryOk, ite_true] at h ⊢
    exact h.trans hle
  | false =>
    simp only [EntryOk, Bool.false_eq_true, ite_false] at h ⊢
    exact ⟨h.1, h.2.1.trans hle, h.2.2⟩

/-- `spaceNeeded` does not wrap around for an entry that `insert` admits. -/
lemma EntryOk.not_wraps {b : Bool} {e : Key × Key} (h : EntryOk b e) (p : Nat) :
    slotSize + (e.1.length - p) + e.2.length < 2 ^ 32 := by
  have hkey := h.key_le
  unfold EntryOk at h
  simp only [maxKVSize, pageSize, headerSize, slotSize] at hkey h ⊢
  split at h
  · omega
  · omega

lemma Ok.mono {v : View} (hv : v.Ok limit) {limit' : Nat} (hle : limit ≤ limit') : v.Ok limit' :=
  ⟨hv.sorted, hv.admits, hv.fences, hv.lowerLen.trans hle, hv.upperLen.trans hle,
    fun e he => (hv.entryOk e he).mono hle⟩

lemma Ok.entry_inRange {v : View} (hv : v.Ok limit) {e : Key × Key} (he : e ∈ v.entries) :
    InRange v.lower v.upper e.1 :=
  (hv.admits _ (List.mem_map_of_mem he)).1

lemma Ok.payload_unique {v : View} (hv : v.Ok limit) {k a b : Key} (ha : (k, a) ∈ v.entries)
    (hb : (k, b) ∈ v.entries) : a = b := by
  obtain ⟨i, hi, hia⟩ := List.mem_iff_getElem.mp ha
  obtain ⟨j, hj, hjb⟩ := List.mem_iff_getElem.mp hb
  have hij : i = j := by
    apply hv.sorted.getElem_inj (by simpa using hi) (by simpa using hj)
    simp only [keys, List.getElem_map, hia, hjb]
  subst hij
  rw [hia] at hjb
  exact congrArg Prod.snd hjb

/-! ### Changing the entries -/

lemma mem_keys_insert {v : View} {e : Key × Key} {i : Nat} (hi : i ≤ v.entries.length) {k : Key}
    (h : k ∈ (v.entries.insertIdx i e).map Prod.fst) : k = e.1 ∨ k ∈ v.keys := by
  obtain ⟨f, hf, rfl⟩ := List.mem_map.mp h
  rcases (List.mem_insertIdx hi).mp hf with rfl | hf
  · exact Or.inl rfl
  · exact Or.inr (List.mem_map_of_mem hf)

/-- Adding an entry at its place keeps the contents in order. -/
lemma Ok.insert {v : View} (hv : v.Ok limit) {key payload : Key}
    (hk : key ∉ v.keys) (hr : v.Admits key)
    (he : EntryOk v.isLeaf (key, payload) limit) :
    Ok { v with entries := v.entries.insertIdx (rank v.keys key) (key, payload) } limit := by
  have hrank : rank v.keys key ≤ v.entries.length := by
    simpa using rank_le_length v.keys key
  refine ⟨?_, ?_, hv.fences, hv.lowerLen, hv.upperLen, ?_⟩
  · rw [keys, List.map_insertIdx]
    exact hv.sorted.insertIdx_rank hk
  · intro k hk'
    rcases mem_keys_insert hrank hk' with rfl | hk'
    · exact hr
    · exact hv.admits k hk'
  · intro e he'
    rcases (List.mem_insertIdx hrank).mp he' with rfl | he'
    · exact he
    · exact hv.entryOk e he'

lemma Ok.erase {v : View} (hv : v.Ok limit) (i : Nat) :
    Ok { v with entries := v.entries.eraseIdx i } limit := by
  refine ⟨?_, ?_, hv.fences, hv.lowerLen, hv.upperLen, ?_⟩
  · rw [keys, ← List.eraseIdx_map]
    exact hv.sorted.eraseIdx i
  · intro k hk
    obtain ⟨e, he, rfl⟩ := List.mem_map.mp hk
    exact hv.admits _ (List.mem_map_of_mem (List.mem_of_mem_eraseIdx he))
  · intro e he
    exact hv.entryOk e (List.mem_of_mem_eraseIdx he)

lemma Ok.setPayload {v : View} (hv : v.Ok limit) {i : Nat} {bs : List Byte}
    (hi : i < v.entries.length) (hb : bs.length = v.entries[i].2.length) :
    Ok { v with entries := v.entries.set i (v.entries[i].1, bs) } limit := by
  have hkeys : (v.entries.set i (v.entries[i].1, bs)).map Prod.fst = v.keys := by
    apply List.ext_getElem (by simp)
    intro j h1 h2
    simp only [List.getElem_map, List.getElem_set, keys]
    split
    · rename_i hij
      subst hij
      rfl
    · rfl
  refine ⟨?_, ?_, hv.fences, hv.lowerLen, hv.upperLen, ?_⟩
  · rw [keys, hkeys]
    exact hv.sorted
  · intro k hk
    rw [keys, hkeys] at hk
    exact hv.admits k hk
  · intro e he
    rcases List.mem_or_eq_of_mem_set he with he | rfl
    · exact hv.entryOk e he
    · have hold := hv.entryOk _ (List.getElem_mem hi)
      simpa only [EntryOk, hb] using hold

lemma Ok.ne_of_split {v : View} (hv : v.Ok limit) {es fs : List (Key × Key)} {e f : Key × Key}
    (h : v.entries = es ++ e :: fs) (hf : f ∈ es ++ fs) : f.1 ≠ e.1 := by
  have hnodup := hv.sorted.nodup
  rw [keys, h, List.map_append, List.map_cons, List.perm_middle.nodup_iff, List.nodup_cons,
    ← List.map_append] at hnodup
  rintro heq
  exact hnodup.1 (heq ▸ List.mem_map_of_mem hf)

lemma entries_cut (v : View) {i : Nat} (hi : i < v.entries.length) :
    v.entries = v.entries.take i ++ v.entries[i] :: v.entries.drop (i + 1) := by
  rw [List.getElem_cons_drop, List.take_append_drop]

lemma Ok.mem_erase {v : View} (hv : v.Ok limit) {i : Nat} (hi : i < v.entries.length) (k w : Key) :
    (k, w) ∈ v.entries.eraseIdx i ↔ k ≠ v.entries[i].1 ∧ (k, w) ∈ v.entries := by
  have hcut := v.entries_cut hi
  rw [List.eraseIdx_eq_take_drop_succ]
  constructor
  · intro hmem
    refine ⟨hv.ne_of_split hcut hmem, ?_⟩
    rw [hcut, List.mem_append, List.mem_cons]
    exact (List.mem_append.mp hmem).imp_right Or.inr
  · rintro ⟨hne, hmem⟩
    rw [hcut, List.mem_append, List.mem_cons] at hmem
    refine List.mem_append.mpr (hmem.imp_right (fun h => h.resolve_left ?_))
    rintro heq
    exact hne (congrArg Prod.fst heq)

lemma Ok.mem_setPayload {v : View} (hv : v.Ok limit) {i : Nat} (hi : i < v.entries.length)
    (bs k w : Key) :
    (k, w) ∈ v.entries.set i (v.entries[i].1, bs) ↔
      (k = v.entries[i].1 ∧ w = bs) ∨ (k ≠ v.entries[i].1 ∧ (k, w) ∈ v.entries) := by
  rw [← hv.mem_erase hi, List.set_eq_take_append_cons_drop, if_pos hi,
    List.eraseIdx_eq_take_drop_succ]
  simp only [List.mem_append, List.mem_cons, Prod.mk.injEq]
  exact or_left_comm

end View

lemma Heap.entriesSpace_eq (h : Heap) (ss : List Slot) :
    entriesSpace h.prefixLen (ss.map h.entry) = (ss.map Slot.space).sum := by
  induction ss with
  | nil => rfl
  | cons s ss ih =>
    rw [List.map_cons, entriesSpace_cons, ih, List.map_cons, List.sum_cons]
    congr 1
    simp [entrySpace, Heap.entry, Slot.space]

namespace BTreeNode

def view (n : BTreeNode) : View :=
  ⟨n.isLeaf, n.link, n.getLowerFence, n.getUpperFence, n.entries⟩

@[simp] lemma view_isLeaf (n : BTreeNode) : n.view.isLeaf = n.isLeaf := rfl
@[simp] lemma view_link (n : BTreeNode) : n.view.link = n.link := rfl
@[simp] lemma view_lower (n : BTreeNode) : n.view.lower = n.getLowerFence := rfl
@[simp] lemma view_upper (n : BTreeNode) : n.view.upper = n.getUpperFence := rfl
@[simp] lemma view_entries (n : BTreeNode) : n.view.entries = n.entries := rfl
@[simp] lemma view_keys (n : BTreeNode) : n.view.keys = n.keys := (keys_eq n).symm

/-- A page whose bytes are accounted for, whatever its keys are. -/
structure Accounted (n : BTreeNode) : Prop where
  layout : Layout n.heap n.slots
  prefixLen : n.prefixLen = n.view.prefixLen

/-- A page that is laid out correctly and whose contents make sense. -/
@[mk_iff]
structure Valid (n : BTreeNode) (limit : Nat := maxKVSize) : Prop where
  layout : Layout n.heap n.slots
  prefixLen : n.prefixLen = n.view.prefixLen
  hints : n.HintsUpToDate
  ok : n.view.Ok limit

lemma spaceNeeded_eq {n : BTreeNode} {key payload : Key} (hpfx : n.prefixLen ≤ key.length)
    (hsize : slotSize + (key.length - n.prefixLen) + payload.length < 2 ^ 32) :
    n.spaceNeeded key.length payload.length =
      slotSize + entrySpace n.prefixLen (key, payload) := by
  refine u32_eq ?_ ?_
  · simp only [entrySpace]
    omega
  · simp only [entrySpace]
    omega

instance (n : BTreeNode) : Decidable n.HintsUpToDate := by
  unfold HintsUpToDate
  infer_instance

instance (n : BTreeNode) (limit : Nat) : Decidable (n.Valid limit) :=
  decidable_of_iff' _ (valid_iff n limit)

namespace Accounted

variable {n : BTreeNode}

lemma count_le (hn : n.Accounted) : n.count ≤ maxSlots := by
  simpa using hn.layout.length_le

lemma spaceUsed_eq (hn : n.Accounted) : n.spaceUsed = n.view.spaceUsed := by
  have hused : n.spaceUsed =
      n.lowerFence.len + n.upperFence.len + (n.slots.map Slot.space).sum := hn.layout.used
  have hspace : entriesSpace n.prefixLen n.entries = (n.slots.map Slot.space).sum := by
    rw [entries_eq]
    exact n.heap.entriesSpace_eq n.slots
  rw [hused, View.spaceUsed, ← hn.prefixLen, view_entries, hspace]
  simp [getLowerFence, getUpperFence]

lemma size_le (hn : n.Accounted) : n.view.size ≤ pageSize := by
  have h := hn.layout.spaceUsed_le
  have hu : n.heap.spaceUsed = n.view.spaceUsed := hn.spaceUsed_eq
  rw [hu, length_slots] at h
  rw [View.size, view_entries, length_entries]
  omega

lemma freeSpaceAfterCompaction_eq (hn : n.Accounted) :
    n.freeSpaceAfterCompaction = pageSize - n.view.size := by
  have hsz := hn.size_le
  have hu := hn.spaceUsed_eq
  simp only [View.size, view_entries, length_entries] at hsz ⊢
  apply u32_eq
  · omega
  · simp only [pageSize] at hsz ⊢
    omega

lemma dataOffset_le (hn : n.Accounted) : n.dataOffset ≤ pageSize := hn.layout.dataOffset_le

lemma slotEnd (hn : n.Accounted) : slotPos n.count ≤ n.dataOffset := by
  have h := hn.layout.slotEnd
  rwa [length_slots] at h

lemma freeSpace_eq (hn : n.Accounted) : n.freeSpace = n.dataOffset - slotPos n.count := by
  have h1 := hn.dataOffset_le
  have h2 := hn.slotEnd
  simp only [pageSize] at h1
  exact u32_eq (by omega) (by omega)

lemma prefixLen_le (hn : n.Accounted) : n.prefixLen ≤ n.lowerFence.len := hn.layout.pfx

lemma getPrefix_eq (hn : n.Accounted) : n.getPrefix = n.getLowerFence.take n.prefixLen :=
  n.heap.pfx_eq_take hn.layout.pfx

end Accounted

namespace Valid

variable {n : BTreeNode} {limit : Nat}

lemma mono (hn : n.Valid limit) {limit' : Nat} (hle : limit ≤ limit') : n.Valid limit' :=
  ⟨hn.layout, hn.prefixLen, hn.hints, hn.ok.mono hle⟩

lemma accounted (hn : n.Valid limit) : n.Accounted := ⟨hn.layout, hn.prefixLen⟩

lemma count_le (hn : n.Valid limit) : n.count ≤ maxSlots := hn.accounted.count_le

lemma spaceUsed_eq (hn : n.Valid limit) : n.spaceUsed = n.view.spaceUsed := hn.accounted.spaceUsed_eq

lemma size_le (hn : n.Valid limit) : n.view.size ≤ pageSize := hn.accounted.size_le

lemma slot_mem (n : BTreeNode) {i : Nat} (hi : i < n.count) : n.slot i ∈ n.slots :=
  mem_firstn.mpr ⟨i, hi, rfl⟩

lemma searchable (hn : n.Valid limit) : n.Searchable := by
  refine ⟨hn.count_le, hn.layout.lower.2, ?_, ?_, ?_, hn.hints⟩
  · intro i hi
    have hs := hn.layout.slots _ (slot_mem n hi)
    have hend := hn.layout.slotEnd
    simp only [slotPos_eq] at hend
    refine ⟨?_, hs.2⟩
    change 104 ≤ (n.slot i).offset
    omega
  · rw [← view_keys]
    exact hn.ok.sorted
  · intro i hi
    exact hn.layout.heads _ (slot_mem n hi)

lemma lowerBound_eq (hn : n.Valid limit) (k : Key) :
    n.lowerBound k = .ok (rank n.keys k, decide (k ∈ n.keys)) :=
  hn.searchable.lowerBound_eq k

lemma hasPrefix (hn : n.Valid limit) {k : Key} (hk : InRange n.getLowerFence n.getUpperFence k)
    (p : Key) : n.HasPrefix (k, p) := by
  have hpfx : n.heap.pfx = n.getLowerFence.take n.prefixLen := n.heap.pfx_eq_take hn.layout.pfx
  rw [HasPrefix, hpfx, hn.prefixLen]
  exact hk.isPrefix

lemma freeSpaceAfterCompaction_eq (hn : n.Valid limit) :
    n.freeSpaceAfterCompaction = pageSize - n.view.size :=
  hn.accounted.freeSpaceAfterCompaction_eq

/-- There is space for an entry exactly when the page with the entry fits. -/
lemma hasSpaceFor_iff (hn : n.Valid limit) {k p : Key}
    (hk : InRange n.getLowerFence n.getUpperFence k)
    (hsize : slotSize + (k.length - n.prefixLen) + p.length < 2 ^ 32) :
    n.hasSpaceFor k.length p.length = true ↔
      n.view.size + slotSize + entrySpace n.prefixLen (k, p) ≤ pageSize := by
  have hsz := hn.size_le
  have hpfx : n.prefixLen ≤ k.length := by
    rw [hn.prefixLen]
    exact hk.prefix_le
  rw [hasSpaceFor, decide_eq_true_eq, spaceNeeded_eq hpfx hsize, hn.freeSpaceAfterCompaction_eq]
  omega

/-- An inner page without fences has space for a third entry. -/
lemma hasSpaceFor_few (hn : n.Valid) (hleaf : n.isLeaf = false) (hlow : n.getLowerFence = [])
    (hup : n.getUpperFence = []) (hcount : n.count ≤ 2) {k : Key} (hk : k.length ≤ maxKVSize) :
    n.hasSpaceFor k.length 8 = true := by
  have hrange : InRange n.getLowerFence n.getUpperFence k := ⟨Or.inl hlow, Or.inl hup⟩
  have hspace : ∀ es : List (Key × Key), (∀ e ∈ es, View.EntryOk false e) →
      entriesSpace n.prefixLen es ≤ es.length * (maxKVSize + 8) := by
    intro es
    induction es with
    | nil => simp
    | cons e es ih =>
      intro hes
      have hrest := ih (fun f hf => hes f (List.mem_cons_of_mem _ hf))
      obtain ⟨-, h1, h2⟩ : e.1 ≠ [] ∧ e.1.length ≤ maxKVSize ∧ e.2.length = 8 := by
        simpa [View.EntryOk] using hes e (List.mem_cons_self ..)
      rw [entriesSpace_cons, List.length_cons, entrySpace, Nat.succ_mul]
      omega
  have hentries := hspace n.entries (fun e he => hleaf ▸ hn.ok.entryOk e he)
  have hmul := Nat.mul_le_mul_right (maxKVSize + 8) (length_entries n ▸ hcount)
  rw [hn.prefixLen] at hentries
  have hiff := hn.hasSpaceFor_iff hrange (k := k) (p := List.replicate 8 0)
  rw [List.length_replicate] at hiff
  change k.length ≤ 993 at hk
  change _ ≤ 2 * 1001 at hmul
  simp only [slotSize] at hiff
  rw [hiff (by omega), entrySpace, List.length_replicate]
  simp only [View.size, View.spaceUsed, view_entries, length_entries, view_lower, view_upper, hlow,
    hup, List.length_nil, slotPos_eq]
  simp only [pageSize]
  omega

end Valid

end BTreeNode

end MemSafeDB
