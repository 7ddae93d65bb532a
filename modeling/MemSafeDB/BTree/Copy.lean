import MemSafeDB.BTree.Layout

/-!
# Storing and copying entries

`storeKeyValue` and the two loops of `copyKeyValueRange` do the same thing: they put the key
behind the prefix of the target and the payload below everything stored so far. They succeed
exactly when the bytes fit.
-/

namespace MemSafeDB
open Lib

/-- Bytes an entry takes on a page with the prefix length `p`, its slot not counted. -/
def entrySpace (p : Nat) (e : Key × Key) : Nat := e.1.length - p + e.2.length

/-- Bytes the entries take on a page with the prefix length `p`, their slots not counted. -/
def entriesSpace (p : Nat) (es : List (Key × Key)) : Nat := (es.map (entrySpace p)).sum

@[simp] lemma entriesSpace_nil (p : Nat) : entriesSpace p [] = 0 := rfl

@[simp] lemma entriesSpace_cons (p : Nat) (e : Key × Key) (es : List (Key × Key)) :
    entriesSpace p (e :: es) = entrySpace p e + entriesSpace p es := by
  simp [entriesSpace]

@[simp] lemma entriesSpace_append (p : Nat) (es fs : List (Key × Key)) :
    entriesSpace p (es ++ fs) = entriesSpace p es + entriesSpace p fs := by
  simp [entriesSpace]

namespace BTreeNode

/-- Puts key and payload into the heap and describes them with slot `j`. -/
def putEntry (n : BTreeNode) (j : Nat) (e : Key × Key) : BTreeNode :=
  let key := e.1.drop n.prefixLen
  { n with
    slot := Function.update n.slot j (Layout.nextSlot n.heap key e.2)
    dataOffset := n.dataOffset - (key ++ e.2).length
    spaceUsed := n.spaceUsed + (key ++ e.2).length
    bytes := n.bytes.write (n.dataOffset - (key ++ e.2).length) (key ++ e.2) }

def putEntries (n : BTreeNode) : Nat → List (Key × Key) → BTreeNode
  | _, [] => n
  | j, e :: es => (n.putEntry j e).putEntries (j + 1) es

lemma heap_putEntry (n : BTreeNode) (j : Nat) (e : Key × Key) :
    (n.putEntry j e).heap = n.heap.put (e.1.drop n.prefixLen ++ e.2) := rfl

lemma dataOffset_putEntry (n : BTreeNode) (j : Nat) (e : Key × Key) :
    (n.putEntry j e).dataOffset = n.dataOffset - entrySpace n.prefixLen e := by
  simp [putEntry, entrySpace]

/-- The heap stays within the page and the entry is not longer than a page. -/
structure Storable (n : BTreeNode) (e : Key × Key) : Prop where
  room : n.dataOffset + n.spaceUsed ≤ pageSize
  key : e.1.length ≤ pageSize
  payload : e.2.length ≤ pageSize
  pfx : n.prefixLen ≤ e.1.length

lemma storeKeyValue_eq {n : BTreeNode} {e : Key × Key} (hs : n.Storable e) (slotId : Nat)
    (hfit : slotPos slotId + entrySpace n.prefixLen e ≤ n.dataOffset) :
    n.storeKeyValue slotId e.1 e.2 = .ok (n.putEntry slotId e) := by
  obtain ⟨hroom, hkey, hpay, hpfx⟩ := hs
  simp only [entrySpace, slotPos_eq, pageSize] at *
  have hk : u32 (e.1.length - n.prefixLen) = e.1.length - n.prefixLen :=
    u32_eq (by omega) (by omega)
  have hsp : u32 (((e.1.length - n.prefixLen : Nat) : Int) + e.2.length) =
      e.1.length - n.prefixLen + e.2.length := u32_eq (by omega) (by omega)
  have hoff : u16 ((n.dataOffset : Int) - (e.1.length - n.prefixLen + e.2.length : Nat)) =
      n.dataOffset - (e.1.length - n.prefixLen + e.2.length) := u16_eq (by omega) (by omega)
  have hused : u16 ((n.spaceUsed : Int) + (e.1.length - n.prefixLen + e.2.length : Nat)) =
      n.spaceUsed + (e.1.length - n.prefixLen + e.2.length) := u16_eq (by omega) (by omega)
  have hkl : u16 ((e.1.length - n.prefixLen : Nat) : Int) = e.1.length - n.prefixLen :=
    u16_eq rfl (by omega)
  have hpl : u16 (e.2.length : Int) = e.2.length := u16_eq rfl (by omega)
  have hcheck : 104 + 10 * slotId ≤ n.dataOffset - (e.1.length - n.prefixLen + e.2.length) := by
    omega
  have hlong : ¬ e.1.length < n.prefixLen := by omega
  have hin : n.dataOffset - (e.1.length - n.prefixLen + e.2.length) +
        (e.1.length - n.prefixLen + e.2.length) ≤ 4096 := by omega
  simp only [storeKeyValue, hk, hsp, hoff, hused, hkl, hpl, check, slotPos_eq, hcheck, ite_true,
    hlong, ite_false, storeBytes, setSlot, List.length_append, List.length_drop, hin,
    bind, Except.bind, pageSize]
  simp only [putEntry, Layout.nextSlot, heap, List.length_append, List.length_drop]

/-- The source of a copy: slot `i` describes the entry `e`. -/
structure Source (n : BTreeNode) (i : Nat) (e : Key × Key) : Prop where
  entry : n.heap.entry (n.slot i) = e
  prefixLen : n.prefixLen ≤ pageSize
  stop : (n.slot i).stop ≤ pageSize

lemma Source.length {n : BTreeNode} {i : Nat} {e : Key × Key} (hs : n.Source i e) :
    e.1.length = n.prefixLen + (n.slot i).keyLen ∧ e.2.length = (n.slot i).payloadLen := by
  rw [← hs.entry]
  simp [Heap.entry]
  rfl

/-- The bytes copied when the prefix grows are the shortened key and the payload. -/
lemma Source.read_entry {n : BTreeNode} {i : Nat} {e : Key × Key} (hs : n.Source i e) {p : Nat}
    (hp : n.prefixLen ≤ p) (hpe : p ≤ e.1.length) :
    n.bytes.read ((n.slot i).offset + (p - n.prefixLen)) (e.1.length - p) = e.1.drop p ∧
      n.bytes.read ((n.slot i).offset + (p - n.prefixLen)) (entrySpace p e) =
        e.1.drop p ++ e.2 := by
  have hlen := hs.length
  have hkey : e.1.drop p = n.bytes.read ((n.slot i).offset + (p - n.prefixLen)) (e.1.length - p) := by
    have hk : e.1 = n.getPrefix ++ n.bytes.read (n.slot i).offset (n.slot i).keyLen := by
      rw [← hs.entry]
      rfl
    conv_lhs => rw [hk]
    rw [List.drop_append, List.drop_of_length_le (by simp; omega), List.nil_append,
      length_getPrefix, Memory.drop_read _ _ _ _ (by omega)]
    congr 1
    omega
  have hpay : e.2 = n.bytes.read ((n.slot i).offset + (n.slot i).keyLen) (n.slot i).payloadLen := by
    rw [← hs.entry]
    rfl
  refine ⟨hkey.symm, ?_⟩
  rw [hkey, entrySpace, Memory.read_add, hlen.2]
  congr 1
  rw [hpay]
  congr 1
  omega

lemma copyEntry_eq {n dst : BTreeNode} {i : Nat} {e : Key × Key} (hs : n.Source i e)
    (hd : dst.Storable e) (hp : n.prefixLen ≤ dst.prefixLen) (j : Nat)
    (hfit : entrySpace dst.prefixLen e ≤ dst.dataOffset) :
    n.copyEntry i dst j (dst.prefixLen - n.prefixLen) = .ok (dst.putEntry j e) := by
  obtain ⟨hroom, hkey, hpay, hpfx⟩ := hd
  obtain ⟨hlk, hlp⟩ := hs.length
  obtain ⟨hrk, hrs⟩ := hs.read_entry hp hpfx
  simp only [entrySpace, pageSize] at *
  have hk : u32 (((n.slot i).keyLen : Int) - (dst.prefixLen - n.prefixLen : Nat)) =
      e.1.length - dst.prefixLen := u32_eq (by omega) (by omega)
  have hsp : u32 (((e.1.length - dst.prefixLen : Nat) : Int) + (n.slot i).payloadLen) =
      e.1.length - dst.prefixLen + e.2.length := u32_eq (by omega) (by omega)
  have hoff : u16 ((dst.dataOffset : Int) - (e.1.length - dst.prefixLen + e.2.length : Nat)) =
      dst.dataOffset - (e.1.length - dst.prefixLen + e.2.length) := u16_eq (by omega) (by omega)
  have hused : u16 ((dst.spaceUsed : Int) + (e.1.length - dst.prefixLen + e.2.length : Nat)) =
      dst.spaceUsed + (e.1.length - dst.prefixLen + e.2.length) := u16_eq (by omega) (by omega)
  have hkl : u16 ((e.1.length - dst.prefixLen : Nat) : Int) = e.1.length - dst.prefixLen :=
    u16_eq rfl (by omega)
  have hin : dst.dataOffset - (e.1.length - dst.prefixLen + e.2.length) +
        (e.1.length - dst.prefixLen + e.2.length) ≤ 4096 := by omega
  simp only [copyEntry, hk, hsp, hoff, setSlot, hused, hkl, storeBytes, hrk, hrs, List.length_append,
    List.length_drop, hin, ite_true, pageSize]
  simp only [putEntry, Layout.nextSlot, heap, List.length_append, List.length_drop, ← hlp]

lemma copyEntry_fits {n dst dst' : BTreeNode} {i : Nat} {e : Key × Key} (hs : n.Source i e)
    (hd : dst.Storable e) (hp : n.prefixLen ≤ dst.prefixLen) {j : Nat}
    (h : n.copyEntry i dst j (dst.prefixLen - n.prefixLen) = .ok dst') :
    entrySpace dst.prefixLen e ≤ dst.dataOffset := by
  obtain ⟨hroom, hkey, hpay, hpfx⟩ := hd
  obtain ⟨hlk, hlp⟩ := hs.length
  by_contra hc
  simp only [entrySpace, pageSize] at *
  have hk : u32 (((n.slot i).keyLen : Int) - (dst.prefixLen - n.prefixLen : Nat)) =
      e.1.length - dst.prefixLen := u32_eq (by omega) (by omega)
  have hsp : u32 (((e.1.length - dst.prefixLen : Nat) : Int) + (n.slot i).payloadLen) =
      e.1.length - dst.prefixLen + e.2.length := u32_eq (by omega) (by omega)
  -- the offset wraps around to the end of the range of u16
  have hoff : u16 ((dst.dataOffset : Int) - (e.1.length - dst.prefixLen + e.2.length : Nat)) =
      dst.dataOffset + 65536 - (e.1.length - dst.prefixLen + e.2.length) := by
    unfold u16
    omega
  simp only [copyEntry, hk, hsp, setSlot, storeBytes, Memory.length_read, pageSize] at h
  split at h
  · omega
  · cases h

lemma copyEntry_overflow {n dst : BTreeNode} {i : Nat} {e : Key × Key} (hs : n.Source i e)
    (hd : dst.Storable e) (hp : n.prefixLen ≤ dst.prefixLen) (j : Nat)
    (hover : dst.dataOffset < entrySpace dst.prefixLen e) :
    n.copyEntry i dst j (dst.prefixLen - n.prefixLen) = .error .overflow := by
  have hcases : (∃ d, n.copyEntry i dst j (dst.prefixLen - n.prefixLen) = .ok d) ∨
      n.copyEntry i dst j (dst.prefixLen - n.prefixLen) = .error .overflow := by
    simp only [copyEntry, storeBytes]
    split
    · exact Or.inl ⟨_, rfl⟩
    · exact Or.inr rfl
  rcases hcases with ⟨d, hok⟩ | herr
  · have hfit := copyEntry_fits hs hd hp hok
    omega
  · exact herr

/-! ## Copying a range -/

lemma copyStep_eq {n dst : BTreeNode} {i : Nat} {e : Key × Key} (hs : n.Source i e)
    (hd : dst.Storable e) (j : Nat)
    (hfit : slotPos j + entrySpace dst.prefixLen e ≤ dst.dataOffset) :
    n.copyStep i dst j = .ok (dst.putEntry j e) := by
  unfold copyStep
  by_cases hp : n.prefixLen ≤ dst.prefixLen
  · simp only [hp, ite_true]
    exact copyEntry_eq hs hd hp j (by omega)
  · simp only [hp, ite_false, copyKeyValue]
    have he : (n.getPrefix ++ n.getKey i, n.getPayload i) = e := hs.entry
    subst he
    exact storeKeyValue_eq hd j hfit

lemma Storable.putEntry {n : BTreeNode} {e f : Key × Key} (he : n.Storable e) (hf : n.Storable f)
    (hd : entrySpace n.prefixLen e ≤ n.dataOffset) (j : Nat) : (n.putEntry j e).Storable f := by
  refine ⟨?_, hf.key, hf.payload, hf.pfx⟩
  have hroom := he.room
  have hlen : (e.1.drop n.prefixLen ++ e.2).length = entrySpace n.prefixLen e := by
    simp [entrySpace]
  simp only [BTreeNode.putEntry, hlen]
  omega

/-- The copying loop succeeds when the slots and the bytes of the entries fit. -/
lemma copyLoop_eq {n : BTreeNode} (es : List (Key × Key)) {dst : BTreeNode} {i : Nat}
    (hs : ∀ k (h : k < es.length), n.Source (i + k) es[k]) (hd : ∀ e ∈ es, dst.Storable e) (j : Nat)
    (hfit : slotPos (j + es.length) + entriesSpace dst.prefixLen es ≤ dst.dataOffset) :
    n.copyLoop es.length dst j i = .ok (dst.putEntries j es) := by
  induction es generalizing dst i j with
  | nil => rfl
  | cons e es ih =>
    simp only [List.length_cons, entriesSpace_cons, slotPos_eq] at hfit
    have he := hd e (List.mem_cons_self ..)
    have hstep := copyStep_eq (hs 0 (by simp)) he j (by simp only [slotPos_eq, List.getElem_cons_zero]; omega)
    simp only [Nat.add_zero, List.getElem_cons_zero] at hstep
    simp only [List.length_cons, copyLoop, hstep, bind, Except.bind, putEntries]
    apply ih
    · intro k hk
      have hk' := hs (k + 1) (by simpa using hk)
      rwa [List.getElem_cons_succ, ← Nat.add_assoc, Nat.add_right_comm] at hk'
    · intro f hf
      exact he.putEntry (hd f (List.mem_cons_of_mem _ hf)) (by omega) j
    · rw [dataOffset_putEntry, slotPos_eq]
      change _ + entriesSpace dst.prefixLen es ≤ _
      omega

/-- When the prefix grows, the loop stops at the first entry whose bytes run out of the page. -/
lemma copyLoop_grow {n : BTreeNode} (es : List (Key × Key)) {dst : BTreeNode} {i : Nat}
    (hs : ∀ k (h : k < es.length), n.Source (i + k) es[k]) (hd : ∀ e ∈ es, dst.Storable e)
    (hp : n.prefixLen ≤ dst.prefixLen) (j : Nat) :
    n.copyLoop es.length dst j i =
      if entriesSpace dst.prefixLen es ≤ dst.dataOffset then .ok (dst.putEntries j es)
      else .error .overflow := by
  induction es generalizing dst i j with
  | nil => rfl
  | cons e es ih =>
    have he := hd e (List.mem_cons_self ..)
    have hsrc := hs 0 (by simp)
    simp only [Nat.add_zero, List.getElem_cons_zero] at hsrc
    simp only [List.length_cons, copyLoop, copyStep, hp, ite_true, bind, Except.bind,
      entriesSpace_cons]
    by_cases hfit : entrySpace dst.prefixLen e ≤ dst.dataOffset
    · rw [copyEntry_eq hsrc he hp j hfit]
      have hnext := @ih (dst.putEntry j e) (i + 1)
        (fun k hk => by
          have hk' := hs (k + 1) (by simpa using hk)
          rwa [List.getElem_cons_succ, ← Nat.add_assoc, Nat.add_right_comm] at hk')
        (fun f hf => he.putEntry (hd f (List.mem_cons_of_mem _ hf)) hfit j) hp (j + 1)
      rw [dataOffset_putEntry] at hnext
      simp only [putEntries]
      rw [hnext]
      change (if entriesSpace dst.prefixLen es ≤ _ then _ else _) = _
      split <;> split <;> first | rfl | omega
    · rw [copyEntry_overflow hsrc he hp j (by omega), if_neg (by omega)]

/-- The first `j` slots of the page are laid out and hold the entries `es`. -/
structure Filled (n : BTreeNode) (j : Nat) (es : List (Key × Key)) : Prop where
  layout : Layout n.heap (firstn n.slot j)
  entries : (firstn n.slot j).map n.heap.entry = es

/-- What storing entries leaves alone. -/
structure Frame (n n' : BTreeNode) : Prop where
  isLeaf : n'.isLeaf = n.isLeaf
  link : n'.link = n.link
  prefixLen : n'.prefixLen = n.prefixLen
  pfx : n'.heap.pfx = n.heap.pfx
  lower : n'.heap.lower = n.heap.lower
  upper : n'.heap.upper = n.heap.upper

lemma Frame.refl (n : BTreeNode) : Frame n n := ⟨rfl, rfl, rfl, rfl, rfl, rfl⟩

lemma Frame.trans {a b c : BTreeNode} (h : Frame a b) (h' : Frame b c) : Frame a c :=
  ⟨h'.isLeaf.trans h.isLeaf, h'.link.trans h.link, h'.prefixLen.trans h.prefixLen,
    h'.pfx.trans h.pfx, h'.lower.trans h.lower, h'.upper.trans h.upper⟩

/-- The key of the entry starts with the prefix of the page. -/
def HasPrefix (n : BTreeNode) (e : Key × Key) : Prop := n.heap.pfx <+: e.1

lemma HasPrefix.length_le {n : BTreeNode} {e : Key × Key} (h : n.HasPrefix e) :
    n.prefixLen ≤ e.1.length := by
  have hl := List.IsPrefix.length_le h
  rwa [Heap.length_pfx] at hl

lemma HasPrefix.append_drop {n : BTreeNode} {e : Key × Key} (h : n.HasPrefix e) :
    n.heap.pfx ++ e.1.drop n.prefixLen = e.1 := by
  obtain ⟨t, ht⟩ := h
  have hl : n.heap.pfx.length = n.prefixLen := Heap.length_pfx _
  rw [← ht, ← hl, List.drop_left]

lemma frame_putEntry {n : BTreeNode} {ss : List Slot} (hl : Layout n.heap ss) {e : Key × Key}
    (hd : entrySpace n.prefixLen e ≤ n.dataOffset) (j : Nat) : Frame n (n.putEntry j e) := by
  have hlen : (e.1.drop n.prefixLen ++ e.2).length ≤ n.heap.dataOffset := by
    rw [List.length_append, List.length_drop]
    exact hd
  refine ⟨rfl, rfl, rfl, ?_, ?_, ?_⟩
  · rw [heap_putEntry, hl.pfx_put hlen]
  · rw [heap_putEntry, hl.lower_put hlen]
  · rw [heap_putEntry, hl.upper_put hlen]

lemma firstn_update_self {β : Type} (f : Nat → β) (j : Nat) (x : β) :
    firstn (Function.update f j x) (j + 1) = firstn f j ++ [x] := by
  rw [firstn_succ, Function.update_self]
  congr 1
  apply firstn_congr
  intro i hi
  exact Function.update_of_ne (by omega) _ _

lemma Filled.putEntry {n : BTreeNode} {j : Nat} {es : List (Key × Key)} (hf : n.Filled j es)
    {e : Key × Key} (hp : n.HasPrefix e)
    (hfit : slotPos (j + 1) + entrySpace n.prefixLen e ≤ n.dataOffset) :
    (n.putEntry j e).Filled (j + 1) (es ++ [e]) := by
  have hslots : firstn (n.putEntry j e).slot (j + 1) =
      firstn n.slot j ++ [Layout.nextSlot n.heap (e.1.drop n.prefixLen) e.2] :=
    firstn_update_self _ _ _
  have hsp : entrySpace n.prefixLen e = (e.1.drop n.prefixLen).length + e.2.length := by
    simp [entrySpace]
  rw [hsp] at hfit
  constructor
  · rw [hslots, heap_putEntry]
    apply hf.layout.put
    · rw [length_firstn]
      exact hfit
    · exact List.perm_append_comm
  · rw [hslots, heap_putEntry, List.map_append, List.map_singleton]
    congr 1
    · rw [← hf.entries]
      apply List.map_congr_left
      intro s hs
      exact hf.layout.entry_put (by rw [List.length_append]; change _ ≤ n.dataOffset; omega) hs
    · rw [hf.layout.entry_nextSlot (by change _ ≤ n.dataOffset; omega), hp.append_drop]

lemma Filled.putEntries {n : BTreeNode} {j : Nat} {es : List (Key × Key)} (hf : n.Filled j es)
    (fs : List (Key × Key)) (hp : ∀ e ∈ fs, n.HasPrefix e)
    (hfit : slotPos (j + fs.length) + entriesSpace n.prefixLen fs ≤ n.dataOffset) :
    (n.putEntries j fs).Filled (j + fs.length) (es ++ fs) ∧ Frame n (n.putEntries j fs) ∧
      (n.putEntries j fs).count = n.count ∧
      (n.putEntries j fs).dataOffset = n.dataOffset - entriesSpace n.prefixLen fs := by
  induction fs generalizing n j es with
  | nil => simpa [BTreeNode.putEntries] using ⟨hf, Frame.refl n⟩
  | cons e fs ih =>
    simp only [List.length_cons, entriesSpace_cons, slotPos_eq] at hfit
    have hframe := frame_putEntry hf.layout (e := e) (by omega) j
    have hstep := hf.putEntry (hp e (List.mem_cons_self ..)) (by rw [slotPos_eq]; omega)
    have hp' : ∀ f ∈ fs, (n.putEntry j e).HasPrefix f := by
      intro f hf'
      rw [HasPrefix, hframe.pfx]
      exact hp f (List.mem_cons_of_mem _ hf')
    obtain ⟨h1, h2, h3, h4⟩ := ih hstep hp' (by
      rw [dataOffset_putEntry, hframe.prefixLen, slotPos_eq]
      omega)
    refine ⟨?_, hframe.trans h2, h3, ?_⟩
    · have heq : j + 1 + fs.length = j + (fs.length + 1) := by omega
      rw [heq, List.append_assoc, List.singleton_append] at h1
      exact h1
    · change ((n.putEntry j e).putEntries (j + 1) fs).dataOffset = _
      rw [h4, dataOffset_putEntry, hframe.prefixLen, entriesSpace_cons]
      omega

/-- The target of a copy of the entries `es`. -/
structure Target (dst : BTreeNode) (es : List (Key × Key)) : Prop where
  pfx : ∀ e ∈ es, dst.HasPrefix e
  size : ∀ e ∈ es, e.1.length ≤ pageSize ∧ e.2.length ≤ pageSize
  length : es.length ≤ maxSlots

lemma Target.storable {dst : BTreeNode} {es : List (Key × Key)} (ht : dst.Target es)
    {ss : List Slot} (hl : Layout dst.heap ss) : ∀ e ∈ es, dst.Storable e :=
  fun e he => ⟨hl.room, (ht.size e he).1, (ht.size e he).2, (ht.pfx e he).length_le⟩

lemma putEntries_sizes (m : BTreeNode) (j : Nat) (gs : List (Key × Key)) :
    (m.putEntries j gs).dataOffset = m.dataOffset - entriesSpace m.prefixLen gs ∧
      (m.putEntries j gs).count = m.count := by
  induction gs generalizing m j with
  | nil => simp [putEntries]
  | cons e gs ih =>
    obtain ⟨h1, h2⟩ := ih (m.putEntry j e) (j + 1)
    rw [putEntries, h1, h2, dataOffset_putEntry, entriesSpace_cons]
    refine ⟨?_, rfl⟩
    change _ - entriesSpace m.prefixLen gs = _
    omega

/-- What a copied range leaves in the target. -/
structure Copied (dst : BTreeNode) (es fs : List (Key × Key)) (dst' : BTreeNode) : Prop where
  filled : dst'.Filled dst'.count (es ++ fs)
  frame : Frame dst dst'
  count : dst'.count = dst.count + fs.length
  room : slotPos (dst.count + fs.length) + entriesSpace dst.prefixLen fs ≤ dst.dataOffset
  dataOffset : dst'.dataOffset = dst.dataOffset - entriesSpace dst.prefixLen fs

lemma copied_putEntries {dst : BTreeNode} {es fs : List (Key × Key)}
    (hf : dst.Filled dst.count es) (ht : dst.Target fs)
    (hfit : slotPos (dst.count + fs.length) + entriesSpace dst.prefixLen fs ≤ dst.dataOffset) :
    Copied dst es fs { dst.putEntries dst.count fs with count := dst.count + fs.length } := by
  obtain ⟨h1, h2, h3, h4⟩ := hf.putEntries fs ht.pfx hfit
  exact ⟨⟨h1.layout, h1.entries⟩, ⟨h2.isLeaf, h2.link, h2.prefixLen, h2.pfx, h2.lower, h2.upper⟩,
    rfl, hfit, h4⟩

lemma u16_count {dst : BTreeNode} {es fs : List (Key × Key)} (hf : dst.Filled dst.count es)
    (ht : dst.Target fs) : u16 ((dst.count : Int) + fs.length) = dst.count + fs.length := by
  have h1 := hf.layout.length_le
  have h2 := ht.length
  rw [length_firstn] at h1
  change _ ≤ 399 at h1 h2
  exact u16_eq rfl (by omega)

/-- Copying a range of entries that fits appends them to the entries of the target. -/
lemma copyKeyValueRange_eq {n dst : BTreeNode} {es fs : List (Key × Key)} {i : Nat}
    (hs : ∀ k (h : k < fs.length), n.Source (i + k) fs[k]) (hf : dst.Filled dst.count es)
    (ht : dst.Target fs)
    (hfit : slotPos (dst.count + fs.length) + entriesSpace dst.prefixLen fs ≤ dst.dataOffset) :
    ∃ dst', n.copyKeyValueRange dst dst.count i fs.length = .ok dst' ∧ Copied dst es fs dst' := by
  have hcopy := copied_putEntries hf ht hfit
  refine ⟨_, ?_, hcopy⟩
  have hend : slotPos (dst.count + fs.length) ≤ (dst.putEntries dst.count fs).dataOffset := by
    have hoff : (dst.putEntries dst.count fs).dataOffset =
        dst.dataOffset - entriesSpace dst.prefixLen fs := hcopy.dataOffset
    omega
  obtain ⟨-, -, hcount, -⟩ := hf.putEntries fs ht.pfx hfit
  simp only [copyKeyValueRange, copyLoop_eq fs hs (ht.storable hf.layout) dst.count hfit, bind,
    Except.bind, check, hcount, u16_count hf ht, hend, ite_true]
  rfl

/-- A copy to a longer prefix that does not fit runs out of the page, or fails the assertion at
its end when the copied bytes collide with the slots or the header. -/
lemma copyKeyValueRange_unfit {n dst : BTreeNode} {es fs : List (Key × Key)} {i : Nat}
    (hs : ∀ k (h : k < fs.length), n.Source (i + k) fs[k]) (hf : dst.Filled dst.count es)
    (ht : dst.Target fs) (hp : n.prefixLen ≤ dst.prefixLen)
    (hunfit : dst.dataOffset < slotPos (dst.count + fs.length) + entriesSpace dst.prefixLen fs) :
    n.copyKeyValueRange dst dst.count i fs.length =
      .error (if dst.dataOffset < entriesSpace dst.prefixLen fs then .overflow
        else .assertion .copyKeyValueRange) := by
  simp only [copyKeyValueRange, copyLoop_grow fs hs (ht.storable hf.layout) hp, bind, Except.bind]
  by_cases hover : dst.dataOffset < entriesSpace dst.prefixLen fs
  · rw [if_neg (by omega), if_pos hover]
  · rw [if_pos (by omega), if_neg hover]
    obtain ⟨h1, h2⟩ := putEntries_sizes dst dst.count fs
    simp only [h2, u16_count hf ht, h1, check]
    rw [if_neg (by omega)]

end BTreeNode

end MemSafeDB
