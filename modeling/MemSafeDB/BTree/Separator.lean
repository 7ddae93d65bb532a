import MemSafeDB.BTree.Routes

/-!
# Separators

`findSeparator` picks the slot at which a node is split, and `getSep` the key that separates
the halves. In a leaf the separator is the key of the slot, or a shorter string below the next
key; in an inner node it is the key of the slot, which moves to the parent.
-/

namespace MemSafeDB
open Lib

/-- The separator `sep` cuts the entries behind `e`. -/
structure Separator (v : View) (info : BTreeNode.SeparatorInfo) (sep : Key)
    (es : List (Key × Key)) (e : Key × Key) (fs : List (Key × Key)) : Prop where
  entries : v.entries = es ++ e :: fs
  slot : info.slot = es.length
  len : info.len = sep.length
  le : e.1 ≤ sep
  length_le : sep.length ≤ e.1.length
  inner : v.isLeaf = false → sep = e.1
  leaf : v.isLeaf = true → ∃ f gs, fs = f :: gs ∧ sep < f.1 ∧
    (info.isTruncated = true → sep.length < f.1.length) ∧ (info.isTruncated = false → sep = e.1)

namespace BTreeNode

variable {n : BTreeNode} {limit : Nat}

lemma commonPrefix_eq {a : Nat} (ha : a < n.count) (b : Nat) :
    n.commonPrefix a b = .ok (commonLen (n.getKey a) (n.getKey b)) := by
  simp only [commonPrefix, check, ha, ite_true, bind, Except.bind, pure, Except.pure]

lemma findChange_eq (bestPrefixLen : Nat) (left bestSlot : Nat) (h : bestSlot + left ≤ n.count) :
    ∃ s, n.findChange bestPrefixLen left bestSlot = .ok s ∧ bestSlot ≤ s ∧ s ≤ bestSlot + left := by
  induction left generalizing bestSlot with
  | zero => exact ⟨bestSlot, rfl, le_rfl, le_rfl⟩
  | succ left ih =>
    simp only [findChange, commonPrefix_eq (show bestSlot < n.count by omega), bind, Except.bind]
    by_cases hc : commonLen (n.getKey bestSlot) (n.getKey 0) = bestPrefixLen
    · obtain ⟨s, hs, h1, h2⟩ := ih (bestSlot + 1) (by omega)
      exact ⟨s, by simp only [hc, ite_true, hs], by omega, by omega⟩
    · exact ⟨bestSlot, by simp only [hc, ite_false]; rfl, le_rfl, by omega⟩

/-- The split slot of a leaf has a next slot, and it is positive if there are three entries. -/
lemma findSplitSlot_eq (h : 1 < n.count) (splitOrdered : Bool) :
    ∃ s, n.findSplitSlot splitOrdered = .ok s ∧ s + 1 < n.count ∧ (0 < s ↔ 2 < n.count) := by
  unfold findSplitSlot
  by_cases ho : splitOrdered = true
  · exact ⟨n.count - 2, by simp only [ho, ite_true]; rfl, by omega, by omega⟩
  · by_cases hc : 16 < n.count
    · have hl : n.count / 2 - n.count / 16 < n.count := by omega
      have hu : n.count / 2 - 1 < n.count := by omega
      simp only [ho, hc, ite_true, Bool.false_eq_true, ite_false, commonPrefix_eq hl,
        commonPrefix_eq hu, bind, Except.bind]
      by_cases hne : commonLen (n.getKey (n.count / 2 - n.count / 16)) (n.getKey 0) ≠
          commonLen (n.getKey (n.count / 2 - 1)) (n.getKey 0)
      · obtain ⟨s, hs, h1, h2⟩ := findChange_eq (n := n)
          (commonLen (n.getKey (n.count / 2 - n.count / 16)) (n.getKey 0))
          (n.count / 2 - (n.count / 2 - n.count / 16 + 1)) (n.count / 2 - n.count / 16 + 1) (by omega)
        exact ⟨s, by rw [if_pos hne, hs], by omega, by omega⟩
      · exact ⟨_, by rw [if_neg hne]; rfl, by omega, by omega⟩
    · exact ⟨(n.count - 1) / 2, by simp only [ho, hc, ite_false, Bool.false_eq_true]; rfl,
        by omega, by omega⟩

lemma getElem_entries {i : Nat} (hi : i < n.entries.length) :
    n.entries[i] = (n.fullKey i, n.getPayload i) := by
  simp [entries, getElem_firstn]

lemma entries_split {i : Nat} (hi : i < n.count) :
    n.entries = n.entries.take i ++ (n.fullKey i, n.getPayload i) :: n.entries.drop (i + 1) := by
  have hi' : i < n.entries.length := by simpa using hi
  rw [← getElem_entries hi', List.getElem_cons_drop, List.take_append_drop]

/-- The slot that a search finds holds the key. -/
lemma Valid.found (hn : n.Valid limit) {key : Key} (hk : key ∈ n.keys) :
    rank n.keys key < n.count ∧ n.fullKey (rank n.keys key) = key := by
  obtain ⟨hlt, heq⟩ := (hn.searchable.sorted.mem_iff_rank key).mp hk
  have hcount : rank n.keys key < n.count := by simpa using hlt
  refine ⟨hcount, Eq.trans ?_ heq⟩
  simp only [keys, getElem_firstn]

@[simp] lemma length_fullKey (n : BTreeNode) (i : Nat) :
    (n.fullKey i).length = n.prefixLen + (n.slot i).keyLen := by
  simp [fullKey]

/-- A separator that is not truncated is the key of its slot. -/
lemma getSep_untruncated (i : Nat) :
    n.getSep ⟨n.prefixLen + (n.slot i).keyLen, i, false⟩ = n.fullKey i := by
  simp [getSep, fullKey, getKey]

/-- A truncated separator is the shortest prefix of the next key that is above the key. -/
lemma truncated_between {a b : Key} (h : a < b) (ha : commonLen a b < a.length)
    (hb : commonLen a b + 1 < b.length) :
    a ≤ b.take (commonLen a b + 1) ∧ b.take (commonLen a b + 1) < b := by
  constructor
  · by_contra hc
    have hle : b.take (commonLen a b + 1) ≤ a := (not_le.mp hc).le
    have htake : a.take (commonLen a b + 1) = b.take (commonLen a b + 1) := by
      have hbt := take_eq_of_between hle h.le (m := commonLen a b + 1)
        (by rw [List.take_take, Nat.min_self])
      rwa [List.take_take, Nat.min_self] at hbt
    have hcl := le_commonLen (by omega) (by omega) htake
    omega
  · refine lt_of_le_of_ne (take_le b _) ?_
    intro heq
    have hlen := congrArg List.length heq
    rw [List.length_take] at hlen
    omega

lemma getSep_truncated {i c : Nat} (hc : c + 1 ≤ (n.slot (i + 1)).keyLen) :
    n.getSep ⟨n.prefixLen + c + 1, i, true⟩ = n.getPrefix ++ (n.getKey (i + 1)).take (c + 1) := by
  have hlen : n.prefixLen + c + 1 - n.prefixLen = c + 1 := by omega
  simp only [getSep, Bool.toNat_true, hlen, getKey, Memory.take_read, Nat.min_eq_left hc]

lemma findSeparator_inner (h : 1 < n.count) (hleaf : n.isLeaf = false)
    (splitOrdered : Bool) :
    ∃ info es e fs, n.findSeparator splitOrdered = .ok info ∧
      Separator n.view info (n.getSep info) es e fs ∧ 0 < info.slot := by
  simp only [findSeparator, check, h, ite_true, bind, Except.bind, isInner, hleaf, Bool.not_false]
  have hi : n.count / 2 < n.count := by omega
  refine ⟨_, n.entries.take (n.count / 2), (n.fullKey (n.count / 2), n.getPayload (n.count / 2)),
    n.entries.drop (n.count / 2 + 1), rfl, ?_, ?_⟩
  · refine ⟨entries_split hi, ?_, ?_, ?_, ?_, ?_, ?_⟩
    · simp only [List.length_take, length_entries]
      omega
    · rw [getSep_untruncated, length_fullKey]
    · rw [getSep_untruncated]
    · rw [getSep_untruncated]
    · intro _
      rw [getSep_untruncated]
    · intro hl
      rw [view_isLeaf, hleaf] at hl
      cases hl
  · dsimp only
    omega

lemma findSeparator_slot_inner {info : SeparatorInfo} {splitOrdered : Bool}
    (hleaf : n.isLeaf = false) (h : n.findSeparator splitOrdered = .ok info) :
    info.slot = n.count / 2 := by
  simp only [findSeparator, isInner, hleaf, Bool.not_false, ite_true, bind, Except.bind, pure,
    Except.pure] at h
  split at h
  · cases h
  · rw [← Except.ok.inj h]

lemma findSeparator_leaf (hn : StrictSorted n.keys) (h : 1 < n.count) (hleaf : n.isLeaf = true)
    (splitOrdered : Bool) :
    ∃ info es e fs, n.findSeparator splitOrdered = .ok info ∧
      Separator n.view info (n.getSep info) es e fs ∧ (0 < info.slot ↔ 2 < n.count) := by
  simp only [findSeparator, check, h, ite_true, bind, Except.bind, isInner, hleaf]
  obtain ⟨s, hs, hlt, hpos⟩ := findSplitSlot_eq h splitOrdered
  simp only [Bool.not_true, Bool.false_eq_true, ite_false, hs,
    commonPrefix_eq (show s < n.count by omega)]
  have hkeys : n.getKey s < n.getKey (s + 1) := getKey_lt hn hlt (Nat.lt_succ_self s)
  have hfull : n.fullKey s < n.fullKey (s + 1) := (append_lt_append_left_iff _).mpr hkeys
  have hdrop : n.entries.drop (s + 1) =
      (n.fullKey (s + 1), n.getPayload (s + 1)) :: n.entries.drop (s + 2) := by
    have hs1 : s + 1 < n.entries.length := by simpa using hlt
    rw [← getElem_entries hs1, List.getElem_cons_drop]
  have hslot : s = (n.entries.take s).length := by
    simp only [List.length_take, length_entries]
    omega
  set c := commonLen (n.getKey s) (n.getKey (s + 1)) with hc
  by_cases htr : s + 1 < n.count ∧ c < (n.slot s).keyLen ∧ c + 1 < (n.slot (s + 1)).keyLen
  · rw [if_pos htr]
    have hbetween := truncated_between hkeys (by simpa using htr.2.1) (by simpa using htr.2.2)
    rw [← hc] at hbetween
    have hsep := getSep_truncated (n := n) (i := s) (c := c) htr.2.2.le
    have hlen : (n.getPrefix ++ (n.getKey (s + 1)).take (c + 1)).length = n.prefixLen + c + 1 := by
      simp only [List.length_append, length_getPrefix, List.length_take, length_getKey]
      omega
    refine ⟨_, n.entries.take s, (n.fullKey s, n.getPayload s), n.entries.drop (s + 1), rfl, ?_, ?_⟩
    · refine ⟨entries_split (by omega), hslot, ?_, ?_, ?_, ?_, ?_⟩
      · rw [hsep, hlen]
      · rw [hsep]
        exact (append_le_append_left_iff _).mpr hbetween.1
      · rw [hsep, hlen, length_fullKey]
        omega
      · intro hl
        rw [view_isLeaf, hleaf] at hl
        cases hl
      · intro _
        refine ⟨_, _, hdrop, ?_, ?_, ?_⟩
        · rw [hsep]
          exact (append_lt_append_left_iff _).mpr hbetween.2
        · intro _
          rw [hsep, hlen, length_fullKey]
          omega
        · intro hf
          cases hf
    · simpa using hpos
  · rw [if_neg htr]
    refine ⟨_, n.entries.take s, (n.fullKey s, n.getPayload s), n.entries.drop (s + 1), rfl, ?_, ?_⟩
    · refine ⟨entries_split (by omega), hslot, ?_, ?_, ?_, ?_, ?_⟩
      · rw [getSep_untruncated, length_fullKey]
      · rw [getSep_untruncated]
      · rw [getSep_untruncated]
      · intro hl
        rw [view_isLeaf, hleaf] at hl
        cases hl
      · intro _
        refine ⟨_, _, hdrop, ?_, ?_, ?_⟩
        · rw [getSep_untruncated]
          exact hfull
        · intro hf
          cases hf
        · intro _
          rw [getSep_untruncated]
    · simpa using hpos

/-- A node with two sorted entries can be separated. The slot of the separator is positive unless
the node is a leaf with just two entries. -/
theorem findSeparator_ok (hn : StrictSorted n.keys) (h : 1 < n.count) (splitOrdered : Bool) :
    ∃ info es e fs, n.findSeparator splitOrdered = .ok info ∧
      Separator n.view info (n.getSep info) es e fs ∧
      (0 < info.slot ↔ n.isLeaf = false ∨ 2 < n.count) := by
  by_cases hleaf : n.isLeaf = true
  · obtain ⟨info, es, e, fs, h1, h2, h3⟩ := findSeparator_leaf hn h hleaf splitOrdered
    exact ⟨info, es, e, fs, h1, h2, by simp [hleaf, h3]⟩
  · have hleaf' : n.isLeaf = false := by simpa using hleaf
    obtain ⟨info, es, e, fs, h1, h2, h3⟩ := findSeparator_inner h hleaf' splitOrdered
    exact ⟨info, es, e, fs, h1, h2, by simp [hleaf', h3]⟩

theorem Valid.findSeparator_eq (hn : n.Valid limit) (h : 1 < n.count) (splitOrdered : Bool) :
    ∃ info es e fs, n.findSeparator splitOrdered = .ok info ∧
      Separator n.view info (n.getSep info) es e fs ∧
      (0 < info.slot ↔ n.isLeaf = false ∨ 2 < n.count) :=
  findSeparator_ok hn.searchable.sorted h splitOrdered

end BTreeNode

/-! ## The halves -/

lemma entriesSpace_anti {p q : Nat} (h : p ≤ q) (es : List (Key × Key)) :
    entriesSpace q es ≤ entriesSpace p es := by
  induction es with
  | nil => simp
  | cons e es ih =>
    simp only [entriesSpace_cons, entrySpace]
    omega

namespace View

/-- The entries of the left half; the separating entry of an inner node moves to the parent. -/
def leftEntries (v : View) (es : List (Key × Key)) (e : Key × Key) : List (Key × Key) :=
  if v.isLeaf then es ++ [e] else es

def leftHalf (v : View) (sep : Key) (es : List (Key × Key)) (e : Key × Key) (link : PID) : View :=
  { v with upper := sep, entries := v.leftEntries es e, link := link }

def rightHalf (v : View) (sep : Key) (fs : List (Key × Key)) : View :=
  { v with lower := sep, entries := fs }

end View

namespace Separator

variable {v : View} {info : BTreeNode.SeparatorInfo} {sep : Key} {es fs : List (Key × Key)}
  {e : Key × Key} {limit : Nat}

lemma e_mem (hs : Separator v info sep es e fs) : e ∈ v.entries := by
  rw [hs.entries]
  simp

lemma length_sep_le (hs : Separator v info sep es e fs) (hv : v.Ok limit) : sep.length ≤ limit :=
  hs.length_le.trans (hv.entryOk e hs.e_mem).key_le

/-- The fences of both halves take no more bytes than the page. -/
lemma fences_fit (hs : Separator v info sep es e fs) (hsz : v.size ≤ pageSize) :
    headerSize + v.lower.length + sep.length ≤ pageSize ∧
      headerSize + sep.length + v.upper.length ≤ pageSize := by
  have hleft := commonLen_le_left v.lower v.upper
  have hright := commonLen_le_right v.lower v.upper
  have hlen := hs.length_le
  simp only [View.size, View.spaceUsed, View.prefixLen, hs.entries, List.length_append,
    List.length_cons, entriesSpace_append, entriesSpace_cons, entrySpace, slotPos_eq,
    headerSize] at hsz ⊢
  omega

/-- The separator of a positive slot is not empty. -/
lemma ne_nil (hs : Separator v info sep es e fs) (hv : v.Ok limit) (hpos : 0 < info.slot) :
    sep ≠ [] := by
  rw [hs.slot] at hpos
  obtain ⟨a, ha⟩ := List.exists_mem_of_length_pos hpos
  have hlt := hv.lt_of_append hs.entries ha (List.mem_cons_self ..)
  have hnil : ([] : Key) < sep := ((nil_le a.1).trans_lt hlt).trans_le hs.le
  rintro rfl
  exact lt_irrefl _ hnil

lemma le_next (hs : Separator v info sep es e fs) (hv : v.Ok limit) {f : Key × Key} (hf : f ∈ fs) :
    sep < f.1 := by
  have hsplit : v.entries = (es ++ [e]) ++ fs := by simp [hs.entries]
  cases hl : v.isLeaf with
  | false =>
    rw [hs.inner hl]
    exact hv.lt_of_append hsplit (by simp) hf
  | true =>
    obtain ⟨g, gs, rfl, hlt, -⟩ := hs.leaf hl
    rcases List.mem_cons.mp hf with rfl | hf
    · exact hlt
    · have hsplit' : v.entries = (es ++ [e, g]) ++ gs := by simp [hs.entries]
      exact hlt.trans (hv.lt_of_append hsplit' (by simp) hf)

lemma inRange (hs : Separator v info sep es e fs) (hv : v.Ok limit) : InRange v.lower v.upper sep := by
  have he := hv.entry_inRange hs.e_mem
  refine ⟨he.1.imp_right (fun h => h.trans_le hs.le), ?_⟩
  cases hl : v.isLeaf with
  | false =>
    rw [hs.inner hl]
    exact he.2
  | true =>
    obtain ⟨f, gs, rfl, hlt, -⟩ := hs.leaf hl
    have hf : f ∈ v.entries := by
      rw [hs.entries]
      simp
    exact (hv.entry_inRange hf).2.imp_right (fun h => hlt.le.trans h)

/-- The right half always fits. -/
lemma right_fits (hs : Separator v info sep es e fs) (hv : v.Ok limit) (hsz : v.size ≤ pageSize) :
    (v.rightHalf sep fs).size ≤ pageSize := by
  have hp := (hs.inRange hv).prefix_le_right
  have hmono := entriesSpace_anti hp fs
  have hpl := commonLen_le_left v.lower v.upper
  have hlen := hs.length_le
  simp only [View.size, View.spaceUsed, View.prefixLen, View.rightHalf, hs.entries,
    List.length_append, List.length_cons, entriesSpace_append, entriesSpace_cons, entrySpace,
    slotPos_eq] at hsz ⊢
  omega

/-- The left half of an inner node always fits. -/
lemma left_fits_inner (hs : Separator v info sep es e fs) (hv : v.Ok limit) (hsz : v.size ≤ pageSize)
    (hl : v.isLeaf = false) (link : PID) : (v.leftHalf sep es e link).size ≤ pageSize := by
  have hp := (hs.inRange hv).prefix_le_left
  have hmono := entriesSpace_anti hp es
  have hpr := commonLen_le_right v.lower v.upper
  have hlen := hs.length_le
  simp only [View.size, View.spaceUsed, View.prefixLen, View.leftHalf, View.leftEntries, hl,
    Bool.false_eq_true, ite_false, hs.entries, List.length_append, List.length_cons,
    entriesSpace_append, entriesSpace_cons, entrySpace, slotPos_eq] at hsz ⊢
  omega

/-- The separator lies below the upper fence of the node. -/
lemma lt_upper (hs : Separator v info sep es e fs) (hv : v.Ok limit) :
    v.upper = [] ∨ sep < v.upper := by
  cases hl : v.isLeaf with
  | false =>
    rw [hs.inner hl]
    exact (hv.admits _ (List.mem_map_of_mem hs.e_mem)).2 hl
  | true =>
    obtain ⟨f, gs, rfl, hlt, -⟩ := hs.leaf hl
    have hf : f ∈ v.entries := by
      rw [hs.entries]
      simp
    exact (hv.entry_inRange hf).2.imp_right (fun h => hlt.trans_le h)

/-- The contents of the left half are in order. -/
lemma left_ok (hs : Separator v info sep es e fs) (hv : v.Ok limit) (hpos : 0 < info.slot)
    (link : PID) :
    (v.leftHalf sep es e link).Ok limit := by
  have hne := hs.ne_nil hv hpos
  have hr := hs.inRange hv
  have hsplit : v.entries = (es ++ [e]) ++ fs := by simp [hs.entries]
  have hleft : (v.leftEntries es e).Sublist (es ++ [e]) := by
    unfold View.leftEntries
    split
    · exact List.Sublist.refl _
    · exact List.sublist_append_left _ _
  have hsub : (v.leftEntries es e).Sublist v.entries := by
    rw [hsplit]
    exact hleft.trans (List.sublist_append_left _ _)
  have hlt : ∀ f ∈ es, f.1 < sep := fun f hf =>
    (hv.lt_of_append hs.entries hf (List.mem_cons_self ..)).trans_le hs.le
  refine ⟨hv.sorted.sublist (hsub.map _), ?_, ?_, hv.lowerLen, hs.length_sep_le hv,
    fun f hf => hv.entryOk f (hsub.subset hf)⟩
  · intro k hk
    obtain ⟨f, hf, rfl⟩ := List.mem_map.mp hk
    refine ⟨(inRange_left_iff hr hne).mpr ⟨hv.entry_inRange (hsub.subset hf), ?_⟩, ?_⟩
    · rcases List.mem_append.mp (hleft.subset hf) with hf | hf
      · exact (hlt f hf).le
      · rw [List.mem_singleton.mp hf]
        exact hs.le
    · intro hl
      change v.isLeaf = false at hl
      change f ∈ v.leftEntries es e at hf
      simp only [View.leftEntries, hl, Bool.false_eq_true, ite_false] at hf
      exact Or.inr (hlt f hf)
  · right
    change v.lower < sep
    rcases hr.1 with h0 | hlt
    · rw [h0]
      exact nil_lt_of_ne_nil hne
    · exact hlt

/-- The contents of the right half are in order. -/
lemma right_ok (hs : Separator v info sep es e fs) (hv : v.Ok limit) (hpos : 0 < info.slot) :
    (v.rightHalf sep fs).Ok limit := by
  have hne := hs.ne_nil hv hpos
  have hr := hs.inRange hv
  have hsub : fs.Sublist v.entries := by
    have hsplit : v.entries = (es ++ [e]) ++ fs := by simp [hs.entries]
    rw [hsplit]
    exact List.sublist_append_right _ _
  refine ⟨hv.sorted.sublist (hsub.map _), ?_, hs.lt_upper hv, hs.length_sep_le hv, hv.upperLen,
    fun f hf => hv.entryOk f (hsub.subset hf)⟩
  intro k hk
  obtain ⟨f, hf, rfl⟩ := List.mem_map.mp hk
  have hf' : f ∈ v.entries := hsub.subset hf
  exact ⟨(inRange_right_iff hr hne).mpr ⟨hv.entry_inRange hf', hs.le_next hv hf⟩,
    (hv.admits _ (List.mem_map_of_mem hf')).2⟩

end Separator

end MemSafeDB
