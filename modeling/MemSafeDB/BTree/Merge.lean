import MemSafeDB.BTree.Split

/-!
# Merging two leaves

The left leaf takes over the entries of its right neighbour when they are sure to fit, and the
parent drops the separator between them. Otherwise nothing changes.
-/

namespace MemSafeDB
open Lib

/-- Shortening the prefix costs at most its difference for each entry. -/
lemma entriesSpace_le_grow {p q : Nat} (h : q ≤ p) (es : List (Key × Key)) :
    entriesSpace q es ≤ entriesSpace p es + (p - q) * es.length := by
  induction es with
  | nil => simp
  | cons e es ih =>
    simp only [entriesSpace_cons, entrySpace, List.length_cons, Nat.mul_succ]
    omega

namespace View

/-- The leaf that holds the entries of two neighbours. -/
def merge (v w : View) : View :=
  { v with link := w.link, upper := w.upper, entries := v.entries ++ w.entries }

/-- `w` is the right neighbour of `v`. -/
structure Neighbours (v w : View) : Prop where
  leaf : v.isLeaf = true
  leaf' : w.isLeaf = true
  fence : v.upper = w.lower
  ne_nil : v.upper ≠ []

variable {v w : View} {limit : Nat}

/-- Two fences within the bound of `insert` fit behind the header. -/
lemma Ok.fences_fit (hv : v.Ok) (hw : w.Ok) :
    headerSize + v.lower.length + w.upper.length ≤ pageSize := by
  have hlower : v.lower.length ≤ 993 := hv.lowerLen
  have hupper : w.upper.length ≤ 993 := hw.upperLen
  simp only [headerSize, pageSize]
  omega

lemma Neighbours.lower_lt (h : v.Neighbours w) (hv : v.Ok limit) : v.lower < v.upper :=
  hv.fences.resolve_left h.ne_nil

lemma Neighbours.upper_lt (h : v.Neighbours w) (hw : w.Ok limit) :
    w.upper = [] ∨ v.upper < w.upper := by
  rw [h.fence]
  exact hw.fences

lemma Neighbours.range_left (h : v.Neighbours w) (hw : w.Ok limit) {k : Key}
    (hk : InRange v.lower v.upper k) : InRange v.lower w.upper k :=
  ⟨hk.1, (h.upper_lt hw).imp_right (fun hlt => (hk.2.resolve_left h.ne_nil).trans hlt.le)⟩

lemma Neighbours.range_right (h : v.Neighbours w) (hv : v.Ok limit) {k : Key}
    (hk : InRange w.lower w.upper k) : InRange v.lower w.upper k := by
  have hne : w.lower ≠ [] := h.fence ▸ h.ne_nil
  have hlt : v.lower < k := (h.lower_lt hv).trans (h.fence ▸ hk.1.resolve_left hne)
  exact ⟨Or.inr hlt, hk.2⟩

lemma Neighbours.merge_ok (h : v.Neighbours w) (hv : v.Ok limit) (hw : w.Ok limit) :
    (v.merge w).Ok limit := by
  refine ⟨?_, ?_, ?_, hv.lowerLen, hw.upperLen, ?_⟩
  · rw [keys, merge, List.map_append]
    refine StrictSorted.append hv.sorted hw.sorted ?_
    intro a ha b hb
    have h1 := (hv.admits a ha).1.2.resolve_left h.ne_nil
    have h2 := (hw.admits b hb).1.1.resolve_left (h.fence ▸ h.ne_nil)
    exact (h1.trans_eq h.fence).trans_lt h2
  · intro k hk
    refine ⟨?_, fun hl => absurd hl (by rw [show (v.merge w).isLeaf = true from h.leaf]; simp)⟩
    simp only [keys, merge, List.map_append, List.mem_append] at hk
    rcases hk with hk | hk
    · exact h.range_left hw (hv.admits k hk).1
    · exact h.range_right hv (hw.admits k hk).1
  · exact (h.upper_lt hw).imp_right (fun hlt => (h.lower_lt hv).trans hlt)
  · intro e he
    change View.EntryOk v.isLeaf e limit
    rcases List.mem_append.mp he with he | he
    · exact hv.entryOk e he
    · have hok := hw.entryOk e he
      rw [h.leaf'] at hok
      rwa [h.leaf]

/-- The prefix of the merged leaf is the shortest of the three. -/
lemma Neighbours.prefixLen_le (h : v.Neighbours w) (hv : v.Ok limit) (hw : w.Ok limit) :
    (v.merge w).prefixLen ≤ v.prefixLen ∧ (v.merge w).prefixLen ≤ w.prefixLen := by
  have hr : InRange v.lower w.upper v.upper :=
    h.range_left hw ⟨Or.inr (h.lower_lt hv), Or.inr le_rfl⟩
  refine ⟨hr.prefix_le_left, ?_⟩
  have h2 := hr.prefix_le_right
  rwa [h.fence] at h2

/-- `spaceUpperBound` is at least the space that the merged leaf takes. -/
lemma Neighbours.size_le (h : v.Neighbours w) (hv : v.Ok limit) (hw : w.Ok limit) :
    (v.merge w).size ≤ v.spaceUsed + w.spaceUsed + slotPos (v.entries.length + w.entries.length) +
      (v.prefixLen - (v.merge w).prefixLen) * v.entries.length +
      (w.prefixLen - (v.merge w).prefixLen) * w.entries.length := by
  obtain ⟨h1, h2⟩ := h.prefixLen_le hv hw
  have hleft := entriesSpace_le_grow h1 v.entries
  have hright := entriesSpace_le_grow h2 w.entries
  have hsize : (v.merge w).size = slotPos (v.entries.length + w.entries.length) +
      (v.lower.length + w.upper.length + (entriesSpace (v.merge w).prefixLen v.entries +
        entriesSpace (v.merge w).prefixLen w.entries)) := by
    simp only [size, spaceUsed, merge, List.length_append, entriesSpace_append]
  rw [hsize, spaceUsed, spaceUsed]
  omega

/-- The contents of the parent behind a merge of the children `i` and `i + 1`. -/
def mergeParent (v : View) (i : Nat) (k : Key) (pid : PID) : View :=
  { v with entries := (v.entries.set (i + 1) (k, pidBytes pid)).eraseIdx i }

lemma set_eraseIdx_append {α : Type} (es fs : List α) (a b c : α) :
    ((es ++ a :: b :: fs).set (es.length + 1) c).eraseIdx es.length = es ++ c :: fs := by
  induction es with
  | nil => rfl
  | cons e es ih => simpa using ih

/-- Of two adjacent children the left one takes over the interval of both. -/
lemma routes_mergeParent {v : View} {es fs : List (Key × Key)} {a b : Key × Key}
    (hv : v.entries = es ++ a :: b :: fs) {pid : PID} (hp : pid < 2 ^ 64) :
    ∃ pre post, v.routes = pre ++ ⟨lastBound v.lower es, a.1, loadPID a.2⟩ ::
        ⟨a.1, b.1, loadPID b.2⟩ :: post ∧
      (v.mergeParent es.length b.1 pid).routes =
        pre ++ ⟨lastBound v.lower es, b.1, pid⟩ :: post := by
  refine ⟨slotRoutes v.lower es, routesFrom b.1 fs v.upper v.link, ?_, ?_⟩
  · rw [routes_eq, hv, routesFrom_append]
    rfl
  · rw [routes_eq, mergeParent]
    simp only [hv, set_eraseIdx_append]
    rw [routesFrom_append, routesFrom_eq_cons]
    simp [headUpper, headPid, tailRoutes, pid_roundtrip hp]

end View

namespace BTreeNode

variable {n right parent : BTreeNode} {limit : Nat}

/-- The parent after the merge: the pointer behind the dropped separator leads to `pid`. -/
lemma Valid.mergeParent_eq (hp : parent.Valid limit) (hl : parent.isLeaf = false) {slotId : Nat}
    (hslot : slotId + 1 < parent.count) (pid : PID) :
    ∃ p, parent.setPayload (slotId + 1) (pidBytes pid) = .ok p ∧ (p.removeSlot slotId).Valid limit ∧
      (p.removeSlot slotId).view =
        parent.view.mergeParent slotId (parent.fullKey (slotId + 1)) pid := by
  obtain ⟨-, hpl⟩ := hp.getChild_eq hl hslot
  obtain ⟨hset, hvalid, hview⟩ := hp.setPayload_eq hslot (pidBytes pid) (by simp [hpl])
  obtain ⟨hrv, hrview⟩ := hvalid.removeSlot_eq (i := slotId) (by
    change slotId < parent.count
    omega)
  refine ⟨_, hset, hrv, ?_⟩
  rw [hrview, ← view_entries, hview]
  rfl

/-- Whether the bound that `mergeNodes` computes for the merged leaf is within a page. -/
def mergeBound (n right : BTreeNode) : Nat :=
  n.view.spaceUsed + right.view.spaceUsed + slotPos (n.count + right.count) +
    (n.prefixLen - (n.view.merge right.view).prefixLen) * n.count +
    (right.prefixLen - (n.view.merge right.view).prefixLen) * right.count

lemma Valid.prefixLen_le (hn : n.Valid limit) : n.prefixLen ≤ pageSize := by
  have hpfx : n.prefixLen ≤ n.lowerFence.len := hn.layout.pfx
  have hfence : n.lowerFence.offset + n.lowerFence.len ≤ pageSize := hn.layout.lower.2
  omega

lemma u32_mul {p q c : Nat} (hq : q ≤ p) (hp : p ≤ pageSize) (hc : c ≤ maxSlots) :
    u32 (((p : Int) - q) * c) = (p - q) * c := by
  have hle : (p - q) * c ≤ pageSize * maxSlots := Nat.mul_le_mul (by omega) hc
  refine u32_eq ?_ (hle.trans_lt (by decide))
  rw [Nat.cast_mul, Nat.cast_sub hq]

/-- The bound that `mergeNodes` computes for the space of the merged leaf. -/
def spaceUpperBound (n right : BTreeNode) : Nat :=
  let prefixLen := commonLen n.getLowerFence right.getUpperFence
  let leftGrow := u32 ((n.prefixLen - prefixLen) * n.count)
  let rightGrow := u32 ((right.prefixLen - prefixLen) * right.count)
  u32 (n.spaceUsed + right.spaceUsed + slotPos (n.count + right.count) + leftGrow + rightGrow)

/-- The arithmetic of the bound does not wrap. -/
lemma Valid.spaceUpperBound_eq (hn : n.Valid limit) (hr : right.Valid limit)
    (h : n.view.Neighbours right.view) : n.spaceUpperBound right = n.mergeBound right := by
  obtain ⟨hpl1, hpl2⟩ := h.prefixLen_le hn.ok hr.ok
  rw [← hn.prefixLen] at hpl1
  rw [← hr.prefixLen] at hpl2
  have hc1 := hn.count_le
  have hc2 := hr.count_le
  have hb1 := hn.prefixLen_le
  have hb2 := hr.prefixLen_le
  have hs1 := hn.size_le
  have hs2 := hr.size_le
  simp only [View.size, pageSize] at hs1 hs2
  have hm1 : (n.prefixLen - (n.view.merge right.view).prefixLen) * n.count ≤ 4096 * 399 :=
    Nat.mul_le_mul ((Nat.sub_le _ _).trans hb1) hc1
  have hm2 : (right.prefixLen - (n.view.merge right.view).prefixLen) * right.count ≤ 4096 * 399 :=
    Nat.mul_le_mul ((Nat.sub_le _ _).trans hb2) hc2
  change u32 ((n.spaceUsed : Int) + right.spaceUsed + slotPos (n.count + right.count) +
    u32 (((n.prefixLen : Int) - (n.view.merge right.view).prefixLen) * n.count) +
    u32 (((right.prefixLen : Int) - (n.view.merge right.view).prefixLen) * right.count)) = _
  rw [u32_mul hpl1 hb1 hc1, u32_mul hpl2 hb2 hc2, hn.spaceUsed_eq, hr.spaceUsed_eq, mergeBound]
  refine u32_eq (by push_cast; rfl) ?_
  change _ ≤ 399 at hc1 hc2
  simp only [slotPos_eq]
  omega

/-- Merging a leaf with its right neighbour: all or nothing. -/
theorem Valid.mergeNodes_eq (hn : n.Valid limit) (hr : right.Valid limit)
    (h : n.view.Neighbours right.view)
    (hfences : headerSize + n.getLowerFence.length + right.getUpperFence.length ≤ pageSize)
    (hp : parent.Valid limit) (hl : parent.isLeaf = false) {slotId : Nat}
    (hslot : slotId + 1 < parent.count) (pid : PID) :
    (pageSize < n.mergeBound right ∧
      n.mergeNodes pid slotId parent right = .ok (false, n, parent)) ∨
    (n.mergeBound right ≤ pageSize ∧
      ∃ n' p', n.mergeNodes pid slotId parent right = .ok (true, n', p') ∧ n'.Valid limit ∧
        n'.view = n.view.merge right.view ∧ p'.Valid limit ∧
        p'.view = parent.view.mergeParent slotId (parent.fullKey (slotId + 1)) pid) := by
  have hleaf : n.isLeaf = true := h.leaf
  have hleaf' : right.isLeaf = true := h.leaf'
  obtain ⟨tmp, htmp, hf, -⟩ := setFences_eq true n.getLowerFence right.getUpperFence hfences
  obtain ⟨hpl1, hpl2⟩ := h.prefixLen_le hn.ok hr.ok
  have hbase := h.size_le hn.ok hr.ok
  have hlow : tmp.prefixLen = (n.view.merge right.view).prefixLen := hf.prefixLen
  rw [← hn.prefixLen] at hpl1 hbase
  rw [← hr.prefixLen] at hpl2 hbase
  simp only [view_entries, length_entries] at hbase
  have hbound := hn.spaceUpperBound_eq hr h
  have hstart : n.mergeNodes pid slotId parent right =
      if pageSize < n.mergeBound right then .ok (false, n, parent)
      else n.mergeEntries pid slotId parent right tmp := by
    simp only [mergeNodes, hleaf, Bool.not_true, Bool.false_eq_true, ite_false, check, hleaf',
      ite_true, isInner, hl, Bool.not_false, htmp, bind, Except.bind]
    rw [hlow, ← hbound]
    rfl
  rw [hstart]
  by_cases hlt : pageSize < n.mergeBound right
  · exact Or.inl ⟨hlt, by rw [if_pos hlt]⟩
  · refine Or.inr ⟨not_lt.mp hlt, ?_⟩
    rw [if_neg hlt]
    have hsz : (n.view.merge right.view).size ≤ pageSize := by
      rw [mergeBound] at hlt
      omega
    have hok := h.merge_ok hn.ok hr.ok
    have hmerged : n.view.merge right.view = ⟨true, right.link, n.getLowerFence,
        right.getUpperFence, n.entries ++ right.entries⟩ := by
      rw [View.merge, view_isLeaf, hleaf]
      rfl
    simp only [View.size, View.spaceUsed, View.prefixLen, View.merge, view_lower, view_upper,
      view_entries, List.length_append, length_entries, entriesSpace_append] at hsz
    obtain ⟨t1, ht1, hcp1⟩ := hn.copy_all hf
      (fun e he => hok.entry_inRange (List.mem_append_left _ he)) (by
        simp only [slotPos_eq] at hsz ⊢
        omega)
    have htgt := hf.target hcp1.frame
      (fun e (he : e ∈ right.entries) => hok.entry_inRange (List.mem_append_right _ he))
      (fun e he => (hr.accounted.entry_space_le he).2) (by
        rw [length_entries]
        exact hr.count_le)
    have hsrc := hr.sources 0 right.count
    rw [List.drop_zero, List.take_of_length_le (by simp)] at hsrc
    have ht1c : t1.count = n.count := by rw [hcp1.count, hf.count, length_entries, Nat.zero_add]
    obtain ⟨t2, ht2, hcp2⟩ := copyKeyValueRange_eq hsrc hcp1.filled htgt (by
      rw [ht1c, hcp1.dataOffset, hf.dataOffset, hcp1.frame.prefixLen, hf.prefixLen, length_entries]
      omega)
    rw [ht1c, length_entries] at ht2
    obtain ⟨p, hset, hpv, hpview⟩ := hp.mergeParent_eq hl hslot pid
    obtain ⟨hv, hview⟩ := hf.valid (hcp1.frame.trans hcp2.frame) hcp2.filled right.link
      (hmerged ▸ hok)
    refine ⟨_, _, ?_, hv, hview.trans hmerged.symm, hpv, hpview⟩
    simp only [mergeEntries, ht1, ht2, hset, bind, Except.bind]
    rfl

end BTreeNode

end MemSafeDB
