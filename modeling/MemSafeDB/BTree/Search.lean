import MemSafeDB.Lib.SortedList
import MemSafeDB.BTree.Node

/-!
# Lower bound search

On a page whose keys are sorted and whose heads and hints are up to date, the accelerated
search reports the rank of the key among the full keys of the page, and whether it is there.
-/

namespace MemSafeDB
open Lib

@[simp] lemma except_bind_ok {ε α β : Type} (a : α) (f : α → Except ε β) :
    Except.bind (.ok a) f = f a := rfl

@[simp] lemma except_bind_error {ε α β : Type} (e : ε) (f : α → Except ε β) :
    Except.bind (.error e : Except ε α) f = .error e := rfl

namespace BTreeNode

/-- The key of a slot with the prefix of the page. -/
def fullKey (n : BTreeNode) (i : Nat) : Key := n.getPrefix ++ n.getKey i

def keys (n : BTreeNode) : List Key := firstn n.fullKey n.count

/-- Keys with their payloads, in slot order. -/
def entries (n : BTreeNode) : List (Key × Key) :=
  firstn (fun i => (n.fullKey i, n.getPayload i)) n.count

lemma keys_eq (n : BTreeNode) : n.keys = n.entries.map Prod.fst := by
  simp [keys, entries, firstn]

@[simp] lemma length_keys (n : BTreeNode) : n.keys.length = n.count := length_firstn _ _

@[simp] lemma length_entries (n : BTreeNode) : n.entries.length = n.count := length_firstn _ _

@[simp] lemma length_getPrefix (n : BTreeNode) : n.getPrefix.length = n.prefixLen := by
  simp [getPrefix]

@[simp] lemma length_getKey (n : BTreeNode) (i : Nat) :
    (n.getKey i).length = (n.slot i).keyLen := by
  simp [getKey]

@[simp] lemma length_getPayload (n : BTreeNode) (i : Nat) :
    (n.getPayload i).length = (n.slot i).payloadLen := by
  simp [getPayload]

/-- Hint `i` is the head of the slot that `makeHint` samples for it. -/
def HintsUpToDate (n : BTreeNode) : Prop :=
  hintCount * 2 < n.count →
    ∀ i, i < hintCount → n.hint i = (n.slot (n.count / (hintCount + 1) * (i + 1))).head

/-- What the search needs of a page. -/
structure Searchable (n : BTreeNode) : Prop where
  count_le : n.count ≤ maxSlots
  fence : n.lowerFence.offset + n.lowerFence.len ≤ pageSize
  slotInPage : ∀ i, i < n.count → headerSize ≤ (n.slot i).offset ∧
    (n.slot i).offset + (n.slot i).keyLen + (n.slot i).payloadLen ≤ pageSize
  sorted : StrictSorted n.keys
  heads : ∀ i, i < n.count → (n.slot i).head = head (n.getKey i)
  hints : n.HintsUpToDate

/-! ## Reading one image -/

@[simp] lemma read_ret {α : Type} (n : BTreeNode) (a : α) :
    n.read (Program.ret a : PageRead α) = .ok a := rfl

@[simp] lemma read_restart {α : Type} (n : BTreeNode) :
    n.read (PageRead.restart : PageRead α) = .error .exception := rfl

@[simp] lemma read_bind {α β : Type} (n : BTreeNode) (p : PageRead α) (f : α → PageRead β) :
    n.read (Program.bind p f) = (n.read p).bind (fun a => n.read (f a)) :=
  Program.interp_bind (S := pageSignature) n.fetch p f

@[simp] lemma read_fetch (n : BTreeNode) (l : Loc) : n.read (PageRead.fetch l) = .ok (n.fetch l) :=
  rfl

@[simp] lemma read_fetchBytes (n : BTreeNode) (len off : Nat) :
    n.read (PageRead.fetchBytes len off) = .ok (n.bytes.read off len) := by
  induction len generalizing off with
  | zero => rfl
  | succ len ih =>
    have hsplit : n.bytes.read off (len + 1) = n.bytes off :: n.bytes.read (off + 1) len := by
      rw [Nat.add_comm len 1, Memory.read_add]
      rfl
    simp only [PageRead.fetchBytes, Program.bind_eq, Program.pure_eq, read_bind, read_fetch,
      except_bind_ok, ih, read_ret, fetch, hsplit]
    congr 2
    exact Fin.ofNat_val_eq_self _

@[simp] lemma read_safeCount (n : BTreeNode) (h : n.count ≤ maxSlots) :
    n.read PageRead.safeCount = .ok n.count := by
  simp only [PageRead.safeCount, Program.bind_eq, Program.pure_eq, read_bind, read_fetch,
    except_bind_ok, read_ret, fetch]
  congr 1
  split <;> omega

lemma read_lowerFenceInPage (n : BTreeNode) :
    n.read PageRead.lowerFenceInPage =
      .ok (decide (n.lowerFence.offset + n.lowerFence.len ≤ pageSize)) := rfl

lemma read_checkSlotOrRestart {n : BTreeNode} {i : Nat}
    (h : headerSize ≤ (n.slot i).offset ∧
      (n.slot i).offset + (n.slot i).keyLen + (n.slot i).payloadLen ≤ pageSize) :
    n.read (PageRead.checkSlotOrRestart i) = .ok () := by
  simp [PageRead.checkSlotOrRestart, PageRead.slotInPage, fetch, h]

/-! ## Heads -/

lemma head_cons (a : Byte) (t : Key) : head (a :: t) = a.val * 2 ^ 24 + head t / 2 ^ 8 := by
  match t with
  | [] => simp [head]
  | [b] => simp only [head]; omega
  | [b, c] => simp only [head]; omega
  | [b, c, d] => simp only [head]; omega
  | b :: c :: d :: e :: _ => simp only [head]; omega

lemma head_lt (key : Key) : head key < 2 ^ 32 := by
  match key with
  | [] => simp [head]
  | [a] => simp only [head]; omega
  | [a, b] => simp only [head]; omega
  | [a, b, c] => simp only [head]; omega
  | a :: b :: c :: d :: _ => simp only [head]; omega

/-- The head preserves the order: a smaller head belongs to a smaller key. -/
lemma lt_of_head_lt {a b : Key} (h : head a < head b) : a < b := by
  induction a generalizing b with
  | nil =>
    cases b with
    | nil => exact absurd h (lt_irrefl _)
    | cons y ys => exact List.nil_lt_cons _ _
  | cons x xs ih =>
    cases b with
    | nil => exact absurd h (by simp [head])
    | cons y ys =>
      rw [head_cons, head_cons] at h
      have hx := head_lt xs
      have hy := head_lt ys
      rw [List.cons_lt_cons_iff]
      rcases lt_trichotomy x y with hlt | heq | hgt
      · exact Or.inl hlt
      · refine Or.inr ⟨heq, ih ?_⟩
        have hv : x.val = y.val := congrArg Fin.val heq
        omega
      · have hv : y.val < x.val := hgt
        omega

lemma head_le_head {a b : Key} (h : a ≤ b) : head a ≤ head b := by
  by_contra hc
  exact not_lt.mpr h (lt_of_head_lt (not_le.mp hc))

/-! ## The search -/

lemma getKey_lt {n : BTreeNode} (hs : StrictSorted n.keys) {i j : Nat} (hj : j < n.count)
    (h : i < j) : n.getKey i < n.getKey j := by
  have hlt := hs.getElem_lt (i := i) (j := j) (by rw [length_keys]; omega)
    (by rw [length_keys]; omega) h
  simp only [keys, getElem_firstn] at hlt
  exact (append_lt_append_left_iff _).mp hlt

lemma Searchable.getKey_lt {n : BTreeNode} (hn : n.Searchable) {i j : Nat} (hj : j < n.count)
    (h : i < j) : n.getKey i < n.getKey j :=
  BTreeNode.getKey_lt hn.sorted hj h

lemma Searchable.getKey_le {n : BTreeNode} (hn : n.Searchable) {i j : Nat} (hj : j < n.count)
    (h : i ≤ j) : n.getKey i ≤ n.getKey j := by
  rcases Nat.lt_or_eq_of_le h with hlt | heq
  · exact (hn.getKey_lt hj hlt).le
  · rw [heq]

/-- The slots below `lower` hold smaller keys and those from `upper` on greater ones. -/
structure Brackets (n : BTreeNode) (key : Key) (lower upper : Nat) : Prop where
  le : lower ≤ upper
  upper_le : upper ≤ n.count
  below : ∀ i, i < lower → n.getKey i < key
  above : ∀ i, upper ≤ i → i < n.count → key < n.getKey i

/-- What the search for `pfx ++ key` is to report. -/
def searchResult (n : BTreeNode) (skey : Key) : Except OLCRestart (Nat × Bool) :=
  .ok (rank n.keys skey, decide (skey ∈ n.keys))

lemma searchResult_of_split {n : BTreeNode} {key : Key} {m : Nat} (h : Brackets n key m m) :
    n.searchResult (n.getPrefix ++ key) = .ok (m, false) := by
  have hkey : ∀ i (hi : i < n.keys.length), n.keys[i] = n.getPrefix ++ n.getKey i := by
    intro i hi
    simp only [keys, getElem_firstn, fullKey]
  have hrank : rank n.keys (n.getPrefix ++ key) = m := by
    refine rank_eq_of_split (by simpa using h.upper_le) ?_ ?_
    · intro i hi him
      rw [hkey, append_lt_append_left_iff]
      exact h.below i him
    · intro i hi him
      rw [hkey, append_le_append_left_iff]
      exact (h.above i him (by simpa using hi)).le
  have hmem : n.getPrefix ++ key ∉ n.keys := by
    intro hm
    obtain ⟨i, hi, heq⟩ := List.mem_iff_getElem.mp hm
    rw [hkey] at heq
    have hk : n.getKey i = key := List.append_cancel_left heq
    rcases Nat.lt_or_ge i m with hlt | hge
    · exact absurd hk (ne_of_lt (h.below i hlt))
    · exact absurd hk (ne_of_gt (h.above i hge (by simpa using hi)))
  simp [searchResult, hrank, hmem]

lemma Searchable.searchResult_found {n : BTreeNode} (hn : n.Searchable) {key : Key} {m : Nat}
    (hm : m < n.count) (hk : n.getKey m = key) :
    n.searchResult (n.getPrefix ++ key) = .ok (m, true) := by
  have hlen : m < n.keys.length := by simpa using hm
  have hkey : n.keys[m] = n.getPrefix ++ key := by
    simp only [keys, getElem_firstn, fullKey, hk]
  have hrank := hn.sorted.rank_getElem hlen
  rw [hkey] at hrank
  have hmem : n.getPrefix ++ key ∈ n.keys := hkey ▸ List.getElem_mem hlen
  simp [searchResult, hrank, hmem]

/-- The binary search finds the rank from any range that brackets the key. -/
lemma Searchable.read_searchSlots {n : BTreeNode} (hn : n.Searchable) (key : Key)
    (lower upper : Nat) (hb : Brackets n key lower upper) :
    n.read (PageRead.searchSlots key (head key) lower upper) =
      n.searchResult (n.getPrefix ++ key) := by
  induction hd : upper - lower using Nat.strong_induction_on generalizing lower upper with
  | _ d ih =>
  have hle := hb.le
  have hup := hb.upper_le
  rw [PageRead.searchSlots]
  by_cases hlu : lower < upper
  · have hmid : (upper - lower) / 2 + lower < upper := by omega
    have hlow : lower ≤ (upper - lower) / 2 + lower := by omega
    generalize (upper - lower) / 2 + lower = mid at hmid hlow
    have hmc : mid < n.count := by omega
    -- the two ways to go on
    have hleft (h : key < n.getKey mid) :
        n.read (PageRead.searchSlots key (head key) lower mid) =
          n.searchResult (n.getPrefix ++ key) := by
      refine ih (mid - lower) (by omega) lower mid ⟨hlow, by omega, hb.below, ?_⟩ rfl
      intro i hi hic
      exact h.trans_le (hn.getKey_le hic hi)
    have hright (h : n.getKey mid < key) :
        n.read (PageRead.searchSlots key (head key) (mid + 1) upper) =
          n.searchResult (n.getPrefix ++ key) := by
      refine ih (upper - (mid + 1)) (by omega) (mid + 1) upper ⟨by omega, hup, ?_, hb.above⟩ rfl
      intro i hi
      exact (hn.getKey_le hmc (by omega)).trans_lt h
    have hhead := hn.heads mid hmc
    simp only [hlu, dite_true, Program.bind_eq, read_bind, read_fetch, except_bind_ok, fetch, hhead]
    by_cases h1 : head key < head (n.getKey mid)
    · simp only [h1, ite_true]
      exact hleft (lt_of_head_lt h1)
    · by_cases h2 : head (n.getKey mid) < head key
      · simp only [h1, h2, ite_true, ite_false, read_bind, read_fetch, except_bind_ok, fetch, hhead]
        exact hright (lt_of_head_lt h2)
      · have hbytes : n.bytes.read (n.slot mid).offset (min key.length (n.slot mid).keyLen) =
            (n.getKey mid).take key.length := (Memory.take_read _ _ _ _).symm
        simp only [h1, h2, ite_false, read_bind, read_fetch, except_bind_ok, fetch, hhead,
          read_checkSlotOrRestart (hn.slotInPage mid hmc), read_fetchBytes, hbytes]
        have hsplit := List.take_append_drop key.length (n.getKey mid)
        cases hcmp : memcmp key ((n.getKey mid).take key.length) with
        | lt =>
          have hlt := memcmp_eq_lt_append hcmp [] ((n.getKey mid).drop key.length)
          rw [hsplit, List.append_nil] at hlt
          exact hleft hlt
        | gt =>
          have hlt := memcmp_eq_gt_append hcmp [] ((n.getKey mid).drop key.length)
          rw [hsplit, List.append_nil] at hlt
          exact hright hlt
        | eq =>
          have heq := memcmp_eq_eq hcmp
          rw [List.length_take, length_getKey, List.take_take] at heq
          simp only [read_bind, read_fetch, except_bind_ok, fetch]
          by_cases h3 : key.length < (n.slot mid).keyLen
          · simp only [h3, ite_true]
            apply hleft
            rw [Nat.min_eq_left h3.le, List.take_length, Nat.min_self] at heq
            rw [← hsplit, ← heq]
            apply lt_append_of_ne_nil
            intro hnil
            have hl := congrArg List.length hnil
            simp only [List.length_drop, length_getKey, List.length_nil] at hl
            omega
          · by_cases h4 : (n.slot mid).keyLen < key.length
            · simp only [h3, h4, ite_true, ite_false, read_bind, read_fetch, except_bind_ok, fetch]
              apply hright
              rw [Nat.min_eq_right h4.le, Nat.min_self,
                List.take_of_length_le (l := n.getKey mid) (by simp; omega)] at heq
              rw [← heq, ← List.take_append_drop (n.slot mid).keyLen key, List.take_left' (by simp; omega)]
              apply lt_append_of_ne_nil
              intro hnil
              have hl := congrArg List.length hnil
              simp only [List.length_drop, List.length_nil] at hl
              omega
            · have hlen : (n.slot mid).keyLen = key.length := by omega
              simp only [h3, h4, ite_false, read_bind, read_fetch, except_bind_ok, fetch,
                Program.pure_eq, read_ret]
              rw [hlen, Nat.min_self, List.take_length,
                List.take_of_length_le (by simp [hlen])] at heq
              exact (hn.searchResult_found hmc heq.symm).symm
  · have hlu' : lower = upper := by omega
    subst hlu'
    simp only [lt_irrefl, dite_false, Program.pure_eq, read_ret]
    exact (searchResult_of_split hb).symm

/-- Where the loop over the hints ends. -/
lemma read_firstHint (n : BTreeNode) (stop : Nat → Bool) (left pos : Nat) :
    ∃ p, n.read (PageRead.firstHint stop left pos) = .ok p ∧ pos ≤ p ∧ p ≤ pos + left ∧
      (∀ i, pos ≤ i → i < p → stop (n.hint i) = false) ∧
      (p < pos + left → stop (n.hint p) = true) := by
  induction left generalizing pos with
  | zero => exact ⟨pos, rfl, le_rfl, by omega, by omega, by omega⟩
  | succ left ih =>
    simp only [PageRead.firstHint, Program.bind_eq, read_bind, read_fetch, except_bind_ok, fetch]
    by_cases h : stop (n.hint pos) = true
    · refine ⟨pos, ?_, le_rfl, by omega, by omega, fun _ => h⟩
      simp only [h, ite_true, Program.pure_eq, read_ret]
    · obtain ⟨p, hp, h1, h2, h3, h4⟩ := ih (pos + 1)
      refine ⟨p, ?_, by omega, by omega, ?_, fun hlt => h4 (by omega)⟩
      · simpa [h] using hp
      · intro i hi hip
        rcases Nat.eq_or_lt_of_le hi with rfl | hlt
        · simpa using h
        · exact h3 i hlt hip

/-- The range that the hints leave brackets the key. -/
lemma Searchable.read_searchHint {n : BTreeNode} (hn : n.Searchable) (key : Key) :
    ∃ lower upper, n.read (PageRead.searchHint (head key) 0 n.count) = .ok (lower, upper) ∧
      Brackets n key lower upper := by
  simp only [PageRead.searchHint, Program.bind_eq, read_bind, read_fetch, except_bind_ok, fetch]
  by_cases hc : hintCount * 2 < n.count
  · simp only [hc, ite_true, read_bind, Program.pure_eq]
    have hhint := hn.hints hc
    set dist := n.count / (hintCount + 1) with hdist
    have h16 : hintCount = 16 := rfl
    have hd : 17 * dist ≤ n.count ∧ 0 < dist := by
      change dist = n.count / 17 at hdist
      omega
    have hslot : ∀ i, i < hintCount → dist * (i + 1) < n.count := by
      intro i hi
      have : dist * (i + 1) ≤ dist * 16 := Nat.mul_le_mul_left _ (by omega)
      omega
    have hhead : ∀ i, i < hintCount → n.hint i = head (n.getKey (dist * (i + 1))) := by
      intro i hi
      rw [hhint i hi, hn.heads _ (hslot i hi)]
    obtain ⟨pos, hpos, -, h2, h3, h4⟩ := read_firstHint n (fun h => decide (head key ≤ h)) hintCount 0
    obtain ⟨pos2, hpos2, g1, g2, -, g4⟩ :=
      read_firstHint n (fun h => decide (h ≠ head key)) (hintCount - pos) pos
    simp only [hpos, hpos2, except_bind_ok, read_ret]
    refine ⟨_, _, rfl, ?_⟩
    have hbelow : ∀ i, i < pos * dist → n.getKey i < key := by
      intro i hi
      have hp : 0 < pos := Nat.pos_of_ne_zero (by rintro rfl; omega)
      have hlt := h3 (pos - 1) (by omega) (by omega)
      simp only [decide_eq_false_iff_not, not_le] at hlt
      rw [hhead _ (by omega), Nat.sub_add_cancel hp] at hlt
      have hs := hslot (pos - 1) (by omega)
      rw [Nat.sub_add_cancel hp] at hs
      exact (hn.getKey_lt hs (by rw [Nat.mul_comm]; exact hi)).trans (lt_of_head_lt hlt)
    by_cases hp2 : pos2 < hintCount
    · simp only [hp2, ite_true]
      have hs := hslot pos2 hp2
      have hne := g4 (by omega)
      have hge := h4 (by omega)
      simp only [ne_eq, decide_not, Bool.not_eq_true', decide_eq_false_iff_not] at hne
      simp only [decide_eq_true_eq] at hge
      have hmono : n.hint pos ≤ n.hint pos2 := by
        rw [hhead pos (by omega), hhead pos2 hp2]
        exact head_le_head (hn.getKey_le hs (Nat.mul_le_mul_left _ (by omega)))
      have hlt : head key < n.hint pos2 := by omega
      rw [hhead pos2 hp2] at hlt
      refine ⟨?_, ?_, hbelow, ?_⟩
      · exact Nat.mul_le_mul_right _ (by omega)
      · rw [Nat.mul_comm]
        exact hs.le
      · intro i hi hic
        rw [Nat.mul_comm] at hi
        exact (lt_of_head_lt hlt).trans_le (hn.getKey_le hic hi)
    · simp only [hp2, ite_false]
      refine ⟨?_, le_rfl, hbelow, by omega⟩
      have : pos * dist ≤ 16 * dist := Nat.mul_le_mul_right _ (by omega)
      omega
  · simp only [hc, ite_false, Program.pure_eq, read_ret]
    exact ⟨_, _, rfl, by omega, le_rfl, by omega, by omega⟩

/-- **Accelerated search equals plain search.** The prefix test, the hints, the heads and the
comparison of the stored keys never change the result. -/
theorem Searchable.read_lowerBound {n : BTreeNode} (hn : n.Searchable) (skey : Key) :
    n.read (PageRead.lowerBound skey) = n.searchResult skey := by
  have hfence : (decide (n.lowerFence.offset + n.lowerFence.len ≤ pageSize)) = true :=
    decide_eq_true hn.fence
  have hpfx : n.bytes.read n.lowerFence.offset (min skey.length n.prefixLen) =
      n.getPrefix.take skey.length := (Memory.take_read _ _ _ _).symm
  have hkey : ∀ i (hi : i < n.keys.length), n.keys[i] = n.getPrefix ++ n.getKey i := by
    intro i hi
    simp only [keys, getElem_firstn, fullKey]
  -- a key below all full keys
  have hlow (h : ∀ i, skey < n.getPrefix ++ n.getKey i) : n.searchResult skey = .ok (0, false) := by
    have hrank : rank n.keys skey = 0 :=
      rank_eq_of_split (Nat.zero_le _) (by omega) (fun i hi _ => by rw [hkey]; exact (h i).le)
    have hmem : skey ∉ n.keys := by
      intro hm
      obtain ⟨i, hi, heq⟩ := List.mem_iff_getElem.mp hm
      exact absurd (hkey i hi ▸ heq) (ne_of_gt (h i))
    simp [searchResult, hrank, hmem]
  simp only [PageRead.lowerBound, Program.bind_eq, read_bind, read_lowerFenceInPage, hfence,
    except_bind_ok, ite_true, read_fetch, fetch, read_fetchBytes, hpfx]
  have hsplit := List.take_append_drop skey.length n.getPrefix
  cases hcmp : memcmp skey (n.getPrefix.take skey.length) with
  | lt =>
    simp only [Program.pure_eq, read_ret]
    refine (hlow ?_).symm
    intro i
    have hlt := memcmp_eq_lt_append hcmp [] (n.getPrefix.drop skey.length ++ n.getKey i)
    rwa [← List.append_assoc, hsplit, List.append_nil] at hlt
  | gt =>
    have hlt : ∀ i, n.getPrefix ++ n.getKey i < skey := by
      intro i
      have hlt := memcmp_eq_gt_append hcmp [] (n.getPrefix.drop skey.length ++ n.getKey i)
      rwa [← List.append_assoc, hsplit, List.append_nil] at hlt
    have hrank : rank n.keys skey = n.count :=
      rank_eq_of_split (by simp) (fun i hi _ => by rw [hkey]; exact hlt i)
        (fun i hi hle => by simp only [length_keys] at hi; omega)
    have hmem : skey ∉ n.keys := by
      intro hm
      obtain ⟨i, hi, heq⟩ := List.mem_iff_getElem.mp hm
      exact absurd (hkey i hi ▸ heq) (ne_of_lt (hlt i))
    simp [searchResult, hrank, hmem, read_safeCount n hn.count_le]
  | eq =>
    have heq := memcmp_eq_eq hcmp
    rw [List.length_take, length_getPrefix, List.take_take] at heq
    simp only [read_bind, read_fetch, except_bind_ok, fetch]
    by_cases hshort : skey.length < n.prefixLen
    · simp only [hshort, ite_true, Program.pure_eq, read_ret]
      rw [Nat.min_eq_left hshort.le, List.take_length, Nat.min_self] at heq
      refine (hlow ?_).symm
      intro i
      refine lt_of_lt_of_le ?_ (le_append n.getPrefix (n.getKey i))
      rw [← hsplit, ← heq]
      apply lt_append_of_ne_nil
      intro hnil
      have hl := congrArg List.length hnil
      simp only [List.length_drop, length_getPrefix, List.length_nil] at hl
      omega
    · simp only [hshort, ite_false, read_bind, read_fetch, except_bind_ok, fetch,
        read_safeCount n hn.count_le]
      rw [Nat.min_eq_right (by omega), Nat.min_eq_left (by omega),
        List.take_of_length_le (l := n.getPrefix) (by simp; omega)] at heq
      obtain ⟨lower, upper, hrange, hb⟩ := hn.read_searchHint (skey.drop n.prefixLen)
      simp only [hrange, except_bind_ok]
      rw [hn.read_searchSlots _ _ _ hb, ← heq, List.take_append_drop]

/-- The search on a latched page. -/
theorem Searchable.lowerBound_eq {n : BTreeNode} (hn : n.Searchable) (skey : Key) :
    n.lowerBound skey = .ok (rank n.keys skey, decide (skey ∈ n.keys)) := by
  simp only [lowerBound, hn.read_lowerBound, searchResult, liftRead]

end BTreeNode

end MemSafeDB
