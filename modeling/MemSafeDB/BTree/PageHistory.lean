import Mathlib.Order.Interval.Finset.Nat
import MemSafeDB.BTree.Update

/-!
# The history of a page

A page starts with its fences, and entries are inserted, removed and moved together in any order.
Whatever the keys are, as long as they start with the prefix of the page, its bytes stay accounted
for and every insertion for which there is space succeeds.
-/

namespace MemSafeDB
open Lib

/-- The offsets of `len` bytes that start at `offset`. -/
def extent (offset len : Nat) : Finset Nat := Finset.Ico offset (offset + len)

lemma disjoint_extent {o l o' l' : Nat} (h : l = 0 ∨ l' = 0 ∨ o + l ≤ o' ∨ o' + l' ≤ o) :
    Disjoint (extent o l) (extent o' l') := by
  rw [Finset.disjoint_left]
  intro a ha ha'
  simp only [extent, Finset.mem_Ico] at ha ha'
  omega

lemma extent_subset {o l a b : Nat} (hlo : l = 0 ∨ a ≤ o) (hhi : o + l ≤ b) :
    extent o l ⊆ Finset.Ico a b := by
  intro x hx
  simp only [extent, Finset.mem_Ico] at hx ⊢
  omega

namespace BTreeNode

/-- The bytes of the fences and of the entries, slot by slot. -/
def extents (n : BTreeNode) : List (Finset Nat) :=
  extent n.lowerFence.offset n.lowerFence.len ::
    extent n.upperFence.offset n.upperFence.len ::
      n.slots.map (fun s => extent s.offset s.space)

/-- The pages that a new page with fences becomes in any sequence of operations, where `Allowed`
says which entries are inserted. -/
inductive Built (Allowed : BTreeNode → Key → Key → Prop) : BTreeNode → Prop where
  | setFences {b : Bool} {lower upper : Key} {n : BTreeNode}
      (h : (new b).setFences lower upper = .ok n) : Built Allowed n
  | insertInPage {n n' : BTreeNode} {key payload : Key} (hn : Built Allowed n)
      (hallowed : Allowed n key payload)
      (hspace : n.hasSpaceFor key.length payload.length = true)
      (h : n.insertInPage key payload = .ok n') : Built Allowed n'
  | removeSlot {n : BTreeNode} {i : Nat} (hn : Built Allowed n) (hi : i < n.count) :
      Built Allowed (n.removeSlot i)
  | removeInPage {n n' : BTreeNode} {key : Key} {found : Bool} (hn : Built Allowed n)
      (h : n.removeInPage key = .ok (found, n')) : Built Allowed n'
  | compactify {n n' : BTreeNode} (hn : Built Allowed n) (h : n.compactify = .ok n') :
      Built Allowed n'

/-- The books of a page: what is used, where it lies, and what the next operation does. -/
structure WellAccounted (Allowed : BTreeNode → Key → Key → Prop) (n : BTreeNode) : Prop where
  spaceUsed : n.spaceUsed = n.lowerFence.len + n.upperFence.len + (n.slots.map Slot.space).sum
  disjoint : n.extents.Pairwise Disjoint
  inHeap : ∀ x ∈ n.extents, x ⊆ Finset.Ico n.dataOffset pageSize
  slotEnd : slotPos n.count ≤ n.dataOffset
  insertInPage : ∀ key payload, Allowed n key payload →
    n.hasSpaceFor key.length payload.length = true →
      ∃ n' i, n.insertInPage key payload = .ok n' ∧ i ≤ n.count ∧
        n'.view = { n.view with entries := n.entries.insertIdx i (key, payload) }
  compactify : ∃ n', n.compactify = .ok n' ∧ n'.view = n.view ∧ n'.getPrefix = n.getPrefix ∧
    n'.freeSpace = n.freeSpaceAfterCompaction

variable {n : BTreeNode}

lemma Accounted.slotInPage (hn : n.Accounted) {i : Nat} (hi : i < n.count) : n.SlotInPage i := by
  have hin := hn.layout.slots _ (mem_firstn.mpr ⟨i, hi, rfl⟩)
  have hend := hn.slotEnd
  change n.dataOffset ≤ _ ∧ _ at hin
  simp only [slotPos_eq] at hend
  refine ⟨?_, hin.2⟩
  simp only [headerSize]
  omega

/-- A search for any key ends at a slot id within the count. -/
lemma Accounted.lowerBound_ok (hn : n.Accounted) (key : Key) :
    ∃ r, n.lowerBound key = .ok r ∧ r.1 ≤ n.count := by
  obtain ⟨r, hr⟩ := lowerBound_total key hn.layout.lower.2
    (fun i hi => hn.slotInPage (hi.trans_le (Nat.min_le_left _ _)))
  refine ⟨r, by rw [lowerBound, hr, liftRead], ?_⟩
  exact (lowerBound_within hr).1.trans (Nat.min_le_left _ _)

theorem Accounted.insertInPage_eq (hn : n.Accounted) {key payload : Key}
    (hadm : n.Admissible key payload)
    (hspace : n.hasSpaceFor key.length payload.length = true) :
    ∃ n' i, n.insertInPage key payload = .ok n' ∧ i ≤ n.count ∧ n'.Accounted ∧
      n'.view = { n.view with entries := n.entries.insertIdx i (key, payload) } ∧
      (n.FencesApart → n'.FencesApart) := by
  obtain ⟨m, hacc, hview, -, hapart, hinsert⟩ := hn.insertInPage_of_space hadm hspace
  obtain ⟨r, hr, hle⟩ := hacc.lowerBound_ok key
  have hcount : m.count = n.count := by
    rw [← length_entries, show m.entries = n.entries from congrArg View.entries hview,
      length_entries]
  obtain ⟨n', hok, hacc', hv, -, hsame⟩ := hinsert r hr hle
  exact ⟨n', r.1, hok, hcount ▸ hle, hacc', hv, fun h => hsame.apart (hapart h)⟩

lemma Fresh.accounted {b : Bool} {lower upper : Key} (hf : n.Fresh b lower upper) :
    n.Accounted := by
  refine ⟨?_, ?_⟩
  · rw [slots, hf.count]
    exact hf.filled.layout
  · rw [View.prefixLen, view_lower, view_upper, hf.lower_eq, hf.upper_eq]
    exact hf.prefixLen

/-- Every operation keeps the books. -/
lemma Built.accounted (hn : Built Admissible n) : n.Accounted ∧ n.FencesApart := by
  induction hn with
  | setFences h =>
    obtain ⟨n, hn, hf, hapart⟩ := setFences_eq _ _ _ (setFences_fits h)
    rw [hn, Except.ok.injEq] at h
    exact h ▸ ⟨hf.accounted, hapart⟩
  | insertInPage hn hallowed hspace h ih =>
    obtain ⟨n', i, hok, -, hacc, -, hapart⟩ := ih.1.insertInPage_eq hallowed hspace
    rw [hok, Except.ok.injEq] at h
    exact h ▸ ⟨hacc, hapart ih.2⟩
  | removeSlot hn hi ih => exact ⟨(ih.1.removeSlot_eq hi).1, ih.2⟩
  | @removeInPage n n' key found hn h ih =>
    obtain ⟨r, hr, -⟩ := ih.1.lowerBound_ok key
    have hfound : r.2 = true → r.1 < n.count := fun hf => by
      have hread : n.read (PageRead.lowerBound key) = .ok r := by
        rw [lowerBound] at hr
        cases hread : n.read (PageRead.lowerBound key) with
        | error e => simp only [hread, liftRead, reduceCtorEq] at hr
        | ok r' => simpa only [hread, liftRead, Except.ok.injEq] using hr
      exact ((lowerBound_within hread).2 hf).1.trans_le (Nat.min_le_left _ _)
    simp only [BTreeNode.removeInPage, hr, bind, Except.bind, pure, Except.pure] at h
    split at h
    · rename_i hf
      rw [Except.ok.injEq, Prod.mk.injEq] at h
      exact h.2 ▸ ⟨(ih.1.removeSlot_eq (hfound hf)).1, ih.2⟩
    · rw [Except.ok.injEq, Prod.mk.injEq] at h
      exact h.2 ▸ ih
  | compactify hn h ih =>
    obtain ⟨n', hok, hacc, -, -, -, hapart⟩ := ih.1.compactify_eq
    rw [hok, Except.ok.injEq] at h
    exact h ▸ ⟨hacc, hapart⟩

lemma Accounted.extents_disjoint (hn : n.Accounted) (hapart : n.FencesApart) :
    n.extents.Pairwise Disjoint := by
  have hfence : ∀ f : FenceKeySlot, ∀ s : Slot, f.Apart s →
      Disjoint (extent f.offset f.len) (extent s.offset s.space) := by
    intro f s hfs
    refine disjoint_extent ?_
    simp only [FenceKeySlot.Apart, Slot.stop, Slot.space] at hfs ⊢
    omega
  simp only [extents, List.pairwise_cons, List.mem_cons, List.mem_map, forall_eq_or_imp,
    forall_exists_index, and_imp, forall_apply_eq_imp_iff₂]
  refine ⟨⟨disjoint_extent (Or.inr (Or.inr (Or.inr hapart))), fun s hs => ?_⟩, fun s hs => ?_, ?_⟩
  · exact hfence _ s (hn.layout.apartLower s hs)
  · exact hfence _ s (hn.layout.apartUpper s hs)
  · rw [List.pairwise_map]
    refine hn.layout.apart.imp (fun {s t} hst => disjoint_extent ?_)
    simp only [Slot.Apart, Slot.stop, Slot.space] at hst ⊢
    omega

lemma Accounted.extents_inHeap (hn : n.Accounted) :
    ∀ x ∈ n.extents, x ⊆ Finset.Ico n.dataOffset pageSize := by
  intro x hx
  simp only [extents, List.mem_cons, List.mem_map] at hx
  rcases hx with rfl | rfl | ⟨s, hs, rfl⟩
  · exact extent_subset hn.layout.lower.1 hn.layout.lower.2
  · exact extent_subset hn.layout.upper.1 hn.layout.upper.2
  · have hin := hn.layout.slots s hs
    refine extent_subset (Or.inr hin.1) ?_
    simpa only [Slot.stop, Slot.space, Nat.add_assoc] using hin.2

/-- A page keeps its books in every sequence of insertions of keys with its prefix, removals and
compactions. -/
theorem Built.wellAccounted (hn : Built Admissible n) : n.WellAccounted Admissible := by
  obtain ⟨hacc, hapart⟩ := hn.accounted
  refine ⟨hacc.layout.used, hacc.extents_disjoint hapart, hacc.extents_inHeap, hacc.slotEnd, ?_, ?_⟩
  · intro key payload hadm hspace
    obtain ⟨n', i, hok, hi, -, hview, -⟩ := hacc.insertInPage_eq hadm hspace
    exact ⟨n', i, hok, hi, hview⟩
  · obtain ⟨n', hok, hacc', hview, hfree, -, -⟩ := hacc.compactify_eq
    exact ⟨n', hok, hview, hacc.getPrefix_congr hacc' hview, hfree⟩

/-- A leaf whose keys all start with one zero byte. -/
def zeroPrefix : BTreeNode :=
  ((new true).setFences (keyOf [0]) (keyOf [0, 1])).toOption.getD (new true)

lemma setFences_zeroPrefix : (new true).setFences (keyOf [0]) (keyOf [0, 1]) = .ok zeroPrefix := by
  obtain ⟨n, hn, -⟩ := setFences_eq true (keyOf [0]) (keyOf [0, 1]) (by decide)
  rw [zeroPrefix, hn]
  rfl

instance {n : BTreeNode} {key payload : Key} : Decidable (n.Admissible key payload) :=
  instDecidableAnd

/-- Inserts an entry that is admissible and for which there is space. -/
def insertAdmissible (n : BTreeNode) (key payload : Key) : Option BTreeNode :=
  if n.Admissible key payload ∧ n.hasSpaceFor key.length payload.length = true then
    (n.insertInPage key payload).toOption
  else none

lemma eq_ok_of_toOption {ε α : Type} {x : Except ε α} {a : α} (h : x.toOption = some a) :
    x = .ok a := by
  cases x with
  | error e => cases h
  | ok b => exact congrArg Except.ok (Option.some.inj h)

lemma Built.insertAdmissible {n' : BTreeNode} {key payload : Key} (hn : Built Admissible n)
    (h : n.insertAdmissible key payload = some n') : Built Admissible n' := by
  unfold BTreeNode.insertAdmissible at h
  split at h
  · rename_i hallowed
    exact hn.insertInPage hallowed.1 hallowed.2 (eq_ok_of_toOption h)
  · cases h

/-- There is space for the third entry only where the first one was. -/
theorem zeroPrefix_wellAccounted : ∃ first second freed third last,
    zeroPrefix.insertAdmissible (keyOf [0, 0]) (List.replicate 2000 zeroByte) = some first ∧
      first.insertAdmissible (keyOf [0, 0, 7]) (List.replicate 1500 zeroByte) = some second ∧
      second.removeInPage (keyOf [0, 0]) = .ok (true, freed) ∧ freed.freeSpace < 2000 ∧
      freed.insertAdmissible (keyOf [0, 3]) (List.replicate 2000 zeroByte) = some third ∧
      (third.removeSlot 0).compactify = .ok last ∧ last.entries.map Prod.fst = [keyOf [0, 3]] ∧
      third.WellAccounted Admissible ∧ last.WellAccounted Admissible := by
  have hplay : (zeroPrefix.insertAdmissible (keyOf [0, 0]) (List.replicate 2000 zeroByte)).bind
      (fun first =>
        (first.insertAdmissible (keyOf [0, 0, 7]) (List.replicate 1500 zeroByte)).bind
      fun second => (second.removeInPage (keyOf [0, 0])).toOption.bind fun freed =>
        (freed.2.insertAdmissible (keyOf [0, 3]) (List.replicate 2000 zeroByte)).bind
      fun third => (third.removeSlot 0).compactify.toOption.map fun last =>
        ((freed.1, decide (freed.2.freeSpace < 2000)), third.count,
          last.entries.map Prod.fst)) = some ((true, true), 2, [keyOf [0, 3]]) := by
    decide +kernel
  obtain ⟨first, hfirst, hplay⟩ := Option.bind_eq_some_iff.mp hplay
  obtain ⟨second, hsecond, hplay⟩ := Option.bind_eq_some_iff.mp hplay
  obtain ⟨⟨found, freed⟩, hremove, hplay⟩ := Option.bind_eq_some_iff.mp hplay
  obtain ⟨third, hthird, hplay⟩ := Option.bind_eq_some_iff.mp hplay
  obtain ⟨last, hlast, hends⟩ := Option.map_eq_some_iff.mp hplay
  obtain ⟨hfreed, hrest⟩ := Prod.mk.inj hends
  obtain ⟨rfl, hfull⟩ := Prod.mk.inj hfreed
  obtain ⟨hcount, hkeys⟩ := Prod.mk.inj hrest
  have hremoved := eq_ok_of_toOption hremove
  have hcompact := eq_ok_of_toOption hlast
  have hbuilt : Built Admissible third :=
    ((((Built.setFences setFences_zeroPrefix).insertAdmissible hfirst).insertAdmissible
      hsecond).removeInPage hremoved).insertAdmissible hthird
  have hslot : 0 < third.count := hcount ▸ Nat.two_pos
  exact ⟨first, second, freed, third, last, hfirst, hsecond, hremoved, of_decide_eq_true hfull,
    hthird, hcompact, hkeys, Built.wellAccounted hbuilt,
    Built.wellAccounted ((hbuilt.removeSlot hslot).compactify hcompact)⟩

/-- The length of a key that is shorter than the prefix wraps around: the page reports space for
it, and the insertion copies far more bytes than the page has. -/
theorem zeroPrefix_shortKey : zeroPrefix.hasSpaceFor 0 0 = true ∧
    (zeroPrefix.insertInPage [] []).isOk = false ∧
    ¬∀ n, Built (fun _ _ _ => True) n → n.WellAccounted (fun _ _ _ => True) := by
  have hspace : zeroPrefix.hasSpaceFor 0 0 = true := by decide +kernel
  have hfail : (zeroPrefix.insertInPage [] []).isOk = false := by decide +kernel
  refine ⟨hspace, hfail, fun h => ?_⟩
  obtain ⟨n, i, hok, -⟩ := (h zeroPrefix (.setFences setFences_zeroPrefix)).insertInPage [] []
    trivial hspace
  rw [hok] at hfail
  cases hfail

end BTreeNode

end MemSafeDB
