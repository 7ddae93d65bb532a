import MemSafeDB.BTree.Bounds
import MemSafeDB.BTree.Split

/-!
# What optimistic readers compute

On a valid page the readers stay in the page and return what the functions on the page return.
-/

namespace MemSafeDB
open Lib

namespace BTreeNode

/-- The reader stays in the page and returns `a`. -/
def Reads {α : Type} (n : BTreeNode) (r : PageRead α) (a : α) : Prop :=
  n.read r = .ok a ∧ n.ReadsInPage r

variable {n : BTreeNode} {α β : Type} {limit : Nat}

lemma Reads.pure (a : α) : n.Reads (Program.ret a : PageRead α) a := ⟨rfl, trivial⟩

lemma Reads.fetch {l : Loc} (h : l.InPage) : n.Reads (PageRead.fetch l) (n.fetch l) :=
  ⟨rfl, (readsInPage_fetch l).mpr h⟩

lemma Reads.bind {p : PageRead α} {f : α → PageRead β} {a : α} {b : β} (h : n.Reads p a)
    (hf : n.Reads (f a) b) : n.Reads (Program.bind p f) b := by
  refine ⟨?_, ?_⟩
  · rw [read_bind, h.1]
    exact hf.1
  · rw [readsInPage_bind]
    refine ⟨h.2, fun a' ha' => ?_⟩
    rw [h.1, Except.ok.injEq] at ha'
    exact ha' ▸ hf.2

lemma reads_isInner : n.Reads PageRead.isInner n.isInner := by
  have hl : n.Reads (PageRead.fetch .isLeaf) _ := Reads.fetch (by decide)
  refine hl.bind ?_
  have heq : (n.fetch .isLeaf == 0) = n.isInner := by
    cases h : n.isLeaf <;> simp [fetch, isInner, h]
  rw [heq]
  exact Reads.pure _

lemma reads_freeSpaceAfterCompaction :
    n.Reads PageRead.freeSpaceAfterCompaction n.freeSpaceAfterCompaction := by
  have hc : n.Reads (PageRead.fetch .count) _ := Reads.fetch (by decide)
  have hs : n.Reads (PageRead.fetch .spaceUsed) _ := Reads.fetch (by decide)
  exact hc.bind (hs.bind (Reads.pure _))

lemma reads_hasSpaceFor (keyLen payloadLen : Nat) :
    n.Reads (PageRead.hasSpaceFor keyLen payloadLen) (n.hasSpaceFor keyLen payloadLen) := by
  have hp : n.Reads (PageRead.fetch .prefixLen) _ := Reads.fetch (by decide)
  have hneed : n.Reads (PageRead.spaceNeeded keyLen payloadLen) _ := hp.bind (Reads.pure _)
  exact hneed.bind (reads_freeSpaceAfterCompaction.bind (Reads.pure _))

lemma Valid.not_prefixLeavesPage (hn : n.Valid limit) (key : Key) : ¬n.PrefixLeavesPage key := by
  have h1 := hn.layout.lower.2
  have h2 := hn.layout.pfx
  change n.lowerFence.offset + n.lowerFence.len ≤ pageSize at h1
  change n.prefixLen ≤ n.lowerFence.len at h2
  unfold PrefixLeavesPage
  omega

lemma Valid.reads_lowerBound (hn : n.Valid limit) (key : Key) :
    n.Reads (PageRead.lowerBound key) (rank n.keys key, decide (key ∈ n.keys)) :=
  ⟨hn.searchable.read_lowerBound key,
    (n.readsInPage_lowerBound key).1.mpr (hn.not_prefixLeavesPage key)⟩

lemma Valid.slotInPage (hn : n.Valid limit) {i : Nat} (hi : i < n.count) : n.SlotInPage i := by
  have hs := hn.searchable.slotInPage i hi
  refine ⟨hs.1, ?_⟩
  simp only [Slot.stop]
  exact hs.2

lemma Valid.reads_getChild (hn : n.Valid limit) (hl : n.isLeaf = false) {i : Nat} (hi : i < n.count) :
    n.Reads (PageRead.getChild i) (n.getChild i) := by
  have hmax : i < maxSlots := lt_of_lt_of_le hi hn.count_le
  obtain ⟨h1, h2, -, -⟩ := inPage_slot hmax
  have hstop := (hn.slotInPage hi).2
  have hlen := (hn.getChild_eq hl hi).2
  simp only [Slot.stop, hlen] at hstop
  have hb : n.Reads (PageRead.fetchBytes 8 ((n.slot i).offset + (n.slot i).keyLen)) _ :=
    ⟨read_fetchBytes _ _ _, (readsInPage_fetchBytes _ _).mpr (Or.inr hstop)⟩
  have ho : n.Reads (PageRead.fetch (.slotOffset i)) _ := Reads.fetch h1
  have hk : n.Reads (PageRead.fetch (.slotKeyLen i)) _ := Reads.fetch h2
  exact ho.bind (hk.bind (hb.bind (Reads.pure _)))

lemma Valid.childFor_eq (hn : n.Valid limit) (hl : n.isLeaf = false) (key : Key) :
    n.view.childFor key =
      if rank n.keys key < n.count then n.getChild (rank n.keys key) else n.link := by
  have hkeys : n.view.keys = n.keys := (keys_eq n).symm
  rw [View.childFor, hkeys]
  by_cases hlt : rank n.keys key < n.count
  · have hlt' : rank n.keys key < n.view.entries.length := by simpa using hlt
    have hent : n.view.entries[rank n.keys key] = _ := getElem_entries hlt'
    rw [List.getElem?_eq_getElem hlt', if_pos hlt, (hn.getChild_eq hl hlt).1, hent]
  · rw [List.getElem?_eq_none (by simpa using hlt), if_neg hlt]
    rfl

lemma Valid.reads_lookupInner (hn : n.Valid limit) (hl : n.isLeaf = false) (key : Key) :
    n.Reads (PageRead.lookupInner key) (n.view.childFor key) := by
  refine (hn.reads_lowerBound key).bind ?_
  have hsafe : n.Reads PageRead.safeCount n.count :=
    ⟨read_safeCount n hn.count_le, readsInPage_safeCount⟩
  refine hsafe.bind ?_
  rw [hn.childFor_eq hl]
  by_cases hlt : rank n.keys key < n.count
  · have hnot : ¬n.count ≤ rank n.keys key := by omega
    simp only [hnot, hlt, ite_true, ite_false]
    have hcheck : n.Reads (PageRead.checkSlotOrRestart (rank n.keys key)) () :=
      ⟨read_checkSlotOrRestart (hn.slotInPage hlt),
        readsInPage_checkSlotOrRestart (lt_of_lt_of_le hlt hn.count_le)⟩
    exact hcheck.bind (hn.reads_getChild hl hlt)
  · have hle : n.count ≤ rank n.keys key := by omega
    simp only [hle, hlt, ite_true, ite_false]
    exact Reads.fetch (by decide)

lemma Valid.reads_copyPayload (hn : n.Valid limit) {key : Key} (hk : key ∈ n.keys) (size : Nat) :
    n.Reads (PageRead.copyPayload (rank n.keys key) size)
      ((n.getPayload (rank n.keys key)).take size,
        (n.getPayload (rank n.keys key)).length) := by
  have hread := hn.searchable.read_lowerBound key
  have hsearch : n.read (PageRead.lowerBound key) = .ok (rank n.keys key, true) := by
    rw [hread, searchResult, decide_eq_true hk]
  refine ⟨?_, readsInPage_copyPayload hsearch size⟩
  simp only [PageRead.copyPayload, Program.bind_eq, Program.pure_eq, read_bind, read_fetch,
    except_bind_ok, read_fetchBytes, read_ret, fetch, getPayload, Memory.take_read,
    Memory.length_read, payloadOffset, Nat.min_comm]

end BTreeNode

end MemSafeDB
