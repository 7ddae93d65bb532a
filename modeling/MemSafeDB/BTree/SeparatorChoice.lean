import MemSafeDB.BTree.Contracts

/-!
# The choice of a separator

`findSeparator` and `getSep` as programs that read the page location by location. On a page with
sorted keys they end, read the slots below the count only, and choose a separator that lies
between two neighbouring keys.
-/

namespace MemSafeDB
open Lib

/-- A computation that reads a page location by location and may fail an assertion. -/
abbrev CheckedRead (α : Type) := Program pageSignature Fault α

namespace CheckedRead

def fetch (l : Loc) : CheckedRead Nat := Program.op (S := pageSignature) l

def assert (a : Assertion) (p : Prop) [Decidable p] : CheckedRead Unit :=
  if p then pure () else Program.throw (.assertion a)

def fetchBytes (len off : Nat) : CheckedRead (List Byte) :=
  Program.tryCatch (PageRead.fetchBytes len off) (fun _ => Program.throw .restart)

/-- The loop over the bytes at `a + i` and `b + i`; `left` bytes are still to be compared. -/
def commonBytes (a b : Nat) : (left i : Nat) → CheckedRead Nat
  | 0, i => pure i
  | left + 1, i => do
    let x ← fetch (.byte (a + i))
    let y ← fetch (.byte (b + i))
    if x ≠ y then pure i else commonBytes a b left (i + 1)

def commonPrefix (slotA slotB : Nat) : CheckedRead Nat := do
  let count ← fetch .count
  assert .commonPrefixSlot (slotA < count)
  let lenA ← fetch (.slotKeyLen slotA)
  let lenB ← fetch (.slotKeyLen slotB)
  let a ← fetch (.slotOffset slotA)
  let b ← fetch (.slotOffset slotB)
  commonBytes a b (min lenA lenB) 0

def findChange (bestPrefixLen : Nat) : (left bestSlot : Nat) → CheckedRead Nat
  | 0, bestSlot => pure bestSlot
  | left + 1, bestSlot => do
    let c ← commonPrefix bestSlot 0
    if c = bestPrefixLen then findChange bestPrefixLen left (bestSlot + 1) else pure bestSlot

def findSplitSlot (splitOrdered : Bool) : CheckedRead Nat := do
  let count ← fetch .count
  if splitOrdered then
    pure (count - 2)
  else if 16 < count then do
    let lower := count / 2 - count / 16
    let upper := count / 2
    let bestPrefixLen ← commonPrefix lower 0
    let c ← commonPrefix (upper - 1) 0
    if bestPrefixLen ≠ c then
      findChange bestPrefixLen (upper - (lower + 1)) (lower + 1)
    else
      pure lower
  else
    pure ((count - 1) / 2)

/-- The separator info, by short-circuit evaluation of the conditions for a truncation. -/
def truncate (bestSlot common : Nat) : CheckedRead BTreeNode.SeparatorInfo := do
  let count ← fetch .count
  let pl ← fetch .prefixLen
  let len ← fetch (.slotKeyLen bestSlot)
  let untruncated := ⟨pl + len, bestSlot, false⟩
  if bestSlot + 1 < count then
    if common < len then do
      let next ← fetch (.slotKeyLen (bestSlot + 1))
      if common + 1 < next then pure ⟨pl + common + 1, bestSlot, true⟩ else pure untruncated
    else
      pure untruncated
  else
    pure untruncated

def findSeparator (splitOrdered : Bool) : CheckedRead BTreeNode.SeparatorInfo := do
  let count ← fetch .count
  assert .separatorCount (1 < count)
  let leaf ← fetch .isLeaf
  if leaf = 0 then do
    let pl ← fetch .prefixLen
    let len ← fetch (.slotKeyLen (count / 2))
    pure ⟨pl + len, count / 2, false⟩
  else do
    let bestSlot ← findSplitSlot splitOrdered
    let common ← commonPrefix bestSlot (bestSlot + 1)
    truncate bestSlot common

def getSep (info : BTreeNode.SeparatorInfo) : CheckedRead Key := do
  let lower ← fetch .lowerOffset
  let pl ← fetch .prefixLen
  let pfx ← fetchBytes pl lower
  let off ← fetch (.slotOffset (info.slot + info.isTruncated.toNat))
  let pl1 ← fetch .prefixLen
  let rest ← fetchBytes (info.len - pl1) off
  pure (pfx ++ rest)

/-- `findSeparator` followed by `getSep`. -/
def separate (splitOrdered : Bool) : CheckedRead (BTreeNode.SeparatorInfo × Key) := do
  let info ← findSeparator splitOrdered
  let sep ← getSep info
  pure (info, sep)

end CheckedRead

/-- The location is not part of a slot from `c` on. -/
def Loc.SlotBelow (c : Nat) : Loc → Prop
  | .slotOffset i => i < c
  | .slotKeyLen i => i < c
  | .slotPayloadLen i => i < c
  | .slotHead i => i < c
  | _ => True

namespace BTreeNode

/-- The result of a checked read on one image. -/
def run {α : Type} (n : BTreeNode) (p : CheckedRead α) : Except Fault α :=
  Program.interp (S := pageSignature) n.fetch p

/-- On this image, the program ends with the value and reads only slots below the count. -/
structure Computes {α : Type} (n : BTreeNode) (p : CheckedRead α) (a : α) : Prop where
  value : n.run p = .ok a
  reads : Program.Performs (S := pageSignature) n.fetch (Loc.SlotBelow n.count) p

variable {n : BTreeNode}

lemma Computes.ret {α : Type} (a : α) : n.Computes (Program.ret a) a := ⟨rfl, trivial⟩

lemma Computes.bind {α β : Type} {p : CheckedRead α} {f : α → CheckedRead β} {a : α} {b : β}
    (hp : n.Computes p a) (hf : n.Computes (f a) b) : n.Computes (Program.bind p f) b := by
  constructor
  · have hbind : n.run (Program.bind p f) = (n.run p).bind (fun a => n.run (f a)) :=
      Program.interp_bind (S := pageSignature) n.fetch p f
    rw [hbind, hp.value]
    exact hf.value
  · refine (Program.performs_bind (S := pageSignature) _ _ p f).mpr ⟨hp.reads, fun a' ha => ?_⟩
    change n.run p = .ok a' at ha
    rw [hp.value, Except.ok.injEq] at ha
    exact ha ▸ hf.reads

lemma Computes.fetch {l : Loc} (h : l.SlotBelow n.count) :
    n.Computes (CheckedRead.fetch l) (n.fetch l) :=
  ⟨rfl, h, trivial⟩

lemma Computes.assert (a : Assertion) {p : Prop} [Decidable p] (hp : p) :
    n.Computes (CheckedRead.assert a p) () := by
  rw [CheckedRead.assert, if_pos hp]
  exact Computes.ret ()

lemma Computes.fetchBytes (len off : Nat) :
    n.Computes (CheckedRead.fetchBytes len off) (n.bytes.read off len) := by
  have hread := read_fetchBytes n len off
  constructor
  · exact Program.interp_tryCatch (S := pageSignature) hread _
  · refine (Program.performs_tryCatch (S := pageSignature) _ _ _ _).mpr
      ⟨(readsOnly_fetchBytes len off).mpr (fun _ _ _ => trivial), fun e he => ?_⟩
    change n.read (PageRead.fetchBytes len off) = .error e at he
    rw [hread] at he
    cases he

lemma Computes.commonBytes (a b left i : Nat) :
    n.Computes (CheckedRead.commonBytes a b left i)
      (i + commonLen (n.bytes.read (a + i) left) (n.bytes.read (b + i) left)) := by
  induction left generalizing i with
  | zero => exact Computes.ret i
  | succ left ih =>
    refine (Computes.fetch (l := .byte (a + i)) trivial).bind ?_
    refine (Computes.fetch (l := .byte (b + i)) trivial).bind ?_
    have hread : ∀ o, n.bytes.read o (left + 1) = n.bytes o :: n.bytes.read (o + 1) left := by
      intro o
      rw [Nat.add_comm left 1, Memory.read_add]
      rfl
    have hiff : n.fetch (.byte (a + i)) ≠ n.fetch (.byte (b + i)) ↔
        n.bytes (a + i) ≠ n.bytes (b + i) := not_congr Fin.ext_iff.symm
    by_cases hne : n.bytes (a + i) ≠ n.bytes (b + i)
    · rw [if_pos (hiff.mpr hne), hread, hread, commonLen, if_neg hne]
      exact Computes.ret i
    · have heq : n.bytes (a + i) = n.bytes (b + i) := not_not.mp hne
      rw [if_neg (mt hiff.mp hne), hread, hread, commonLen, if_pos heq]
      have hnext := ih (i + 1)
      rw [← Nat.add_assoc, ← Nat.add_assoc, Nat.add_assoc i 1, Nat.add_comm 1] at hnext
      exact hnext

lemma Computes.commonPrefix {a b : Nat} (ha : a < n.count) (hb : b < n.count) :
    n.Computes (CheckedRead.commonPrefix a b) (commonLen (n.getKey a) (n.getKey b)) := by
  refine (Computes.fetch (l := .count) trivial).bind ((Computes.assert _ ha).bind ?_)
  refine (Computes.fetch (l := .slotKeyLen a) ha).bind ?_
  refine (Computes.fetch (l := .slotKeyLen b) hb).bind ?_
  refine (Computes.fetch (l := .slotOffset a) ha).bind ?_
  refine (Computes.fetch (l := .slotOffset b) hb).bind ?_
  have hbytes := Computes.commonBytes (n := n) (n.slot a).offset (n.slot b).offset
    (min (n.slot a).keyLen (n.slot b).keyLen) 0
  have htake : ∀ i m, m ≤ (n.slot i).keyLen →
      n.bytes.read (n.slot i).offset m = (n.getKey i).take m := by
    intro i m hm
    rw [getKey, Memory.take_read, Nat.min_eq_left hm]
  rw [Nat.add_zero, Nat.add_zero, Nat.zero_add, htake a _ (Nat.min_le_left _ _),
    htake b _ (Nat.min_le_right _ _), commonLen_take (by simp only [length_getKey]; omega)] at hbytes
  exact hbytes

lemma Computes.findChange (bestPrefixLen left bestSlot : Nat) (h : bestSlot + left ≤ n.count)
    {s : Nat} (hs : n.findChange bestPrefixLen left bestSlot = .ok s) :
    n.Computes (CheckedRead.findChange bestPrefixLen left bestSlot) s := by
  induction left generalizing bestSlot with
  | zero =>
    cases hs
    exact Computes.ret _
  | succ left ih =>
    have hlt : bestSlot < n.count := by omega
    simp only [BTreeNode.findChange, commonPrefix_eq hlt, Bind.bind, Except.bind] at hs
    refine (Computes.commonPrefix hlt (show 0 < n.count by omega)).bind ?_
    split at hs
    · rename_i hc
      rw [if_pos hc]
      exact ih (bestSlot + 1) (by omega) hs
    · rename_i hc
      rw [if_neg hc]
      cases hs
      exact Computes.ret _

lemma Computes.findSplitSlot {splitOrdered : Bool} {s : Nat}
    (hs : n.findSplitSlot splitOrdered = .ok s) :
    n.Computes (CheckedRead.findSplitSlot splitOrdered) s := by
  refine (Computes.fetch (l := .count) trivial).bind ?_
  unfold BTreeNode.findSplitSlot at hs
  cases splitOrdered with
  | true =>
    cases hs
    exact Computes.ret _
  | false =>
    simp only [Bool.false_eq_true, ite_false, BTreeNode.fetch] at hs ⊢
    by_cases hc : 16 < n.count
    · have hl : n.count / 2 - n.count / 16 < n.count := by omega
      have hu : n.count / 2 - 1 < n.count := by omega
      simp only [hc, ite_true, commonPrefix_eq hl, commonPrefix_eq hu, Bind.bind, Except.bind] at hs ⊢
      refine (Computes.commonPrefix hl (by omega)).bind ?_
      refine (Computes.commonPrefix hu (by omega)).bind ?_
      split at hs
      · rename_i hne
        rw [if_pos hne]
        exact Computes.findChange _ _ _ (by omega) hs
      · rename_i hne
        rw [if_neg hne]
        cases hs
        exact Computes.ret _
    · simp only [hc, ite_false] at hs ⊢
      cases hs
      exact Computes.ret _

/-- What `truncate` chooses. -/
lemma Computes.truncate {s : Nat} (hs : s + 1 < n.count) (common : Nat) :
    n.Computes (CheckedRead.truncate s common)
      (if s + 1 < n.count ∧ common < (n.slot s).keyLen ∧ common + 1 < (n.slot (s + 1)).keyLen then
        ⟨n.prefixLen + common + 1, s, true⟩
      else ⟨n.prefixLen + (n.slot s).keyLen, s, false⟩) := by
  refine (Computes.fetch (l := .count) trivial).bind ?_
  refine (Computes.fetch (l := .prefixLen) trivial).bind ?_
  refine (Computes.fetch (l := .slotKeyLen s) (show s < n.count by omega)).bind ?_
  simp only [BTreeNode.fetch, hs, ite_true, true_and]
  by_cases hc : common < (n.slot s).keyLen
  · simp only [hc, ite_true, true_and]
    refine (Computes.fetch (l := .slotKeyLen (s + 1)) hs).bind ?_
    by_cases hnext : common + 1 < (n.slot (s + 1)).keyLen
    · simp only [BTreeNode.fetch, hnext, ite_true]
      exact Computes.ret _
    · simp only [BTreeNode.fetch, hnext, ite_false]
      exact Computes.ret _
  · simp only [hc, ite_false, false_and]
    exact Computes.ret _

lemma Computes.findSeparator (h : 1 < n.count) {splitOrdered : Bool} {info : SeparatorInfo}
    (hinfo : n.findSeparator splitOrdered = .ok info) :
    n.Computes (CheckedRead.findSeparator splitOrdered) info := by
  simp only [BTreeNode.findSeparator, check, h, ite_true, Bind.bind, Except.bind, isInner] at hinfo
  refine (Computes.fetch (l := .count) trivial).bind ((Computes.assert _ h).bind ?_)
  refine (Computes.fetch (l := .isLeaf) trivial).bind ?_
  cases hleaf : n.isLeaf with
  | false =>
    simp only [hleaf, Bool.not_false, ite_true] at hinfo
    simp only [BTreeNode.fetch, hleaf, Bool.toNat_false, ite_true]
    cases hinfo
    refine (Computes.fetch (l := .prefixLen) trivial).bind ?_
    refine (Computes.fetch (l := .slotKeyLen (n.count / 2)) ?_).bind (Computes.ret _)
    exact show n.count / 2 < n.count by omega
  | true =>
    obtain ⟨s, hs, hlt, -⟩ := findSplitSlot_eq h splitOrdered
    simp only [hleaf, Bool.not_true, Bool.false_eq_true, ite_false, hs,
      commonPrefix_eq (show s < n.count by omega)] at hinfo
    simp only [BTreeNode.fetch, hleaf, Bool.toNat_true, Nat.one_ne_zero, ite_false]
    refine (Computes.findSplitSlot hs).bind ?_
    refine (Computes.commonPrefix (by omega) hlt).bind ?_
    have htr := Computes.truncate hlt (commonLen (n.getKey s) (n.getKey (s + 1)))
    split at hinfo
    · rename_i hc
      cases hinfo
      rwa [if_pos hc] at htr
    · rename_i hc
      cases hinfo
      rwa [if_neg hc] at htr

lemma Computes.getSep {info : SeparatorInfo} (h : info.slot + info.isTruncated.toNat < n.count) :
    n.Computes (CheckedRead.getSep info) (n.getSep info) := by
  refine (Computes.fetch (l := .lowerOffset) trivial).bind ?_
  refine (Computes.fetch (l := .prefixLen) trivial).bind ?_
  refine (Computes.fetchBytes _ _).bind ?_
  refine (Computes.fetch (l := .slotOffset (info.slot + info.isTruncated.toNat)) h).bind ?_
  refine (Computes.fetch (l := .prefixLen) trivial).bind ?_
  exact (Computes.fetchBytes _ _).bind (Computes.ret _)

/-- The separator `sep` that `info` describes lies between the keys of two neighbouring slots. In
an inner node it is the key of its slot. -/
structure Separates (n : BTreeNode) (info : SeparatorInfo) (sep : Key) : Prop where
  length : sep.length = info.len
  startsWith : n.getPrefix <+: sep
  leaf : n.isLeaf = true → info.slot + 1 < n.count ∧
    n.fullKey info.slot ≤ sep ∧ sep < n.fullKey (info.slot + 1) ∧
    sep.length ≤ max (n.fullKey info.slot).length (n.fullKey (info.slot + 1)).length ∧
    (info.isTruncated = true → sep.length < (n.fullKey (info.slot + 1)).length)
  inner : n.isLeaf = false → info.slot < n.count ∧ sep = n.fullKey info.slot

lemma fullKey_of_split {es fs : List (Key × Key)} {e : Key × Key}
    (h : n.entries = es ++ e :: fs) : es.length < n.count ∧ n.fullKey es.length = e.1 := by
  have hlt : es.length < n.entries.length := by
    rw [h, List.length_append, List.length_cons]
    omega
  have he : n.entries[es.length] = e := by
    simp only [h, List.getElem_append_right (Nat.le_refl _), Nat.sub_self, List.getElem_cons_zero]
  refine ⟨by simpa using hlt, ?_⟩
  rw [← he, getElem_entries hlt]

lemma separates {info : SeparatorInfo} {es fs : List (Key × Key)} {e : Key × Key}
    (hs : Separator n.view info (n.getSep info) es e fs) : n.Separates info (n.getSep info) := by
  obtain ⟨hlt, hkey⟩ := fullKey_of_split hs.entries
  rw [← hs.slot] at hlt hkey
  refine ⟨hs.len.symm, ⟨_, rfl⟩, fun hleaf => ?_, fun hleaf => ⟨hlt, ?_⟩⟩
  · obtain ⟨f, gs, rfl, hsep, htrunc, -⟩ := hs.leaf hleaf
    have hsplit : n.entries = (es ++ [e]) ++ f :: gs := by simpa using hs.entries
    obtain ⟨hlt1, hkey1⟩ := fullKey_of_split hsplit
    rw [List.length_append, List.length_singleton, ← hs.slot] at hlt1 hkey1
    refine ⟨hlt1, ?_, ?_, ?_, ?_⟩
    · rw [hkey]
      exact hs.le
    · rw [hkey1]
      exact hsep
    · rw [hkey]
      exact hs.length_le.trans (Nat.le_max_left _ _)
    · rw [hkey1]
      exact htrunc
  · rw [hkey]
    exact hs.inner hleaf

/-- A truncated separator takes its bytes from a slot below the count. -/
lemma Separates.slot_lt {info : SeparatorInfo} {sep : Key} (h : n.Separates info sep)
    (htrunc : n.isLeaf = false → info.isTruncated = false) :
    info.slot + info.isTruncated.toNat < n.count := by
  have htoNat := info.isTruncated.toNat_le
  cases hleaf : n.isLeaf with
  | true =>
    have hlt := (h.leaf hleaf).1
    omega
  | false =>
    rw [htrunc hleaf]
    exact (h.inner hleaf).1

lemma isTruncated_inner {info : SeparatorInfo} {splitOrdered : Bool} (hleaf : n.isLeaf = false)
    (h : n.findSeparator splitOrdered = .ok info) : info.isTruncated = false := by
  simp only [findSeparator, isInner, hleaf, Bool.not_false, ite_true, bind, Except.bind, pure,
    Except.pure] at h
  split at h
  · cases h
  · rw [← Except.ok.inj h]

/-- On a page with two or more sorted keys, the choice of a separator reads only slots below the
count, and the separator lies between two neighbouring keys. -/
theorem separate_computes (hs : StrictSorted n.keys) (h : 1 < n.count) (splitOrdered : Bool) :
    ∃ info sep, n.Computes (CheckedRead.separate splitOrdered) (info, sep) ∧
      n.findSeparator splitOrdered = .ok info ∧ n.getSep info = sep ∧ n.Separates info sep := by
  obtain ⟨info, es, e, fs, hinfo, hsep, -⟩ := findSeparator_ok hs h splitOrdered
  have hchosen := separates hsep
  have hslot := hchosen.slot_lt (fun hleaf => isTruncated_inner hleaf hinfo)
  refine ⟨info, n.getSep info, ?_, hinfo, rfl, hchosen⟩
  exact (Computes.findSeparator h hinfo).bind ((Computes.getSep hslot).bind (Computes.ret _))

/-- A leaf with two keys that differ in their first byte. -/
def twoKeys : BTreeNode := build true noNeighbour [] []
  [(keyOf [1, 1, 1], keyOf [9]), (keyOf [2, 2, 2], keyOf [9])]

theorem twoKeys_separate : ∃ info sep,
    twoKeys.Computes (CheckedRead.separate false) (info, sep) ∧
      twoKeys.findSeparator false = .ok info ∧ twoKeys.getSep info = sep ∧
      twoKeys.Separates info sep := by
  have hn : twoKeys.Valid := by decide +kernel
  have hcount : 1 < twoKeys.count := by decide +kernel
  exact separate_computes hn.searchable.sorted hcount false

end BTreeNode

end MemSafeDB
