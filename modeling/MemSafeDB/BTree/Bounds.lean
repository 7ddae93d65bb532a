import MemSafeDB.BTree.Layout

/-!
# Where optimistic readers read

A reader without a latch sees arbitrary page images. Whatever the image, the binary search and
the copy of a payload read inside the page. The comparison with the prefix and the read of a
child pointer are guarded by checks that do not cover the bytes they read, so these two leave
the page on some images.
-/

namespace MemSafeDB
open Lib

namespace BTreeNode

/-- Every read of the program on this image lies in the page. Programs are finite trees, so a
program on an image always ends. -/
def ReadsInPage {α : Type} (n : BTreeNode) (p : PageRead α) : Prop :=
  Program.Performs (S := pageSignature) n.fetch Loc.InPage p

/-- Every location that the program reads on this image satisfies `P`. -/
def ReadsOnly {α : Type} (n : BTreeNode) (P : Loc → Prop) (p : PageRead α) : Prop :=
  Program.Performs (S := pageSignature) n.fetch P p

/-- `slotInPage` -/
def SlotInPage (n : BTreeNode) (i : Nat) : Prop :=
  headerSize ≤ (n.slot i).offset ∧ (n.slot i).stop ≤ pageSize

instance (n : BTreeNode) (i : Nat) : Decidable (n.SlotInPage i) := by
  unfold SlotInPage
  infer_instance

variable {n : BTreeNode} {P : Loc → Prop}

@[simp] lemma readsOnly_ret {α : Type} (a : α) : n.ReadsOnly P (Program.ret a : PageRead α) := trivial

@[simp] lemma readsOnly_restart {α : Type} : n.ReadsOnly P (PageRead.restart : PageRead α) := trivial

@[simp] lemma readsOnly_bind {α β : Type} (p : PageRead α) (f : α → PageRead β) :
    n.ReadsOnly P (Program.bind p f) ↔ n.ReadsOnly P p ∧ ∀ a, n.read p = .ok a → n.ReadsOnly P (f a) :=
  Program.performs_bind (S := pageSignature) n.fetch P p f

@[simp] lemma readsOnly_fetch (l : Loc) : n.ReadsOnly P (PageRead.fetch l) ↔ P l := and_iff_left trivial

lemma readsOnly_fetchBytes (len off : Nat) : n.ReadsOnly P (PageRead.fetchBytes len off) ↔
    ∀ a, off ≤ a → a < off + len → P (.byte a) := by
  induction len generalizing off with
  | zero =>
    simp only [PageRead.fetchBytes, Program.pure_eq, readsOnly_ret, true_iff]
    omega
  | succ len ih =>
    simp only [PageRead.fetchBytes, Program.bind_eq, Program.pure_eq, readsOnly_bind, readsOnly_fetch,
      read_fetch, ih, readsOnly_ret, implies_true, and_true, Except.ok.injEq, forall_eq']
    constructor
    · rintro ⟨h0, h⟩ a hle hlt
      rcases Nat.eq_or_lt_of_le hle with rfl | hgt
      · exact h0
      · exact h a hgt (by omega)
    · intro h
      exact ⟨h off le_rfl (by omega), fun a hle hlt => h a (by omega) (by omega)⟩

lemma readsInPage_iff {α : Type} (p : PageRead α) : n.ReadsInPage p ↔ n.ReadsOnly Loc.InPage p :=
  Iff.rfl

@[simp] lemma readsInPage_ret {α : Type} (a : α) :
    n.ReadsInPage (Program.ret a : PageRead α) := trivial

@[simp] lemma readsInPage_restart {α : Type} : n.ReadsInPage (PageRead.restart : PageRead α) :=
  trivial

@[simp] lemma readsInPage_bind {α β : Type} (p : PageRead α) (f : α → PageRead β) :
    n.ReadsInPage (Program.bind p f) ↔
      n.ReadsInPage p ∧ ∀ a, n.read p = .ok a → n.ReadsInPage (f a) :=
  Program.performs_bind (S := pageSignature) n.fetch Loc.InPage p f

@[simp] lemma readsInPage_fetch (l : Loc) : n.ReadsInPage (PageRead.fetch l) ↔ l.InPage :=
  and_iff_left trivial

lemma inPage_byte {a : Nat} : (Loc.byte a).InPage ↔ a < pageSize := by
  simp only [Loc.InPage, Loc.start, Loc.width]
  omega

lemma readsInPage_fetchBytes (len off : Nat) :
    n.ReadsInPage (PageRead.fetchBytes len off) ↔ len = 0 ∨ off + len ≤ pageSize := by
  simp only [readsInPage_iff, readsOnly_fetchBytes, inPage_byte]
  constructor
  · intro h
    by_contra hc
    have hlast := h (off + len - 1) (by omega) (by omega)
    omega
  · intro h a hle hlt
    omega

lemma inPage_slot {i : Nat} (hi : i < maxSlots) : (Loc.slotOffset i).InPage ∧
    (Loc.slotKeyLen i).InPage ∧ (Loc.slotPayloadLen i).InPage ∧ (Loc.slotHead i).InPage := by
  change i < 399 at hi
  simp only [Loc.InPage, Loc.start, Loc.width, slotPos_eq, pageSize]
  omega

lemma inPage_header : Loc.link.InPage ∧ Loc.lowerOffset.InPage ∧ Loc.lowerLen.InPage ∧
    Loc.count.InPage ∧ Loc.prefixLen.InPage := by
  decide

lemma read_checkSlotOrRestart_eq (i : Nat) : n.read (PageRead.checkSlotOrRestart i) =
    if n.SlotInPage i then .ok () else .error .exception := by
  by_cases h : n.SlotInPage i
  · rw [if_pos h]
    exact read_checkSlotOrRestart h
  · have h' : ¬(headerSize ≤ (n.slot i).offset ∧
        (n.slot i).offset + (n.slot i).keyLen + (n.slot i).payloadLen ≤ pageSize) := h
    rw [if_neg h]
    simp only [PageRead.checkSlotOrRestart, PageRead.slotInPage, Program.bind_eq, Program.pure_eq,
      read_bind, read_fetch, except_bind_ok, read_ret, fetch, h', decide_false,
      Bool.false_eq_true, ite_false, read_restart]

/-- `P` allows a search to read the header and the hints. -/
structure AllowsHeader (P : Loc → Prop) : Prop where
  lowerOffset : P .lowerOffset
  lowerLen : P .lowerLen
  count : P .count
  prefixLen : P .prefixLen
  hint : ∀ i, i < hintCount → P (.hint i)

/-- `P` allows a search to read the first `c` slots, and the keys of those that lie in the page. -/
structure AllowsSlots (n : BTreeNode) (P : Loc → Prop) (c : Nat) : Prop where
  slot : ∀ i, i < c → P (.slotOffset i) ∧ P (.slotKeyLen i) ∧ P (.slotPayloadLen i) ∧ P (.slotHead i)
  key : ∀ i, i < c → n.SlotInPage i → ∀ a, (n.slot i).offset ≤ a →
    a < (n.slot i).offset + (n.slot i).keyLen → P (.byte a)

lemma allowsHeader_inPage : AllowsHeader Loc.InPage where
  lowerOffset := inPage_header.2.1
  lowerLen := inPage_header.2.2.1
  count := inPage_header.2.2.2.1
  prefixLen := inPage_header.2.2.2.2
  hint i hi := by
    change i < 16 at hi
    simp only [Loc.InPage, Loc.start, Loc.width, pageSize]
    omega

lemma allowsSlots_inPage {c : Nat} (hc : c ≤ maxSlots) : n.AllowsSlots Loc.InPage c where
  slot i hi := inPage_slot (hi.trans_le hc)
  key i hi hin a hle hlt := by
    have hstop := hin.2
    simp only [Slot.stop] at hstop
    exact inPage_byte.mpr (by omega)

lemma AllowsSlots.readsOnly_checkSlotOrRestart {c i : Nat} (hP : n.AllowsSlots P c) (hi : i < c) :
    n.ReadsOnly P (PageRead.checkSlotOrRestart i) := by
  obtain ⟨h1, h2, h3, -⟩ := hP.slot i hi
  simp only [PageRead.checkSlotOrRestart, PageRead.slotInPage, Program.bind_eq, Program.pure_eq,
    readsOnly_bind, readsOnly_fetch, h1, h2, h3, readsOnly_ret, implies_true, and_true, true_and]
  intro a _
  split <;> trivial

lemma readsInPage_checkSlotOrRestart {i : Nat} (hi : i < maxSlots) :
    n.ReadsInPage (PageRead.checkSlotOrRestart i) :=
  (allowsSlots_inPage le_rfl).readsOnly_checkSlotOrRestart hi

/-! ## The search -/

/-- What holds of a search result on any image: the slot id is bounded, and a slot that was found
lies in the page. -/
def GoodResult (n : BTreeNode) (r : Nat × Bool) : Prop :=
  r.1 ≤ maxSlots ∧ (r.2 = true → r.1 < maxSlots ∧ n.SlotInPage r.1)

/-- A result that a search over the first `c` slots may report. -/
def Within (n : BTreeNode) (c : Nat) (r : Nat × Bool) : Prop :=
  r.1 ≤ c ∧ (r.2 = true → r.1 < c ∧ n.SlotInPage r.1)

lemma Within.goodResult {c : Nat} {r : Nat × Bool} (h : n.Within c r) (hc : c ≤ maxSlots) :
    n.GoodResult r :=
  ⟨h.1.trans hc, fun hf => ⟨(h.2 hf).1.trans_le hc, (h.2 hf).2⟩⟩

/-- What a search over the first `c` slots does on any image: it reads allowed locations, its
result is bounded, and it throws only if one of the slots does not lie in the page. -/
structure SearchesWithin (n : BTreeNode) (P : Loc → Prop) (c : Nat) (p : PageRead (Nat × Bool)) :
    Prop where
  reads : n.ReadsOnly P p
  within : ∀ r, n.read p = .ok r → n.Within c r
  total : (∀ i, i < c → n.SlotInPage i) → ∃ r, n.read p = .ok r

lemma searchesWithin_ret {c : Nat} {r : Nat × Bool} (h : n.Within c r) :
    n.SearchesWithin P c (Program.ret r : PageRead (Nat × Bool)) := by
  refine ⟨readsOnly_ret r, fun r' hr => ?_, fun _ => ⟨r, rfl⟩⟩
  rw [read_ret, Except.ok.injEq] at hr
  exact hr ▸ h

/-- ReadsOnly that always end with one value do not change what a search does. -/
lemma searchesWithin_bind {c : Nat} {α : Type} {p : PageRead α} {a : α}
    {f : α → PageRead (Nat × Bool)} (hp : n.ReadsOnly P p) (ha : n.read p = .ok a)
    (hf : n.SearchesWithin P c (f a)) : n.SearchesWithin P c (Program.bind p f) := by
  have hread : n.read (Program.bind p f) = n.read (f a) := by
    rw [read_bind, ha, except_bind_ok]
  refine ⟨?_, ?_, ?_⟩
  · rw [readsOnly_bind]
    refine ⟨hp, fun b hb => ?_⟩
    rw [ha, Except.ok.injEq] at hb
    exact hb ▸ hf.reads
  · rw [hread]
    exact hf.within
  · rw [hread]
    exact hf.total

lemma searchesWithin_fetch {c : Nat} {l : Loc} {f : Nat → PageRead (Nat × Bool)} (hl : P l)
    (hf : n.SearchesWithin P c (f (n.fetch l))) :
    n.SearchesWithin P c (Program.bind (PageRead.fetch l) f) :=
  searchesWithin_bind ((readsOnly_fetch l).mpr hl) (read_fetch n l) hf

lemma AllowsSlots.searchSlots {c : Nat} (hP : n.AllowsSlots P c) (key : Key) (keyHead : Nat)
    {lower upper : Nat} (hl : lower ≤ c) (hu : upper ≤ c) :
    n.SearchesWithin P c (PageRead.searchSlots key keyHead lower upper) := by
  induction hd : upper - lower using Nat.strong_induction_on generalizing lower upper with
  | _ d ih =>
  rw [PageRead.searchSlots]
  by_cases hlu : lower < upper
  · have hmid : (upper - lower) / 2 + lower < upper := by omega
    have hlow : lower ≤ (upper - lower) / 2 + lower := by omega
    generalize (upper - lower) / 2 + lower = mid at hmid hlow
    have hmc : mid < c := by omega
    have hleft := ih (mid - lower) (by omega) hl hmc.le rfl
    have hright := ih (upper - (mid + 1)) (by omega) (show mid + 1 ≤ c by omega) hu rfl
    obtain ⟨h1, h2, -, h4⟩ := hP.slot mid hmc
    simp only [hlu, dite_true, Program.bind_eq]
    refine searchesWithin_fetch h4 ?_
    by_cases c1 : keyHead < n.fetch (.slotHead mid)
    · rw [if_pos c1]
      exact hleft
    rw [if_neg c1]
    refine searchesWithin_fetch h4 ?_
    by_cases c2 : n.fetch (.slotHead mid) < keyHead
    · rw [if_pos c2]
      exact hright
    rw [if_neg c2]
    have hcheck := hP.readsOnly_checkSlotOrRestart hmc
    have hread := read_checkSlotOrRestart_eq (n := n) mid
    by_cases hin : n.SlotInPage mid
    · rw [if_pos hin] at hread
      refine searchesWithin_bind hcheck hread ?_
      refine searchesWithin_fetch h2 (searchesWithin_fetch h1 ?_)
      have hbytes := (readsOnly_fetchBytes (n := n) (P := P)
        (min key.length (n.slot mid).keyLen) (n.slot mid).offset).mpr
          (fun a hle hlt => hP.key mid hmc hin a hle (by omega))
      refine searchesWithin_bind hbytes (read_fetchBytes n _ _) ?_
      dsimp only [fetch]
      cases memcmp key (n.bytes.read (n.slot mid).offset (min key.length (n.slot mid).keyLen)) with
      | lt => exact hleft
      | gt => exact hright
      | eq =>
        refine searchesWithin_fetch h2 ?_
        by_cases c3 : key.length < n.fetch (.slotKeyLen mid)
        · rw [if_pos c3]
          exact hleft
        rw [if_neg c3]
        refine searchesWithin_fetch h2 ?_
        by_cases c4 : n.fetch (.slotKeyLen mid) < key.length
        · rw [if_pos c4]
          exact hright
        rw [if_neg c4]
        exact searchesWithin_ret ⟨hmc.le, fun _ => ⟨hmc, hin⟩⟩
    · -- the check throws
      rw [if_neg hin] at hread
      refine ⟨?_, ?_, fun hall => absurd (hall mid hmc) hin⟩
      · rw [readsOnly_bind, hread]
        exact ⟨hcheck, fun a ha => by cases ha⟩
      · rw [read_bind, hread, except_bind_error]
        exact fun r hr => by cases hr
  · simp only [hlu, dite_false, Program.pure_eq]
    exact searchesWithin_ret ⟨hl, fun h => by cases h⟩

lemma AllowsHeader.readsOnly_firstHint (hP : AllowsHeader P) (stop : Nat → Bool) (left pos : Nat)
    (h : pos + left ≤ hintCount) : n.ReadsOnly P (PageRead.firstHint stop left pos) := by
  induction left generalizing pos with
  | zero => exact readsOnly_ret _
  | succ left ih =>
    have hin := hP.hint pos (by omega)
    simp only [PageRead.firstHint, Program.bind_eq, readsOnly_bind, readsOnly_fetch, hin, true_and]
    intro a _
    split
    · exact readsOnly_ret _
    · exact ih (pos + 1) (by omega)

/-- The hints leave a range of the slots. -/
lemma AllowsHeader.searchHint (hP : AllowsHeader P) (keyHead c : Nat) :
    n.ReadsOnly P (PageRead.searchHint keyHead 0 c) ∧
      ∃ lo up, n.read (PageRead.searchHint keyHead 0 c) = .ok (lo, up) ∧ lo ≤ c ∧ up ≤ c := by
  simp only [PageRead.searchHint, Program.bind_eq, readsOnly_bind, readsOnly_fetch, hP.count, true_and,
    read_bind, read_fetch, except_bind_ok, fetch, Except.ok.injEq, forall_eq']
  by_cases hc : hintCount * 2 < n.count
  · obtain ⟨p, hp, -, h2, -, -⟩ := read_firstHint n (fun h => decide (keyHead ≤ h)) hintCount 0
    obtain ⟨q, hq, g1, g2, -, -⟩ :=
      read_firstHint n (fun h => decide (h ≠ keyHead)) (hintCount - p) p
    have r1 := hP.readsOnly_firstHint (n := n) (fun h => decide (keyHead ≤ h)) hintCount 0 (by omega)
    have r2 := hP.readsOnly_firstHint (n := n) (fun h => decide (h ≠ keyHead)) (hintCount - p) p
      (by omega)
    simp only [hc, ite_true, readsOnly_bind, r1, hp, r2, hq, read_bind, except_bind_ok, true_and,
      Except.ok.injEq, forall_eq', Program.pure_eq, readsOnly_ret, read_ret]
    refine ⟨_, _, rfl, ?_⟩
    change p ≤ 0 + 16 at h2
    change p * (c / 17) ≤ c ∧ (if q < 16 then (q + 1) * (c / 17) else c) ≤ c
    have hp1 : p * (c / 17) ≤ 16 * (c / 17) := Nat.mul_le_mul_right _ (by omega)
    refine ⟨by omega, ?_⟩
    split
    · have hq1 : (q + 1) * (c / 17) ≤ 16 * (c / 17) := Nat.mul_le_mul_right _ (by omega)
      omega
    · exact le_rfl
  · simp only [hc, ite_false, Program.pure_eq, readsOnly_ret, read_ret, true_and]
    exact ⟨0, c, rfl, Nat.zero_le _, le_rfl⟩

lemma read_safeCount_eq : n.read PageRead.safeCount = .ok (min n.count maxSlots) := by
  simp only [PageRead.safeCount, Program.bind_eq, Program.pure_eq, read_bind, read_fetch,
    except_bind_ok, read_ret, fetch]
  congr 1
  split <;> omega

lemma AllowsHeader.readsOnly_safeCount (hP : AllowsHeader P) : n.ReadsOnly P PageRead.safeCount := by
  simp only [PageRead.safeCount, Program.bind_eq, Program.pure_eq, readsOnly_bind, readsOnly_fetch,
    hP.count, readsOnly_ret, implies_true, and_self]

lemma readsInPage_safeCount : n.ReadsInPage PageRead.safeCount :=
  allowsHeader_inPage.readsOnly_safeCount

lemma AllowsHeader.readsOnly_lowerFenceInPage (hP : AllowsHeader P) :
    n.ReadsOnly P PageRead.lowerFenceInPage := by
  simp only [PageRead.lowerFenceInPage, Program.bind_eq, Program.pure_eq, readsOnly_bind, readsOnly_fetch,
    hP.lowerOffset, hP.lowerLen, readsOnly_ret, implies_true, and_self]

/-- `P` allows the search for the key to read the bytes that it compares with the prefix. -/
def AllowsPrefix (n : BTreeNode) (P : Loc → Prop) (key : Key) : Prop :=
  ∀ a, n.lowerFence.offset ≤ a → a < n.lowerFence.offset + min key.length n.prefixLen → P (.byte a)

/-! ## The prefix -/

/-- The bytes of the lower fence are in the page, but those compared with the prefix are not. -/
def PrefixLeavesPage (n : BTreeNode) (key : Key) : Prop :=
  n.lowerFence.offset + n.lowerFence.len ≤ pageSize ∧
    pageSize < n.lowerFence.offset + min key.length n.prefixLen

instance (n : BTreeNode) (key : Key) : Decidable (n.PrefixLeavesPage key) := by
  unfold PrefixLeavesPage
  infer_instance

lemma AllowsHeader.lowerBound (hP : AllowsHeader P) (hS : n.AllowsSlots P (min n.count maxSlots))
    {key : Key} (hpre : n.AllowsPrefix P key)
    (hf : n.lowerFence.offset + n.lowerFence.len ≤ pageSize) :
    n.SearchesWithin P (min n.count maxSlots) (PageRead.lowerBound key) := by
  have hfence : n.read PageRead.lowerFenceInPage = .ok true := by
    rw [read_lowerFenceInPage, decide_eq_true hf]
  have hzero : n.Within (min n.count maxSlots) (0, false) := ⟨Nat.zero_le _, fun h => by cases h⟩
  refine searchesWithin_bind hP.readsOnly_lowerFenceInPage hfence ?_
  refine searchesWithin_fetch hP.lowerOffset (searchesWithin_fetch hP.prefixLen ?_)
  refine searchesWithin_bind ((readsOnly_fetchBytes _ _).mpr hpre) (read_fetchBytes n _ _) ?_
  dsimp only [fetch]
  cases memcmp key (n.bytes.read n.lowerFence.offset (min key.length n.prefixLen)) with
  | lt => exact searchesWithin_ret hzero
  | gt =>
    refine searchesWithin_bind hP.readsOnly_safeCount read_safeCount_eq (searchesWithin_ret ?_)
    exact ⟨le_rfl, fun h => by cases h⟩
  | eq =>
    refine searchesWithin_fetch hP.prefixLen ?_
    by_cases hlt : key.length < n.prefixLen
    · rw [fetch, if_pos hlt]
      exact searchesWithin_ret hzero
    rw [fetch, if_neg hlt]
    refine searchesWithin_fetch hP.prefixLen ?_
    refine searchesWithin_bind hP.readsOnly_safeCount read_safeCount_eq ?_
    obtain ⟨hreads, lo, up, hread, hlo, hup⟩ :=
      hP.searchHint (n := n) (head (key.drop n.prefixLen)) (min n.count maxSlots)
    exact searchesWithin_bind hreads hread (hS.searchSlots _ _ hlo hup)

lemma AllowsHeader.readsOnly_lowerBound_iff (hP : AllowsHeader P)
    (hS : n.AllowsSlots P (min n.count maxSlots)) (key : Key) :
    n.ReadsOnly P (PageRead.lowerBound key) ↔
      (n.lowerFence.offset + n.lowerFence.len ≤ pageSize → n.AllowsPrefix P key) := by
  by_cases hf : n.lowerFence.offset + n.lowerFence.len ≤ pageSize
  · constructor
    · intro h _
      simp only [PageRead.lowerBound, Program.bind_eq, readsOnly_bind, read_lowerFenceInPage,
        Except.ok.injEq, forall_eq', hf, decide_true, ite_true, read_fetch, fetch] at h
      exact (readsOnly_fetchBytes _ _).mp h.2.2.2.1
    · intro h
      exact (hP.lowerBound hS (h hf) hf).reads
  · simp only [PageRead.lowerBound, Program.bind_eq, readsOnly_bind, hP.readsOnly_lowerFenceInPage,
      read_lowerFenceInPage, Except.ok.injEq, forall_eq', hf, decide_false, Bool.false_eq_true,
      ite_false, readsOnly_restart, false_implies, and_self]

/-- On any image, the search reports a slot id within the count. -/
lemma lowerBound_within {key : Key} {r : Nat × Bool}
    (hr : n.read (PageRead.lowerBound key) = .ok r) : n.Within (min n.count maxSlots) r := by
  have hall : AllowsHeader (fun _ => True) := ⟨trivial, trivial, trivial, trivial, fun _ _ => trivial⟩
  by_cases hf : n.lowerFence.offset + n.lowerFence.len ≤ pageSize
  · refine (hall.lowerBound ⟨fun _ _ => ⟨trivial, trivial, trivial, trivial⟩, ?_⟩ ?_ hf).within r hr
    · exact fun _ _ _ _ _ _ => trivial
    · exact fun _ _ _ => trivial
  · simp only [PageRead.lowerBound, Program.bind_eq, read_bind, read_lowerFenceInPage, hf,
      decide_false, except_bind_ok, Bool.false_eq_true, ite_false, read_restart, reduceCtorEq] at hr

/-- A search throws only if the lower fence or a slot does not lie in the page. -/
lemma lowerBound_total (key : Key) (hf : n.lowerFence.offset + n.lowerFence.len ≤ pageSize)
    (hslots : ∀ i, i < min n.count maxSlots → n.SlotInPage i) :
    ∃ r, n.read (PageRead.lowerBound key) = .ok r := by
  have hall : AllowsHeader (fun _ => True) := ⟨trivial, trivial, trivial, trivial, fun _ _ => trivial⟩
  refine (hall.lowerBound (n := n) ⟨fun _ _ => ⟨trivial, trivial, trivial, trivial⟩, ?_⟩
    ?_ hf).total hslots
  · exact fun _ _ _ _ _ _ => trivial
  · exact fun _ _ _ => trivial

/-- The search leaves the page exactly in the comparison with the prefix, and its result is
bounded on every image. -/
theorem readsInPage_lowerBound (n : BTreeNode) (key : Key) :
    (n.ReadsInPage (PageRead.lowerBound key) ↔ ¬n.PrefixLeavesPage key) ∧
      ∀ r, n.read (PageRead.lowerBound key) = .ok r → n.GoodResult r := by
  have hslots : n.AllowsSlots Loc.InPage (min n.count maxSlots) :=
    allowsSlots_inPage (Nat.min_le_right _ _)
  constructor
  · rw [readsInPage_iff, allowsHeader_inPage.readsOnly_lowerBound_iff hslots]
    simp only [AllowsPrefix, inPage_byte, PrefixLeavesPage]
    constructor
    · rintro h ⟨hf, hgt⟩
      have hlast := h hf (n.lowerFence.offset + min key.length n.prefixLen - 1) (by omega) (by omega)
      omega
    · intro h hf a hle hlt
      omega
  · intro r hr
    exact (lowerBound_within hr).goodResult (Nat.min_le_right _ _)

/-! ## Child pointers and payloads -/

/-- The search ends at a slot that passes its check, but the eight bytes of the child pointer
behind its key do not lie in the page. -/
def ChildLeavesPage (n : BTreeNode) (key : Key) : Prop :=
  ∃ pos found, n.read (PageRead.lowerBound key) = .ok (pos, found) ∧ pos < min n.count maxSlots ∧
    n.SlotInPage pos ∧ pageSize < n.payloadOffset pos + 8

theorem readsInPage_lookupInner (n : BTreeNode) (key : Key) :
    n.ReadsInPage (PageRead.lookupInner key) ↔
      ¬n.PrefixLeavesPage key ∧ ¬n.ChildLeavesPage key := by
  obtain ⟨hlb, hgood⟩ := n.readsInPage_lowerBound key
  simp only [PageRead.lookupInner, Program.bind_eq, readsInPage_bind, hlb]
  refine and_congr_right (fun _ => ?_)
  cases hr : n.read (PageRead.lowerBound key) with
  | error e => simp [ChildLeavesPage, hr]
  | ok r =>
    obtain ⟨pos, found⟩ := r
    simp only [Except.ok.injEq, forall_eq', readsInPage_safeCount, read_safeCount_eq, true_and]
    by_cases hc : min n.count maxSlots ≤ pos
    · simp only [hc, ite_true, readsInPage_fetch, inPage_header.1, true_iff]
      rintro ⟨p, f, heq, hlt, -⟩
      rw [hr, Except.ok.injEq, Prod.mk.injEq] at heq
      omega
    · have hpos : pos < maxSlots := by omega
      obtain ⟨h1, h2, -, -⟩ := inPage_slot hpos
      simp only [hc, ite_false, readsInPage_bind, readsInPage_checkSlotOrRestart hpos, true_and,
        read_checkSlotOrRestart_eq]
      by_cases hin : n.SlotInPage pos
      · simp only [hin, ite_true, forall_const, PageRead.getChild, Program.bind_eq,
          Program.pure_eq, readsInPage_bind, readsInPage_fetch, h1, h2, true_and, read_fetch, fetch,
          Except.ok.injEq, forall_eq', readsInPage_fetchBytes, readsInPage_ret, implies_true,
          and_true, Nat.reduceEqDiff, false_or]
        constructor
        · rintro hle ⟨p, f, heq, -, -, hgt⟩
          rw [hr, Except.ok.injEq, Prod.mk.injEq] at heq
          obtain ⟨rfl, rfl⟩ := heq
          simp only [payloadOffset] at hgt
          omega
        · intro hno
          by_contra hgt
          exact hno ⟨pos, found, hr, by omega, hin, by simp only [payloadOffset]; omega⟩
      · simp only [hin, ite_false, reduceCtorEq, false_implies, implies_true, true_iff]
        rintro ⟨p, f, heq, -, hin', -⟩
        rw [hr, Except.ok.injEq, Prod.mk.injEq] at heq
        exact hin (heq.1 ▸ hin')

/-- The payload of a slot that was found is copied from inside the page. -/
theorem readsInPage_copyPayload {key : Key} {pos : Nat}
    (h : n.read (PageRead.lowerBound key) = .ok (pos, true)) (payloadOutSize : Nat) :
    n.ReadsInPage (PageRead.copyPayload pos payloadOutSize) := by
  obtain ⟨hlt, hin⟩ := ((n.readsInPage_lowerBound key).2 _ h).2 rfl
  obtain ⟨h1, h2, h3, -⟩ := inPage_slot hlt
  have hbytes : min (n.slot pos).payloadLen payloadOutSize = 0 ∨
      (n.slot pos).offset + (n.slot pos).keyLen + min (n.slot pos).payloadLen payloadOutSize ≤
        pageSize := by
    have hstop := hin.2
    simp only [Slot.stop] at hstop
    omega
  simp only [PageRead.copyPayload, Program.bind_eq, Program.pure_eq, readsInPage_bind,
    readsInPage_fetch, h1, h2, h3, true_and, read_fetch, fetch, Except.ok.injEq, forall_eq',
    readsInPage_fetchBytes, hbytes, readsInPage_ret, implies_true, and_true]

/-! ## All readers together -/

/-- The readers stay inside the page, and the search reports a slot id within the slot array. -/
structure ReadersInPage (n : BTreeNode) (key : Key) (payloadOutSize : Nat) : Prop where
  lowerBound : n.ReadsInPage (PageRead.lowerBound key)
  lookupInner : n.ReadsInPage (PageRead.lookupInner key)
  payload : ∀ pos, n.read (PageRead.lowerBound key) = .ok (pos, true) →
    n.ReadsInPage (PageRead.copyPayload pos payloadOutSize)
  slotId : ∀ r, n.read (PageRead.lowerBound key) = .ok r → r.1 ≤ maxSlots

/-- The readers stay inside the page exactly when the comparison with the prefix and the read of
the child pointer do. -/
theorem readersInPage_iff (n : BTreeNode) (key : Key) (payloadOutSize : Nat) :
    n.ReadersInPage key payloadOutSize ↔ ¬n.PrefixLeavesPage key ∧ ¬n.ChildLeavesPage key := by
  obtain ⟨hlb, hgood⟩ := n.readsInPage_lowerBound key
  constructor
  · intro h
    exact (n.readsInPage_lookupInner key).mp h.lookupInner
  · intro h
    exact ⟨hlb.mpr h.1, (n.readsInPage_lookupInner key).mpr h,
      fun pos hp => readsInPage_copyPayload hp payloadOutSize, fun r hr => (hgood r hr).1⟩

/-- A page image whose empty lower fence ends with the page, with a longer prefix. -/
def tornPrefix : BTreeNode :=
  { new true with lowerFence := ⟨4096, 0⟩, prefixLen := 2 }

/-- The comparison with the prefix leaves the page, and no exception is thrown. -/
theorem tornPrefix_leaves_page : tornPrefix.read (PageRead.lowerBound [0]) = .ok (0, false) ∧
    ¬∀ (n : BTreeNode) (key : Key) (payloadOutSize : Nat), key.length ≤ maxKVSize →
      n.ReadersInPage key payloadOutSize := by
  refine ⟨by decide, fun h => ?_⟩
  have hin := h tornPrefix [0] 0 (by decide)
  exact ((readersInPage_iff _ _ _).mp hin).1 (by decide)

end BTreeNode

end MemSafeDB
