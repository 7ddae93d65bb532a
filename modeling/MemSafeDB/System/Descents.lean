import MemSafeDB.BTree.Bounds
import MemSafeDB.System.Operations

/-!
# Two ways down

`remove` chooses the next page itself and keeps the slot, where the other operations call
`lookupInner`. On a page at rest both choose the same child. On a torn page `lookupInner` bounds
the count and checks the slot, and `remove` does neither.
-/

namespace MemSafeDB
open Lib

/-- A location of the header, of the slot array or of the bytes behind it. -/
def Loc.Bounded : Loc → Prop
  | .hint i => i < hintCount
  | .slotOffset i => i < maxSlots
  | .slotKeyLen i => i < maxSlots
  | .slotPayloadLen i => i < maxSlots
  | .slotHead i => i < maxSlots
  | _ => True

namespace BTreeNode

/-- The program does not read the location on this image. -/
def Avoids {α : Type} (n : BTreeNode) (p : PageRead α) (l : Loc) : Prop :=
  Program.Performs (S := pageSignature) n.fetch (· ≠ l) p

variable {n : BTreeNode}

/-- On any image, the search reads bounded locations. -/
lemma readsOnly_bounded_lowerBound (n : BTreeNode) (key : Key) :
    n.ReadsOnly Loc.Bounded (PageRead.lowerBound key) := by
  have hheader : AllowsHeader Loc.Bounded := ⟨trivial, trivial, trivial, trivial, fun _ hi => hi⟩
  refine (hheader.readsOnly_lowerBound_iff ⟨fun i hi => ?_, fun _ _ _ _ _ _ => trivial⟩ key).mpr
    (fun _ _ _ _ => trivial)
  have hmax : i < maxSlots := hi.trans_le (Nat.min_le_right _ _)
  exact ⟨hmax, hmax, hmax, hmax⟩

/-! ## The child -/

/-- What `lookupInner` does with the result of the search. -/
def childOf (n : BTreeNode) (r : Nat × Bool) : Except OLCRestart PID :=
  if min n.count maxSlots ≤ r.1 then .ok n.link
  else if n.SlotInPage r.1 then .ok (n.getChild r.1)
  else .error .exception

/-- What `remove` does with it. -/
def removeChildOf (n : BTreeNode) (r : Nat × Bool) : PID :=
  if r.1 = n.count then n.link else n.getChild r.1

lemma read_getChild (n : BTreeNode) (i : Nat) :
    n.read (PageRead.getChild i) = .ok (n.getChild i) := by
  simp only [PageRead.getChild, Program.bind_eq, Program.pure_eq, read_bind, read_fetch,
    except_bind_ok, read_fetchBytes, read_ret, fetch, getChild, payloadOffset]

lemma read_lookupInner_eq (n : BTreeNode) (key : Key) :
    n.read (PageRead.lookupInner key) = (n.read (PageRead.lowerBound key)).bind n.childOf := by
  simp only [PageRead.lookupInner, Program.bind_eq, read_bind]
  congr 1
  funext r
  simp only [read_safeCount_eq, except_bind_ok, childOf]
  by_cases hc : min n.count maxSlots ≤ r.1
  · simp only [hc, ite_true, read_fetch, fetch]
  · by_cases hin : n.SlotInPage r.1
    · simp only [hc, ite_false, read_bind, read_checkSlotOrRestart_eq, hin, ite_true,
        except_bind_ok, read_getChild]
    · simp only [hc, ite_false, read_bind, read_checkSlotOrRestart_eq, hin, except_bind_error]

lemma read_removeChild_eq (n : BTreeNode) (key : Key) :
    n.read (PageRead.removeChild key) =
      (n.read (PageRead.lowerBound key)).bind (fun r => .ok (r.1, n.removeChildOf r)) := by
  simp only [PageRead.removeChild, Program.bind_eq, Program.pure_eq, read_bind]
  congr 1
  funext r
  simp only [read_fetch, except_bind_ok, fetch, removeChildOf]
  by_cases hc : r.1 = n.count
  · simp only [hc, ite_true, read_bind, read_fetch, except_bind_ok, fetch, read_ret]
  · simp only [hc, ite_false, read_bind, read_getChild, except_bind_ok, read_ret]

/-! ## Locations that are not read -/

@[simp] lemma avoids_ret {α : Type} (a : α) (l : Loc) :
    n.Avoids (Program.ret a : PageRead α) l := trivial

@[simp] lemma avoids_bind {α β : Type} (p : PageRead α) (f : α → PageRead β) (l : Loc) :
    n.Avoids (Program.bind p f) l ↔
      n.Avoids p l ∧ ∀ a, n.read p = .ok a → n.Avoids (f a) l :=
  Program.performs_bind (S := pageSignature) n.fetch (· ≠ l) p f

@[simp] lemma avoids_fetch (l m : Loc) : n.Avoids (PageRead.fetch m) l ↔ m ≠ l :=
  and_iff_left trivial

lemma ReadsOnly.avoids {α : Type} {P : Loc → Prop} {p : PageRead α} (h : n.ReadsOnly P p) {l : Loc}
    (hl : ¬P l) : n.Avoids p l := by
  refine Program.Performs.imp (S := pageSignature) (fun m hm => ?_) h
  rintro rfl
  exact hl hm

/-- Where the two descents end alike: the search throws, or it ends at the count, or at a slot
that passes both checks of `lookupInner`. -/
def SearchStaysInPage (n : BTreeNode) (key : Key) : Prop :=
  ∀ r, n.read (PageRead.lowerBound key) = .ok r →
    r.1 = n.count ∨ (r.1 < min n.count maxSlots ∧ n.SlotInPage r.1)

/-- `remove` goes on with the child that `lookupInner` selects and throws when it does, and it
reads no location outside the page that `lookupInner` does not read. -/
structure DescentsAgree (n : BTreeNode) (key : Key) : Prop where
  child : (n.read (PageRead.removeChild key)).map Prod.snd = n.read (PageRead.lookupInner key)
  bytes : ∀ l : Loc, ¬l.InPage → n.Avoids (PageRead.lookupInner key) l →
    n.Avoids (PageRead.removeChild key) l

lemma childOf_eq {r : Nat × Bool}
    (h : r.1 = n.count ∨ (r.1 < min n.count maxSlots ∧ n.SlotInPage r.1)) :
    n.childOf r = .ok (n.removeChildOf r) := by
  unfold childOf removeChildOf
  rcases h with heq | ⟨hlt, hin⟩
  · rw [if_pos heq, if_pos (by omega)]
  · rw [if_neg (by omega), if_pos hin, if_neg (by omega)]

lemma childOf_error {r : Nat × Bool} (hlt : r.1 < min n.count maxSlots) (hin : ¬n.SlotInPage r.1) :
    n.childOf r = .error .exception := by
  unfold childOf
  rw [if_neg (by omega), if_neg hin]

/-- The slot behind the slot array lies partly behind the page. -/
lemma not_inPage_maxSlots : ¬(Loc.slotKeyLen maxSlots).InPage := by decide

lemma readsOnly_bounded_lookupInner {key : Key} {r : Nat × Bool}
    (hr : n.read (PageRead.lowerBound key) = .ok r) (hmax : maxSlots ≤ r.1) :
    n.ReadsOnly Loc.Bounded (PageRead.lookupInner key) := by
  have hsafe : n.ReadsOnly Loc.Bounded PageRead.safeCount := by
    simp only [PageRead.safeCount, Program.bind_eq, Program.pure_eq, readsOnly_bind, readsOnly_fetch,
      Loc.Bounded, readsOnly_ret, implies_true, and_self]
  have hc : min n.count maxSlots ≤ r.1 := by omega
  simp only [PageRead.lookupInner, Program.bind_eq, readsOnly_bind, readsOnly_bounded_lowerBound, true_and,
    hr, Except.ok.injEq, forall_eq', hsafe, read_safeCount_eq, hc, ite_true, readsOnly_fetch,
    Loc.Bounded]

lemma avoids_removeChild_of_maxSlots {key : Key} {r : Nat × Bool}
    (hr : n.read (PageRead.lowerBound key) = .ok r) (hne : r.1 ≠ n.count) :
    ¬n.Avoids (PageRead.removeChild key) (.slotKeyLen r.1) := by
  simp only [PageRead.removeChild, PageRead.getChild, Program.bind_eq, avoids_bind, hr,
    Except.ok.injEq, forall_eq', read_fetch, fetch, hne, ite_false, avoids_fetch, ne_eq,
    not_true_eq_false, false_and, and_false, not_false_eq_true]

/-- At the slot that both descents select, they read the same bytes. -/
lemma avoids_getChild {key : Key} {r : Nat × Bool}
    (hr : n.read (PageRead.lowerBound key) = .ok r) (hlt : r.1 < min n.count maxSlots)
    (hin : n.SlotInPage r.1) {l : Loc} (h : n.Avoids (PageRead.lookupInner key) l) :
    n.Avoids (PageRead.getChild r.1) l := by
  have hc : ¬min n.count maxSlots ≤ r.1 := by omega
  simp only [PageRead.lookupInner, Program.bind_eq, avoids_bind, hr, Except.ok.injEq, forall_eq',
    read_safeCount_eq, hc, ite_false, read_checkSlotOrRestart_eq, hin, ite_true,
    forall_const] at h
  exact h.2.2.2

lemma Avoids.removeChild {key : Key} (hs : n.SearchStaysInPage key) {l : Loc} (hl : ¬l.InPage)
    (h : n.Avoids (PageRead.lookupInner key) l) : n.Avoids (PageRead.removeChild key) l := by
  have hcount : Loc.count ≠ l := fun heq => hl (heq ▸ by decide)
  have hlink : Loc.link ≠ l := fun heq => hl (heq ▸ by decide)
  have hbound : n.Avoids (PageRead.lowerBound key) l := by
    simp only [PageRead.lookupInner, Program.bind_eq, avoids_bind] at h
    exact h.1
  simp only [PageRead.removeChild, Program.bind_eq, Program.pure_eq, avoids_bind, hbound, true_and,
    avoids_fetch, ne_eq, hcount, not_false_eq_true, read_fetch, fetch, Except.ok.injEq, forall_eq']
  intro r hr
  by_cases heq : r.1 = n.count
  · simp only [heq, ite_true, avoids_bind, avoids_fetch, ne_eq, hlink, not_false_eq_true,
      avoids_ret, implies_true, and_true]
  · obtain ⟨hlt, hin⟩ := (hs r hr).resolve_left heq
    simp only [heq, ite_false, avoids_bind, avoids_ret, implies_true, and_true]
    exact avoids_getChild hr hlt hin h

/-- The two descents agree on an image exactly when the search of the image throws, ends at the
count, or ends at a slot below the clamped count that lies in the page. -/
theorem descentsAgree_iff (n : BTreeNode) (key : Key) :
    n.DescentsAgree key ↔ n.SearchStaysInPage key := by
  constructor
  · intro h r hr
    have hwithin := lowerBound_within hr
    by_contra hne
    obtain ⟨hcount, hslot⟩ := not_or.mp hne
    rcases Nat.lt_or_ge r.1 (min n.count maxSlots) with hlt | hge
    · -- `lookupInner` throws, `remove` follows the slot
      have hchild := h.child
      rw [read_removeChild_eq, read_lookupInner_eq, hr, except_bind_ok, except_bind_ok,
        childOf_error hlt (fun hin => hslot ⟨hlt, hin⟩)] at hchild
      cases hchild
    · -- `remove` reads the slot behind the slot array
      have hmax : r.1 = maxSlots := by
        have hle := hwithin.1
        omega
      have hslots : ¬(Loc.slotKeyLen r.1).Bounded := by
        rw [hmax]
        exact lt_irrefl _
      refine avoids_removeChild_of_maxSlots hr hcount (h.bytes _ ?_ ?_)
      · rw [hmax]
        exact not_inPage_maxSlots
      · exact (readsOnly_bounded_lookupInner hr hmax.ge).avoids hslots
  · intro hs
    refine ⟨?_, fun l hl h => h.removeChild hs hl⟩
    rw [read_removeChild_eq, read_lookupInner_eq]
    cases hr : n.read (PageRead.lowerBound key) with
    | error e => rfl
    | ok r =>
      rw [except_bind_ok, except_bind_ok, childOf_eq (hs r hr)]
      rfl

/-- An inner node whose only slot points behind the page. -/
def tornSlot : BTreeNode := { new false with count := 1, slot := fun _ => ⟨5000, 1, 8, 1⟩ }

theorem tornSlot_descents : tornSlot.isLeaf = false ∧
    tornSlot.read (PageRead.lookupInner []) = .error .exception ∧
    (tornSlot.read (PageRead.removeChild [])).isOk = true ∧
    ¬∀ (n : BTreeNode) (key : Key), n.isLeaf = false → n.DescentsAgree key := by
  refine ⟨rfl, by decide +kernel, by decide +kernel, fun h => ?_⟩
  have hs := (descentsAgree_iff _ _).mp (h tornSlot [] rfl) (0, false) (by decide +kernel)
  exact absurd hs (by decide +kernel)

end BTreeNode

end MemSafeDB
