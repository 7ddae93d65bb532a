import MemSafeDB.Concurrent.Descents

/-!
# Searches and updates among other threads

A call that only reads is right at the moment of its last check; an update is right at the moment
when it changes the payload.
-/

namespace MemSafeDB
open Lib PageState

variable {τ : Type} [DecidableEq τ]

namespace Point

/-- The call has begun, and the thread holds nothing. -/
structure Begun (t : τ) (c : Call) (m : Point τ) : Prop where
  owns : Owns t [] [] m
  pending : Pending t c m.now.trace

/-- The call may return with the answer, and the thread holds nothing. -/
structure Done (t : τ) (c : Call) (a : Answer) (m : Point τ) : Prop where
  owns : Owns t [] [] m
  returned : Returned t a c m.now.trace

instance (t : τ) (c : Call) : Lasts t (Begun t c) :=
  ⟨fun m m' hi ha hs h => ⟨Lasts.lasts m m' hi ha hs h.owns,
    Lasts.lasts (A := fun m => Pending t c m.now.trace) m m' hi ha hs h.pending⟩⟩

instance (t : τ) (c : Call) (a : Answer) : Lasts t (Done t c a) :=
  ⟨fun m m' hi ha hs h => ⟨Lasts.lasts m m' hi ha hs h.owns,
    Lasts.lasts (A := fun m => Returned t a c m.now.trace) m m' hi ha hs h.returned⟩⟩

/-- The slot of the leaf that holds the key. -/
structure SlotFor (key : Key) (slotId : Nat) (s : Sight) : Prop where
  leaf : LeafFor key s
  mem : key ∈ s.page.keys
  slot : slotId = rank s.page.keys key

/-- What a search for the key in its leaf has found. -/
structure Found (key : Key) (r : Nat × Bool) (s : Sight) : Prop where
  leaf : LeafFor key s
  slot : r.2 = true → SlotFor key r.1 s
  absent : r.2 = false → key ∉ s.page.keys

variable {m : Point τ} {key : Key} {p : PID} {g : GuardO} {t : τ} {slotId : Nat} {r : Nat × Bool}

/-! ## What a leaf tells of the contents -/

lemma Inv.slot (hi : Inv m) (h : SlotFor key slotId (m.now.sight p)) :
    slotId < (m.now.page p).count ∧ (m.now.page p).fullKey slotId = key := by
  rw [h.slot]
  exact (hi.valid h.leaf.level).found h.mem

lemma Inv.stored (hi : Inv m) (h : SlotFor key slotId (m.now.sight p)) :
    contentsOf m.now.trace key = some ((m.now.page p).getPayload slotId) := by
  obtain ⟨hlt, hkey⟩ := hi.slot h
  rw [← hi.contents, ← hkey]
  exact holds_slot h.leaf.level hlt

lemma Inv.absent (hi : Inv m) (hleaf : LeafFor key (m.now.sight p))
    (h : key ∉ (m.now.page p).keys) : contentsOf m.now.trace key = none := by
  cases hc : contentsOf m.now.trace key with
  | none => rfl
  | some v =>
    have hin := (hi.tree.holds_iff hleaf.level hleaf.covers v).mp ((hi.contents key v).mpr hc)
    refine absurd ?_ h
    rw [BTreeNode.keys_eq]
    exact List.mem_map_of_mem (f := Prod.fst) hin

/-- What `lowerBound` returns on the leaf of the key. -/
lemma LeafFor.found {s : Sight} (hleaf : LeafFor key s)
    (hr : r = (rank s.page.keys key, decide (key ∈ s.page.keys))) : Found key r s := by
  subst hr
  exact ⟨hleaf, fun hmem => ⟨hleaf, of_decide_eq_true hmem, rfl⟩, of_decide_eq_false⟩

/-- What `lookup` finds on the leaf. -/
def lookupIn (n : BTreeNode) (r : Nat × Bool) (size : Nat) : Option (List Byte × Nat) :=
  if r.2 then some ((n.getPayload r.1).take size, (n.getPayload r.1).length) else none

lemma Inv.ready_lookup (hi : Inv m) {size : Nat} (h : Found key r (m.now.sight p))
    (hc : Pending t (.lookup key size) m.now.trace) :
    Ready t (.lookup key size) (.lookup (lookupIn (m.now.page p) r size)) m.now.trace := by
  refine hc.ready ?_ rfl
  rw [Contents.Answers, lookupIn]
  cases hr : r.2 with
  | true =>
    rw [hi.stored (h.slot hr)]
    rfl
  | false =>
    rw [hi.absent h.leaf (h.absent hr)]
    rfl

section Rules

variable {steady : Prop} {env : Env} {E : Point τ → Prop}

namespace Serves

/-- The search for a key in a page. -/
lemma lowerBound {R : Point τ → Prop} [Lasts t R] (hi : Inv m) (hR : R m)
    (hg : Sees g (fun _ => True) m) :
    Serves steady t (MemSafeDB.readPage g.pid (PageRead.lowerBound key)) m (fun r m => R m ∧
      Sees g (fun s => LeafFor key s → Found key r s) m) R := by
  refine (readPage hi hR hg (fun _ h => h)).mono ?_ (fun _ _ h => h)
  rintro r m hi ⟨hR, hread⟩
  refine ⟨hR, hread.imp (fun hf _ hleaf => hleaf.found ?_)⟩
  exact (hread.read hf ((hi.valid hleaf.level).reads_lowerBound key)).symm

/-! ## Lookups -/

lemma lookupAttempt {size : Nat} (hi : Inv m) (h : Begun t (.lookup key size) m) :
    Serves steady t (BTree.lookupAttempt env key size) m
      (fun r => Done t (.lookup key size) (.lookup r)) (Begun t (.lookup key size)) := by
  refine bind hi (findLeafO (fun _ h => h.owns) hi h) ?_
  rintro node m hi ⟨h, hleaf⟩
  refine bind (Q := fun a m => Begun t (.lookup key size) m ∧
    Sees node (fun s => ∃ r, Found key r s ∧ a = lookupIn s.page r size) m) hi
    (onThrow (E := Begun t (.lookup key size)) hi ?_ (fun m hi h => unwind hi h)) ?_
  · refine bind hi ((lowerBound (R := fun m => Begun t (.lookup key size) m ∧
      Sees node (LeafFor key) m) hi ⟨h, hleaf⟩ (hleaf.mono fun _ _ => trivial)).mono
      (fun _ _ _ h => h) (fun _ _ h => h.1)) ?_
    rintro ⟨pos, found⟩ m hi ⟨⟨h, hleaf⟩, hsearch⟩
    have hfound : Sees node (Found key (pos, found)) m := hleaf.imp (fun hf => hsearch.fresh hf)
    cases found with
    | true =>
      refine bind hi (readPage (A := fun m => Begun t (.lookup key size) m ∧
        Sees node (Found key (pos, true)) m) hi ⟨h, hfound⟩ (hleaf.mono fun _ _ => trivial)
        (fun _ h => h.1)) ?_
      rintro r m hi ⟨⟨h, hfound⟩, hread⟩
      refine pure ⟨h, hfound.imp (fun hf hr => ⟨(pos, true), hr, ?_⟩)⟩
      obtain ⟨hleaf, hmem, hpos⟩ := hr.slot rfl
      dsimp only at hpos
      subst hpos
      exact congrArg some
        (hread.read hf ((hi.valid hleaf.level).reads_copyPayload hmem size)).symm
    | false => exact pure ⟨h, hfound.mono (fun s hr => ⟨(pos, false), hr, rfl⟩)⟩
  · rintro a m hi ⟨h, ha⟩
    refine bind hi (check (A := fun m => Begun t (.lookup key size) m ∧ Sees node (fun s =>
      ∃ r, Found key r s ∧ a = lookupIn s.page r size) m)
      (B := fun m => Ready t (.lookup key size) (.lookup a) m.now.trace) hi ha.state ⟨h, ha⟩
      (fun _ h => h.1) (fun m hi h hf => ?_)) ?_
    · obtain ⟨r, hr, rfl⟩ := h.2.fresh hf
      exact hi.ready_lookup hr h.1.pending
    · rintro _ m hi ⟨⟨h, -⟩, hready⟩
      exact pure ⟨h.owns, hready⟩

theorem lookup {size : Nat} (hi : Inv m) (h : Begun t (.lookup key size) m) :
    Serves steady t (BTree.lookup env key size) m
      (fun r => Done t (.lookup key size) (.lookup r)) E :=
  retry_once hi h (fun _ hi h => lookupAttempt hi h) env.fuel

/-! ## Updates -/

/-- The payload is changed, and the answer is right at this moment. -/
lemma updatePayload {fn : PayloadUpdate} (ho : Owns t [p] [] m)
    (hc : Pending t (.updateInPlace key fn) m.now.trace) (hp : Knows t p (SlotFor key slotId) m) :
    Serves steady t (Program.op (S := signature) (.updatePayload p slotId fn)) m (fun _ m =>
      Owns t [p] [] m ∧ Ready t (.updateInPlace key fn) (.bool true) m.now.trace) E := by
  refine act (A := fun m => Owns t [p] [] m ∧ Pending t (.updateInPlace key fn) m.now.trace ∧
    Knows t p (SlotFor key slotId) m) id ⟨ho, hc, hp⟩ ?_
  rintro m hi ⟨ho, hc, hp⟩ -
  obtain ⟨hlt, hkey⟩ := hi.slot hp.fact
  have hstored := hi.stored hp.fact
  refine ⟨⟨hp.fact.leaf.level, hlt, hkey.symm ▸ hc⟩, fun c r m' hperform hi' hm => ?_⟩
  refine ⟨ho.acted hm, ?_⟩
  obtain ⟨-, hnow⟩ := Prod.mk.inj (Option.some.inj hperform)
  have htrace : m'.now.trace = m.now.trace ++ [.effect t (.update key fn)] := by
    obtain ⟨n, hset, -⟩ := hi.tree.setPayload hp.fact.leaf.level hlt
      (fn.length_run ((m.now.page p).getPayload slotId))
    rw [← hnow, Sys.updatePayload, show (m.now.page p).setPayload slotId
      (fn.run ((m.now.page p).getPayload slotId)) = .ok n from hset, hkey]
    rfl
  rw [htrace]
  refine hc.ready_effect ?_ ?_
  · rw [Contents.Answers, hstored]
    rfl
  · rw [Call.takes, hstored]
    rfl

lemma updateAttempt {fn : PayloadUpdate} (hi : Inv m) (h : Begun t (.updateInPlace key fn) m) :
    Serves steady t (BTree.updateAttempt env key fn) m
      (fun r => Done t (.updateInPlace key fn) (.bool r)) (Begun t (.updateInPlace key fn)) := by
  refine bind hi (findLeafO (fun _ h => h.owns) hi h) ?_
  rintro node m hi ⟨h, hleaf⟩
  refine bind hi (onThrow hi ((lowerBound (R := fun m => Begun t (.updateInPlace key fn) m ∧
    Sees node (LeafFor key) m) hi ⟨h, hleaf⟩ (hleaf.mono fun _ _ => trivial)).mono
    (fun _ _ _ h => h) (fun _ _ h => h.1)) (fun m hi h => unwind hi h)) ?_
  rintro ⟨pos, found⟩ m hi ⟨⟨h, hleaf⟩, hsearch⟩
  have hfound : Sees node (Found key (pos, found)) m := hleaf.imp (fun hf => hsearch.fresh hf)
  cases found with
  | true =>
    refine bind hi (onThrow hi (upgrade (X := [])
      (K := fun m => Pending t (.updateInPlace key fn) m.now.trace ∧
        Sees node (Found key (pos, true)) m)
      (L := Knows t node.pid (SlotFor key pos)) (E := Begun t (.updateInPlace key fn)) hi h.owns
      ⟨h.pending, hfound⟩ (fun m ho h => ⟨ho, h.1⟩) (fun m _ ho _ _ => ho.mayWait) ?_ env.fuel)
      (fun m hi h => unwind hi h)) ?_
    · rintro m m' - ⟨-, hfound⟩ hf - hm ho'
      exact Knows.of_relatched hm ho' (Or.inl List.mem_cons_self) ((hfound.fresh hf).slot rfl)
    · rintro _ m hi ⟨rfl, ho, ⟨hc, -⟩, hp⟩
      refine bind hi (updatePayload ho hc hp) ?_
      rintro _ m hi ⟨ho, hready⟩
      refine bind hi (unfixX (X := [])
        (K := fun m => Ready t (.updateInPlace key fn) (.bool true) m.now.trace) hi ho hready) ?_
      rintro _ m hi ⟨ho, hready⟩
      exact pure ⟨ho, hready⟩
  | false =>
    refine bind hi (check (A := fun m => Begun t (.updateInPlace key fn) m ∧
      Sees node (Found key (pos, false)) m)
      (B := fun m => Ready t (.updateInPlace key fn) (.bool false) m.now.trace) hi hfound.state
      ⟨h, hfound⟩ (fun _ h => h.1) (fun m hi h hf => ?_)) ?_
    · have hr := h.2.fresh hf
      have hnone := hi.absent hr.leaf (hr.absent rfl)
      refine h.1.pending.ready ?_ ?_
      · rw [Contents.Answers, hnone]
        rfl
      · rw [Call.takes, hnone]
        rfl
    · rintro _ m hi ⟨⟨h, -⟩, hready⟩
      exact pure ⟨h.owns, hready⟩

theorem updateInPlace {fn : PayloadUpdate} (hi : Inv m) (h : Begun t (.updateInPlace key fn) m) :
    Serves steady t (BTree.updateInPlace env key fn) m
      (fun r => Done t (.updateInPlace key fn) (.bool r)) E :=
  retry_once hi h (fun _ hi h => updateAttempt hi h) env.fuel

end Serves

end Rules

end Point

end MemSafeDB
