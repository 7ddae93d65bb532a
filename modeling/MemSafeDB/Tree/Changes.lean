import MemSafeDB.Tree.Invariant

/-!
# Changes of a tree

The changes that the operations make, each as one step on the pages of the tree: the entries of
a leaf change, a node is split, a new root is put above the old one, two leaves are merged. Each
of them keeps the invariant, and only the first one changes what the tree holds.
-/

namespace MemSafeDB
open Lib

namespace Tree

variable {T : Tree}

/-! ## Changing a leaf -/

def setPage (T : Tree) (p : PID) (n : BTreeNode) : Tree :=
  { T with page := Function.update T.page p n }

lemma view_setPage (T : Tree) (p q : PID) (n : BTreeNode) :
    (T.setPage p n).view q = if q = p then n.view else T.view q := by
  unfold view setPage
  by_cases h : q = p
  · subst h
    simp
  · simp [h]

/-- Changing the entries of a leaf keeps the invariant. -/
theorem Inv.setLeaf (hT : T.Inv) {p : PID} (hp : T.level p = some 0) {n : BTreeNode}
    (hn : n.Valid) {es : List (Key × Key)} (hview : n.view = { T.view p with entries := es }) :
    (T.setPage p n).Inv := by
  have hlow : ∀ q, ((T.setPage p n).view q).lower = (T.view q).lower := by
    intro q
    rw [view_setPage]
    split
    · rename_i h
      rw [hview, h]
    · rfl
  have hup : ∀ q, ((T.setPage p n).view q).upper = (T.view q).upper := by
    intro q
    rw [view_setPage]
    split
    · rename_i h
      rw [hview, h]
    · rfl
  have hlink : ∀ q, ((T.setPage p n).view q).link = (T.view q).link := by
    intro q
    rw [view_setPage]
    split
    · rename_i h
      rw [hview, h]
    · rfl
  have hcov : ∀ q k, (T.setPage p n).Covers q k ↔ T.Covers q k := by
    intro q k
    rw [Covers, Covers, hlow, hup]
  have hother : ∀ q l, T.level q = some (l + 1) → (T.setPage p n).view q = T.view q := by
    intro q l hq
    rw [view_setPage, if_neg]
    rintro rfl
    rw [hp] at hq
    cases hq
  refine ⟨?_, ?_, hT.bound, hT.root, ?_, ?_, ?_, ?_⟩
  · intro q l hq
    by_cases h : q = p
    · subst h
      simpa [setPage] using hn
    · simpa [setPage, h] using hT.valid q l hq
  · intro q l hq
    rw [view_setPage]
    split
    · rename_i h
      subst h
      rw [hview]
      exact hT.leaf q l hq
    · exact hT.leaf q l hq
  · exact ⟨(hlow _).trans hT.rootFences.1, (hup _).trans hT.rootFences.2⟩
  · intro q l hq r hr
    rw [hother q l hq] at hr
    obtain ⟨h1, h2, h3⟩ := hT.child q l hq r hr
    exact ⟨h1, (hlow _).trans h2, (hup _).trans h3⟩
  · intro q q' l k hq hq' hk hk'
    exact hT.disjoint q q' l k hq hq' ((hcov q k).mp hk) ((hcov q' k).mp hk')
  · intro q hq
    unfold NextOk
    rw [hup, hlink, hlow]
    exact hT.next q hq

/-- A changed leaf holds the new entries of the keys it covers. -/
lemma Inv.holds_setLeaf (hT : T.Inv) {p : PID} (hp : T.level p = some 0) {n : BTreeNode}
    (hn : n.Valid) {es : List (Key × Key)} (hview : n.view = { T.view p with entries := es })
    {k : Key} (hk : T.Covers p k) (v : Key) : (T.setPage p n).Holds k v ↔ (k, v) ∈ es := by
  have hes : ((T.setPage p n).view p).entries = es := by
    rw [view_setPage, if_pos rfl, hview]
  have hk' : (T.setPage p n).Covers p k := by
    rw [Covers, view_setPage, if_pos rfl, hview]
    exact hk
  rw [(hT.setLeaf hp hn hview).holds_iff hp hk', hes]

/-- A changed leaf does not matter to the keys it does not cover. -/
lemma Inv.holds_setLeaf_other (hT : T.Inv) {p : PID} (hp : T.level p = some 0) {n : BTreeNode}
    (hn : n.Valid) {es : List (Key × Key)} (hview : n.view = { T.view p with entries := es })
    {k : Key} (hk : ¬T.Covers p k) (v : Key) : (T.setPage p n).Holds k v ↔ T.Holds k v := by
  have hT' := hT.setLeaf hp hn hview
  have hk' : ¬(T.setPage p n).Covers p k := by
    rw [Covers, view_setPage, if_pos rfl, hview]
    exact hk
  constructor
  · rintro ⟨q, hq, hmem⟩
    have hqp : q ≠ p := by
      rintro rfl
      exact hk' (hT'.covers_of_mem hq hmem)
    rw [view_setPage, if_neg hqp] at hmem
    exact ⟨q, hq, hmem⟩
  · rintro ⟨q, hq, hmem⟩
    have hqp : q ≠ p := by
      rintro rfl
      exact hk (hT.covers_of_mem hq hmem)
    exact ⟨q, hq, by rwa [view_setPage, if_neg hqp]⟩

/-! ## Operations on a leaf -/

/-- The leaf of a key that is not stored takes an entry of it. -/
theorem Inv.insertInPage (hT : T.Inv) {p : PID} (hp : T.level p = some 0) {key payload : Key}
    (hk : T.Covers p key) (hfresh : ∀ v, ¬T.Holds key v)
    (hlen : key.length + payload.length ≤ maxKVSize)
    (hspace : (T.page p).hasSpaceFor key.length payload.length = true) :
    ∃ n, (T.page p).insertInPage key payload = .ok n ∧ n.Valid ∧ (T.setPage p n).Inv ∧
      ∀ k v, (T.setPage p n).Holds k v ↔ (k = key ∧ v = payload) ∨ T.Holds k v := by
  have hvalid := hT.valid p 0 hp
  have hleaf : (T.page p).isLeaf = true := hT.isLeaf_of_level hp
  have hnew : key ∉ (T.page p).keys := by
    rw [BTreeNode.keys_eq]
    intro hmem
    obtain ⟨e, he, rfl⟩ := List.mem_map.mp hmem
    exact hfresh e.2 ⟨p, hp, he⟩
  have hadmit : (T.page p).view.Admits key := ⟨hk, fun hc => absurd hc (by simp [hleaf])⟩
  have hentry : View.EntryOk (T.page p).isLeaf (key, payload) := by
    rw [hleaf]
    exact hlen
  obtain ⟨n, heq, hn, hview⟩ := hvalid.insertInPage_eq hnew hadmit hentry
    (hentry.not_wraps _) hspace
  refine ⟨n, heq, hn, hT.setLeaf hp hn hview, fun k v => ?_⟩
  have hrank : rank (T.page p).keys key ≤ (T.page p).entries.length := by
    simpa [BTreeNode.keys_eq] using rank_le_length (T.page p).keys key
  by_cases hc : T.Covers p k
  · rw [hT.holds_setLeaf hp hn hview hc, hT.holds_iff hp hc, List.mem_insertIdx hrank,
      Prod.mk.injEq]
    rfl
  · rw [hT.holds_setLeaf_other hp hn hview hc]
    refine ⟨Or.inr, ?_⟩
    rintro (⟨rfl, -⟩ | hold)
    · exact absurd hk hc
    · exact hold

lemma Inv.getElem_entries (hT : T.Inv) {p : PID} (hp : T.level p = some 0) {i : Nat}
    (hi : i < (T.page p).count) : ∃ h : i < (T.view p).entries.length,
      (T.view p).entries[i].1 = (T.page p).fullKey i ∧ T.Covers p ((T.page p).fullKey i) := by
  have hlt : i < (T.view p).entries.length := by simpa [view] using hi
  have heq : (T.view p).entries[i].1 = (T.page p).fullKey i :=
    congrArg Prod.fst (BTreeNode.getElem_entries hlt)
  exact ⟨hlt, heq, heq ▸ (hT.ok hp).entry_inRange (List.getElem_mem hlt)⟩

theorem Inv.removeSlot (hT : T.Inv) {p : PID} (hp : T.level p = some 0) {i : Nat}
    (hi : i < (T.page p).count) :
    ((T.page p).removeSlot i).Valid ∧ (T.setPage p ((T.page p).removeSlot i)).Inv ∧
      ∀ k v, (T.setPage p ((T.page p).removeSlot i)).Holds k v ↔
        k ≠ (T.page p).fullKey i ∧ T.Holds k v := by
  obtain ⟨hn, hview⟩ := (hT.valid p 0 hp).removeSlot_eq hi
  obtain ⟨hlt, hkey, hcov⟩ := hT.getElem_entries hp hi
  refine ⟨hn, hT.setLeaf hp hn hview, fun k v => ?_⟩
  by_cases hc : T.Covers p k
  · have hmem := (hT.ok hp).mem_erase hlt k v
    rw [hkey] at hmem
    rw [hT.holds_setLeaf hp hn hview hc, hT.holds_iff hp hc]
    exact hmem
  · rw [hT.holds_setLeaf_other hp hn hview hc]
    refine ⟨fun h => ⟨?_, h⟩, And.right⟩
    rintro rfl
    exact hc hcov

theorem Inv.setPayload (hT : T.Inv) {p : PID} (hp : T.level p = some 0) {i : Nat}
    (hi : i < (T.page p).count) {bs : List Byte}
    (hb : bs.length = ((T.page p).getPayload i).length) :
    ∃ n, (T.page p).setPayload i bs = .ok n ∧ n.Valid ∧ (T.setPage p n).Inv ∧
      ∀ k v, (T.setPage p n).Holds k v ↔ (k = (T.page p).fullKey i ∧ v = bs) ∨
        (k ≠ (T.page p).fullKey i ∧ T.Holds k v) := by
  rw [BTreeNode.length_getPayload] at hb
  obtain ⟨heq, hn, hview⟩ := (hT.valid p 0 hp).setPayload_eq hi bs hb
  obtain ⟨hlt, hkey, hcov⟩ := hT.getElem_entries hp hi
  refine ⟨_, heq, hn, hT.setLeaf hp hn hview, fun k v => ?_⟩
  by_cases hc : T.Covers p k
  · have hmem := (hT.ok hp).mem_setPayload hlt bs k v
    rw [hkey] at hmem
    rw [hT.holds_setLeaf hp hn hview hc, hT.holds_iff hp hc]
    exact hmem
  · rw [hT.holds_setLeaf_other hp hn hview hc]
    have hne : k ≠ (T.page p).fullKey i := by
      rintro rfl
      exact hc hcov
    exact ⟨fun h => Or.inr ⟨hne, h⟩, fun h => (h.resolve_left (fun h => hne h.1)).2⟩

/-- What a leaf tells of a key that it covers. -/
theorem Inv.search (hT : T.Inv) {p : PID} (hp : T.level p = some 0) {key : Key}
    (hk : T.Covers p key) :
    (key ∈ (T.page p).keys ∧ rank (T.page p).keys key < (T.page p).count ∧
      (T.page p).fullKey (rank (T.page p).keys key) = key ∧
      T.Holds key ((T.page p).getPayload (rank (T.page p).keys key))) ∨
    (key ∉ (T.page p).keys ∧ ∀ v, ¬T.Holds key v) := by
  by_cases hmem : key ∈ (T.page p).keys
  · obtain ⟨hlt, hfull⟩ := (hT.valid p 0 hp).found hmem
    refine Or.inl ⟨hmem, hlt, hfull, p, hp, ?_⟩
    have hlen : rank (T.page p).keys key < (T.view p).entries.length := by simpa [view] using hlt
    have hget : (T.view p).entries[rank (T.page p).keys key] = _ := BTreeNode.getElem_entries hlen
    rw [hfull] at hget
    rw [← hget]
    exact List.getElem_mem hlen
  · refine Or.inr ⟨hmem, fun v hv => hmem ?_⟩
    have hin := (hT.holds_iff hp hk v).mp hv
    rw [BTreeNode.keys_eq]
    exact List.mem_map_of_mem (f := Prod.fst) hin

/-! ## A new root -/

/-- A page that was just constructed is valid. -/
lemma new_valid (b : Bool) (link : PID) :
    ({ BTreeNode.new b with link := link } : BTreeNode).Valid ∧
      ({ BTreeNode.new b with link := link } : BTreeNode).view = ⟨b, link, [], [], []⟩ := by
  have hslots : ({ BTreeNode.new b with link := link } : BTreeNode).slots = [] := rfl
  have hfence : ∀ h : Heap, h.FenceIn ⟨0, 0⟩ := fun h => ⟨Or.inl rfl, Nat.zero_le _⟩
  refine ⟨⟨?_, rfl, fun hc => absurd hc (by simp [BTreeNode.new]), ?_⟩, rfl⟩
  · rw [hslots]
    refine ⟨le_rfl, ?_, rfl, le_rfl, hfence _, hfence _, by simp, List.Pairwise.nil, by simp,
      by simp, by simp⟩
    change 104 + 10 * 0 ≤ 4096
    omega
  · change View.Ok ⟨b, link, [], [], []⟩
    exact ⟨List.Pairwise.nil, by simp [View.keys], Or.inl rfl, Nat.zero_le _, Nat.zero_le _,
      by simp⟩

/-- A tree that is one empty leaf. -/
theorem inv_single {T : Tree} (hroot : 0 < T.root ∧ T.root < noNeighbour)
    (hlevel : ∀ p l, T.level p = some l ↔ p = T.root ∧ l = 0)
    (hpage : T.page T.root = BTreeNode.new true) : T.Inv := by
  obtain ⟨hvalid, hview⟩ := new_valid true noNeighbour
  have hv : T.view T.root = ⟨true, noNeighbour, [], [], []⟩ := by
    rw [view, hpage]
    exact hview
  refine ⟨?_, ?_, ?_, ⟨0, (hlevel _ _).mpr ⟨rfl, rfl⟩, ?_⟩, ?_, ?_, ?_, ?_⟩
  · intro p l hp
    obtain ⟨rfl, -⟩ := (hlevel p l).mp hp
    rw [hpage]
    exact hvalid
  · intro p l hp
    obtain ⟨rfl, rfl⟩ := (hlevel p l).mp hp
    rw [hv]
    rfl
  · intro p l hp
    obtain ⟨rfl, -⟩ := (hlevel p l).mp hp
    exact hroot
  · intro p k hp
    exact ((hlevel p k).mp hp).2.le
  · rw [hv]
    exact ⟨rfl, rfl⟩
  · intro p l hp
    exact absurd ((hlevel p _).mp hp).2 (Nat.succ_ne_zero l)
  · intro p q l k hp hq _ _
    rw [((hlevel p l).mp hp).1, ((hlevel q l).mp hq).1]
  · intro p hp
    obtain ⟨rfl, -⟩ := (hlevel p 0).mp hp
    refine Or.inl ?_
    rw [hv]
    exact ⟨rfl, rfl⟩

/-- The tree with the new root `m` above the old one, whose height is `l`. -/
def growRoot (T : Tree) (m : PID) (l : Nat) : Tree where
  page := Function.update T.page m { BTreeNode.new false with link := T.root }
  level := Function.update T.level m (some (l + 1))
  root := m

theorem Inv.growRoot (hT : T.Inv) {m : PID} {l : Nat} (hl : T.level T.root = some l)
    (hm : T.level m = none) (hb : 0 < m ∧ m < noNeighbour) : (T.growRoot m l).Inv := by
  have hmax : ∀ p k, T.level p = some k → k ≤ l := by
    obtain ⟨l', hl', hmax⟩ := hT.root
    rw [hl, Option.some.injEq] at hl'
    exact hl' ▸ hmax
  obtain ⟨hnv, hnview⟩ := new_valid false T.root
  have hvm : (T.growRoot m l).view m = ⟨false, T.root, [], [], []⟩ := by
    simp [view, Tree.growRoot, hnview]
  have hv : ∀ q, q ≠ m → (T.growRoot m l).view q = T.view q := by
    intro q hq
    simp [view, Tree.growRoot, hq]
  have hlm : (T.growRoot m l).level m = some (l + 1) := by simp [Tree.growRoot]
  have hlev : ∀ q, q ≠ m → (T.growRoot m l).level q = T.level q := by
    intro q hq
    simp [Tree.growRoot, hq]
  have hne : ∀ {q k}, T.level q = some k → q ≠ m := by
    rintro q k hq rfl
    rw [hm] at hq
    cases hq
  have hold : ∀ q k, q ≠ m → (T.growRoot m l).level q = some k → T.level q = some k := by
    intro q k hq h
    rwa [hlev q hq] at h
  refine ⟨?_, ?_, ?_, ?_, ?_, ?_, ?_, ?_⟩
  · intro q k hq
    by_cases h : q = m
    · subst h
      simpa [Tree.growRoot] using hnv
    · simpa [Tree.growRoot, h] using hT.valid q k (hold q k h hq)
  · intro q k hq
    by_cases h : q = m
    · subst h
      rw [hlm, Option.some.injEq] at hq
      subst hq
      rw [hvm]
      simp
    · rw [hv q h]
      exact hT.leaf q k (hold q k h hq)
  · intro q k hq
    by_cases h : q = m
    · exact h ▸ hb
    · exact hT.bound q k (hold q k h hq)
  · refine ⟨l + 1, hlm, ?_⟩
    intro q k hq
    by_cases h : q = m
    · subst h
      rw [hlm, Option.some.injEq] at hq
      omega
    · have hle := hmax q k (hold q k h hq)
      omega
  · have hroot : (T.growRoot m l).root = m := rfl
    rw [hroot, hvm]
    exact ⟨rfl, rfl⟩
  · intro q k hq r hr
    by_cases h : q = m
    · subst h
      rw [hlm, Option.some.injEq] at hq
      have hkl : k = l := by omega
      subst hkl
      rw [hvm] at hr
      have hr' : r = ⟨[], [], T.root⟩ := by simpa [View.routes, slotRoutes, lastBound] using hr
      subst hr'
      refine ⟨(hlev _ (hne hl)).trans hl, ?_, ?_⟩
      · rw [hv _ (hne hl)]
        exact hT.rootFences.1
      · rw [hv _ (hne hl)]
        exact hT.rootFences.2
    · rw [hv q h] at hr
      obtain ⟨h1, h2, h3⟩ := hT.child q k (hold q _ h hq) r hr
      exact ⟨(hlev _ (hne h1)).trans h1, by rw [hv _ (hne h1), h2], by rw [hv _ (hne h1), h3]⟩
  · intro p q k key hp hq hkp hkq
    by_cases h : p = m
    · by_cases h' : q = m
      · rw [h, h']
      · subst h
        rw [hlm, Option.some.injEq] at hp
        have hle := hmax q k (hold q k h' hq)
        omega
    · by_cases h' : q = m
      · subst h'
        rw [hlm, Option.some.injEq] at hq
        have hle := hmax p k (hold p k h hp)
        omega
      · rw [Covers, hv p h] at hkp
        rw [Covers, hv q h'] at hkq
        exact hT.disjoint p q k key (hold p k h hp) (hold q k h' hq) hkp hkq
  · intro q hq
    have h : q ≠ m := by
      rintro rfl
      rw [hlm] at hq
      cases hq
    have hnext := hT.next q (hold q 0 h hq)
    unfold NextOk at hnext ⊢
    rw [hv q h]
    rcases hnext with hn | ⟨h1, h2, h3⟩
    · exact Or.inl hn
    · exact Or.inr ⟨h1, (hlev _ (hne h2)).trans h2, by rw [hv _ (hne h2), h3]⟩

lemma holds_growRoot {m : PID} {l : Nat} (hm : T.level m = none) (k v : Key) :
    (T.growRoot m l).Holds k v ↔ T.Holds k v := by
  have hiff : ∀ q, ((T.growRoot m l).level q = some 0 ↔ T.level q = some 0) ∧
      (T.level q = some 0 → (T.growRoot m l).view q = T.view q) := by
    intro q
    by_cases h : q = m
    · subst h
      simp [Tree.growRoot, hm]
    · simp [Tree.growRoot, view, h]
  constructor
  · rintro ⟨q, hq, hmem⟩
    have hq' := (hiff q).1.mp hq
    exact ⟨q, hq', by rwa [(hiff q).2 hq'] at hmem⟩
  · rintro ⟨q, hq, hmem⟩
    exact ⟨q, (hiff q).1.mpr hq, by rwa [(hiff q).2 hq]⟩

end Tree

end MemSafeDB
