import MemSafeDB.Concurrent.Invariant

/-!
# Legal operations

A legal operation keeps the invariant, advances the state and spares the other threads, unless it
ends the run with a fault that is expected.
-/

namespace MemSafeDB
open Lib PageState

variable {τ : Type}

namespace Tree

variable {T : Tree} {p : PID} {n : BTreeNode}

/-- A page outside of the tree does not matter. -/
lemma Inv.setPage_outside (hT : T.Inv) (hp : T.level p = none) : (T.setPage p n).Inv := by
  have hne : ∀ q l, T.level q = some l → q ≠ p := by
    rintro q l hq rfl
    rw [hp] at hq
    cases hq
  have hview : ∀ q l, T.level q = some l → (T.setPage p n).view q = T.view q := by
    intro q l hq
    rw [view_setPage, if_neg (hne q l hq)]
  obtain ⟨h, hroot, hmax⟩ := hT.root
  refine ⟨?_, ?_, hT.bound, ⟨h, hroot, hmax⟩, ?_, ?_, ?_, ?_⟩
  · intro q l hq
    have hpage : (T.setPage p n).page q = T.page q := Function.update_of_ne (hne q l hq) _ _
    rw [hpage]
    exact hT.valid q l hq
  · intro q l hq
    rw [hview q l hq]
    exact hT.leaf q l hq
  · change ((T.setPage p n).view T.root).lower = [] ∧ ((T.setPage p n).view T.root).upper = []
    rw [hview _ _ hroot]
    exact hT.rootFences
  · intro q l hq r hr
    rw [hview q _ hq] at hr
    obtain ⟨h1, h2, h3⟩ := hT.child q l hq r hr
    exact ⟨h1, by rw [hview _ _ h1, h2], by rw [hview _ _ h1, h3]⟩
  · intro q q' l k hq hq' hk hk'
    rw [Covers, hview q l hq] at hk
    rw [Covers, hview q' l hq'] at hk'
    exact hT.disjoint q q' l k hq hq' hk hk'
  · intro q hq
    have hnext := hT.next q hq
    unfold NextOk at hnext ⊢
    rw [hview q 0 hq]
    rcases hnext with hlast | ⟨h1, h2, h3⟩
    · exact Or.inl hlast
    · exact Or.inr ⟨h1, h2, by rw [hview _ 0 h2, h3]⟩

lemma holds_setPage_outside (hp : T.level p = none) (k v : Key) :
    (T.setPage p n).Holds k v ↔ T.Holds k v := by
  refine exists_congr (fun q => and_congr_right (fun hq => ?_))
  have hne : q ≠ p := by
    rintro rfl
    rw [show T.level q = some 0 from hq] at hp
    cases hp
  rw [view_setPage, if_neg hne]

end Tree

lemma Sys.tree_eq {s s' : Sys τ} (h : ∀ p, s'.sight p = s.sight p) : s'.tree = s.tree := by
  have hroot := congrArg Sight.root (h metadataPageId)
  simp only [sight, if_pos] at hroot
  have hpage : s'.page = s.page := funext (fun p => congrArg Sight.page (h p))
  have hlevel : s'.level = s.level := funext (fun p => congrArg Sight.level (h p))
  rw [tree, tree, hpage, hlevel, hroot]

/-- The tree after a new root. -/
lemma Sys.tree_setRoot [DecidableEq τ] {s : Sys τ} {p : PID} {l : Nat}
    (hl : s.tree.level s.tree.root = some l)
    (hpage : s.page p = { BTreeNode.new false with link := s.root }) (t : τ) :
    (s.setRoot t p).tree = s.tree.growRoot p l := by
  have hlevel : s.rootLevel p = some (l + 1) := by
    have hl' : s.level s.root = some l := hl
    rw [Sys.rootLevel, hpage]
    change (s.level s.root).map (· + 1) = some (l + 1)
    rw [hl']
    rfl
  simp only [Sys.tree, Tree.growRoot, Sys.setRoot, Sys.setLevel, Sys.change, hlevel, ← hpage,
    Function.update_eq_self]

namespace Point

variable [DecidableEq τ]

namespace Inv

variable {m : Point τ} (h : Inv m) {t : τ} {p : PID}
include h

lemma held (p : PID) : m.now.Held p := by
  obtain ⟨ms, hms⟩ := h.protocol
  exact (hms.page p).held (h.unlocks p)

lemma version (p : PID) : PageState.version (m.now.word p) = m.now.unlocks p := by
  obtain ⟨ms, hms⟩ := h.protocol
  exact (hms.page p).version (h.unlocks p)

/-- A page that has been given out is the metadata page, or somebody has drawn and latched it. -/
lemma givenOut (hp : Given p m) : p = metadataPageId ∨ GivenOut m.past p := by
  obtain ⟨ms, hms⟩ := h.protocol
  by_contra hcon
  rw [not_or] at hcon
  exact hp ((hms.page p).untouched hcon.1 hcon.2)

lemma allocated (hp : Given p m) : p < m.now.allocCount := by
  obtain ⟨ms, hms⟩ := h.protocol
  rcases h.givenOut hp with rfl | ⟨u, hu, -⟩
  · exact hms.alloc
  · exact (hms.drew u p hu).2.1

lemma given_of_mem (hx : t ∈ m.now.xHolders p) : Given p m := by
  have hlocked := ((h.held p).of_mem hx).1
  rw [Given, hlocked]
  decide

/-- A page that is held exclusively has no other holder. -/
lemma exclusive (hx : t ∈ m.now.xHolders p) {u : τ} (hu : Holds u p m) : u = t := by
  obtain ⟨-, hxs, hss⟩ := (h.held p).of_mem hx
  rcases hu with hu | hu
  · rw [hxs] at hu
    exact List.mem_singleton.mp hu
  · rw [hss] at hu
    cases hu

end Inv

/-! ## One operation -/

/-- A legal operation and its execution. -/
structure Taken (steady : Prop) (ms : τ → Local) (t : τ) (o : Op) (r : o.Res) (m m' : Point τ) :
    Prop where
  inv : Inv m
  protocol : Protocol m.past ms m.now
  disciplined : (ms t).Legal o
  legal : Legal steady t m o
  assumed : m.now.Assumed steady t o
  perform : ∃ c, Sys.perform t c o m.now = some (r, m'.now)
  past : m'.past = ⟨t, o, r⟩ :: m.past

namespace Taken

variable {steady : Prop} {ms : τ → Local} {t : τ} {o : Op} {r : o.Res} {m m' : Point τ}
  (h : Taken steady ms t o r m m')
include h

/-- The thread holds the pages that the operation touches. -/
lemma touched {p : PID} (hp : p ∈ o.touched) : t ∈ m.now.xHolders p := by
  have hd := h.disciplined
  have hl := h.legal
  cases o with
  | setRoot q =>
    simp only [Op.touched, List.mem_cons, List.not_mem_nil, or_false] at hp
    rcases hp with rfl | rfl
    · exact hl.1
    · exact h.protocol.mem_xHolders hd.2
  | mergeNodes q slotId parent right =>
    simp only [Op.touched, List.mem_cons, List.not_mem_nil, or_false] at hp
    rcases hp with rfl | rfl | rfl
    · exact h.protocol.mem_xHolders hd.1
    · exact h.protocol.mem_xHolders hd.2.1
    · exact h.protocol.mem_xHolders hd.2.2
  | splitNode q newPID parent sepSlot sep =>
    simp only [Op.touched, List.mem_cons, List.not_mem_nil, or_false] at hp
    rcases hp with rfl | rfl | rfl
    · exact h.protocol.mem_xHolders hd.1
    · exact h.protocol.mem_xHolders hd.2.1
    · exact h.protocol.mem_xHolders hd.2.2
  | construct q isLeaf =>
    rw [Op.touched, List.mem_singleton] at hp
    exact hp ▸ h.protocol.mem_xHolders hd
  | setUpperInnerNode q r =>
    rw [Op.touched, List.mem_singleton] at hp
    exact hp ▸ h.protocol.mem_xHolders hd
  | insertInPage q key payload =>
    rw [Op.touched, List.mem_singleton] at hp
    exact hp ▸ h.protocol.mem_xHolders hd
  | removeSlot q slotId =>
    rw [Op.touched, List.mem_singleton] at hp
    exact hp ▸ h.protocol.mem_xHolders hd
  | updatePayload q slotId fn =>
    rw [Op.touched, List.mem_singleton] at hp
    exact hp ▸ h.protocol.mem_xHolders hd
  | _ => cases hp

lemma timely : Timely m.past ⟨t, o, r⟩ := by
  have hd := h.disciplined
  have hl := h.legal
  obtain ⟨c, hperform⟩ := h.perform
  cases o with
  | cas site p old new =>
    intro hok
    have hold : m.now.word p = old := by
      simp only [Sys.perform] at hperform
      split at hperform
      · rename_i heq
        exact heq.1
      · obtain ⟨hfalse, -⟩ := Prod.mk.inj (Option.some.inj hperform)
        rw [← hfalse] at hok
        cases hok
    by_cases hev : getState old = Evicted
    · cases site with
      | lockX => exact Or.inr (Or.inr (hl hev hold))
      | lockS =>
        rcases hd with ⟨hlt, -⟩ | ⟨heq, -⟩
        · rw [hev] at hlt
          exact absurd hlt (by decide)
        · rw [hev] at heq
          exact absurd heq (by decide)
      | unlockS =>
        have hle := hd.2.1.2
        rw [hev] at hle
        exact absurd hle (by decide)
      | unmark =>
        have heq := hd.1
        rw [hev] at heq
        exact absurd heq (by decide)
    · have hgiven : Given p m := by rwa [Given, hold]
      exact (h.inv.givenOut hgiven).imp id Or.inl
  | _ => trivial

/-- The operation does not evict a page. -/
lemma given {p : PID} (hp : Given p m) : Given p m' := by
  have hd := h.disciplined
  have ha := h.assumed
  obtain ⟨c, hperform⟩ := h.perform
  have hsame : m'.now.word p = m.now.word p → Given p m' := fun heq => by rwa [Given, heq]
  by_cases ho : o.Latching
  · cases o with
    | cas site q old new =>
      simp only [Sys.perform] at hperform
      split at hperform
      · obtain ⟨-, hnow⟩ := Prod.mk.inj (Option.some.inj hperform)
        rw [Given, ← hnow]
        change getState (Function.update m.now.word q new p) ≠ Evicted
        by_cases hq : p = q
        · subst hq
          rw [Function.update_self]
          cases site with
          | lockX =>
            rw [hd.1, getState_sameVersion _ (by decide)]
            decide
          | lockS =>
            rcases hd with ⟨hlt, rfl⟩ | ⟨-, rfl⟩
            · change getState old < 252 at hlt
              rw [getState_sameVersion _ (by omega)]
              change getState old + 1 ≠ 255
              omega
            · rw [getState_sameVersion _ (by decide)]
              decide
          | unlockS =>
            obtain ⟨-, ⟨-, hle⟩, rfl⟩ := hd
            change getState old ≤ 252 at hle
            rw [getState_sameVersion _ (by omega)]
            change getState old - 1 ≠ 255
            omega
          | unmark =>
            rw [hd.2, getState_sameVersion _ (by decide)]
            decide
        · rw [Function.update_of_ne hq]
          exact hp
      · obtain ⟨-, hnow⟩ := Prod.mk.inj (Option.some.inj hperform)
        exact hsame (by rw [← hnow])
    | storeUnlocked q v =>
      obtain ⟨-, hnow⟩ := Prod.mk.inj (Option.some.inj hperform)
      rw [Given, ← hnow]
      change getState (Function.update m.now.word q v p) ≠ Evicted
      by_cases hq : p = q
      · subst hq
        obtain ⟨hx, w, hloaded, rfl⟩ := hd
        have hw := (h.protocol.page p).loaded t w hloaded hx (h.inv.unlocks p)
        rw [Function.update_self, hw, nextVersion_eq ha (by decide), getState_pack ha]
        decide
      · rw [Function.update_of_ne hq]
        exact hp
    | nextPid =>
      obtain ⟨-, hnow⟩ := Prod.mk.inj (Option.some.inj hperform)
      exact hsame (by rw [← hnow])
    | residentInsert q =>
      obtain ⟨-, hnow⟩ := Prod.mk.inj (Option.some.inj hperform)
      refine hsame ?_
      rw [← hnow]
      unfold Sys.residentInsert
      split <;> rfl
    | _ => exact ho.elim
  · exact hsame (congrFun (sameLatches_perform ho hperform).word p)

lemma advance : Advance m m' where
  past := fun a ha => h.past ▸ List.mem_cons_of_mem _ ha
  unlocks := by
    intro p
    obtain ⟨c, hperform⟩ := h.perform
    exact (unlocks_perform hperform p).elim Nat.le_of_lt (fun h => h.1.le)
  sight := by
    intro p hunlocks hfree
    obtain ⟨c, hperform⟩ := h.perform
    have hlen := (unlocks_perform hperform p).resolve_left (by dsimp only; omega)
    dsimp only at hlen
    rw [hfree] at hlen
    have hnone : m.now.xHolders p = [] := List.length_eq_zero_iff.mp (Nat.le_zero.mp hlen.2)
    refine ⟨hnone, sight_perform hperform (fun hp => ?_)⟩
    have hmem := h.touched hp
    rw [hnone] at hmem
    cases hmem
  given := fun _ => h.given
  trace := by
    obtain ⟨c, hperform⟩ := h.perform
    obtain ⟨es, hes, -⟩ := trace_perform hperform
    exact ⟨es, hes.symm⟩

lemma spare {u : τ} (hu : u ≠ t) : Spare u m m' := by
  obtain ⟨c, hperform⟩ := h.perform
  have hsame : Same u m.now m'.now := same_perform hu hperform
  refine ⟨hsame.exclusive, hsame.shared, ?_, ?_, ?_⟩
  · intro p hp
    refine sight_perform hperform (fun hmem => hu ?_)
    exact h.inv.exclusive (h.touched hmem) hp
  · intro p hp
    rw [h.past, latched_cons] at hp
    · exact hp
    · intro old new heq
      exact hu (congrArg Action.thread heq).symm
  · obtain ⟨es, hes, hthread⟩ := trace_perform hperform
    exact ⟨es, hes, fun e he heq => hu (heq.symm.trans (hthread e he))⟩

end Taken

/-! ## Changes of the tree -/

omit [DecidableEq τ] in
/-- The entry of a slot is stored. -/
lemma holds_slot {s : Sys τ} {p : PID} (hp : s.level p = some 0) {i : Nat} (hi : i < (s.page p).count) :
    s.tree.Holds ((s.page p).fullKey i) ((s.page p).getPayload i) := by
  have hlen : i < (s.page p).entries.length := by simpa using hi
  refine ⟨p, hp, ?_⟩
  rw [← BTreeNode.getElem_entries hlen]
  exact List.getElem_mem hlen

/-- The run goes on, the tree is in order and holds what the trace tells, and the trace is
honest. -/
structure InOrder (s : Sys τ) : Prop where
  crashed : s.crashed = none
  tree : s.tree.Inv
  contents : ∀ k v, s.tree.Holds k v ↔ contentsOf s.trace k = some v
  honest : Honest s.trace

namespace InOrder

variable {s s' : Sys τ} (h : InOrder s) {t : τ} {p : PID}
include h

omit [DecidableEq τ] in
lemma congr (hcrashed : s'.crashed = s.crashed) (htree : s'.tree = s.tree)
    (htrace : s'.trace = s.trace) : InOrder s' :=
  ⟨hcrashed.trans h.crashed, htree ▸ h.tree, by rw [htree, htrace]; exact h.contents, htrace ▸ h.honest⟩

omit [DecidableEq τ] in
/-- A change of the tree that keeps its entries. -/
lemma rebuild (hcrashed : s'.crashed = s.crashed) (htree : s'.tree.Inv)
    (hholds : ∀ k v, s'.tree.Holds k v ↔ s.tree.Holds k v) (htrace : s'.trace = s.trace) :
    InOrder s' :=
  ⟨hcrashed.trans h.crashed, htree, fun k v => by rw [hholds, htrace]; exact h.contents k v, htrace ▸ h.honest⟩

omit [DecidableEq τ] in
/-- An event that changes nothing. -/
lemma event (hcrashed : s'.crashed = s.crashed) (htree : s'.tree = s.tree) {e : Event τ}
    (htrace : s'.trace = s.trace ++ [e]) (hchange : ∀ m, e.change m = m)
    (he : e.Honest s.trace) : InOrder s' where
  crashed := hcrashed.trans h.crashed
  tree := htree ▸ h.tree
  contents := by
    rw [htree, htrace, contentsOf_concat, hchange]
    exact h.contents
  honest := htrace ▸ h.honest.concat he

omit [DecidableEq τ] in
/-- A change of an entry by a pending call. -/
lemma effect (hcrashed : s'.crashed = s.crashed) (htree : s'.tree.Inv) {c : Call} {e : Effect}
    (htrace : s'.trace = s.trace ++ [.effect t e]) (hc : Pending t c s.trace)
    (he : c.takes (contentsOf s.trace) = some e)
    (hholds : ∀ k v, s'.tree.Holds k v ↔ (contentsOf s.trace).apply e k = some v) :
    InOrder s' where
  crashed := hcrashed.trans h.crashed
  tree := htree
  contents := by
    rw [htrace, contentsOf_concat]
    exact hholds
  honest := htrace ▸ h.honest.concat ⟨c, hc, he⟩

lemma construct (hp : s.level p = none) (n : BTreeNode) : InOrder ((s.setPage p n).change t) :=
  h.rebuild rfl (h.tree.setPage_outside hp) (Tree.holds_setPage_outside (T := s.tree) hp) rfl

lemma setRoot (hp : s.level p = none) (hb : 0 < p ∧ p < noNeighbour)
    (hpage : s.page p = { BTreeNode.new false with link := s.root }) :
    InOrder (s.setRoot t p) := by
  obtain ⟨l, hl, -⟩ := h.tree.root
  have htree := Sys.tree_setRoot hl hpage t
  refine h.rebuild rfl ?_ ?_ rfl
  · rw [htree]
    exact h.tree.growRoot hl hp hb
  · rw [htree]
    exact Tree.holds_growRoot hp

lemma insertInPage {key payload : Key} (hp : s.level p = some 0) (hk : s.tree.Covers p key)
    (hlen : key.length + payload.length ≤ maxKVSize)
    (hspace : (s.page p).hasSpaceFor key.length payload.length = true)
    (hc : Pending t (.insert key payload) s.trace) (hnone : contentsOf s.trace key = none) :
    InOrder (s.insertInPage t p key payload) := by
  have hfresh : ∀ v, ¬s.tree.Holds key v := by
    intro v hv
    rw [h.contents, hnone] at hv
    cases hv
  obtain ⟨n, heq, -, hinv, hholds⟩ := h.tree.insertInPage hp hk hfresh hlen hspace
  rw [Sys.insertInPage, show (s.page p).insertInPage key payload = .ok n from heq]
  refine h.effect rfl hinv rfl hc rfl (fun k v => (hholds k v).trans ?_)
  rw [Contents.apply, h.contents]
  by_cases hkk : k = key
  · subst hkk
    rw [Function.update_self, hnone, Option.some.injEq]
    simp [eq_comm]
  · rw [Function.update_of_ne hkk]
    simp [hkk]

lemma removeSlot {i : Nat} (hp : s.level p = some 0) (hi : i < (s.page p).count)
    (hc : Pending t (.remove ((s.page p).fullKey i)) s.trace) :
    InOrder (((s.setPage p ((s.page p).removeSlot i)).record
      (.effect t (.remove ((s.page p).fullKey i)))).change t) := by
  obtain ⟨-, hinv, hholds⟩ := h.tree.removeSlot hp hi
  have hstored := (h.contents _ _).mp (holds_slot hp hi)
  refine h.effect rfl hinv rfl hc ?_ (fun k v => (hholds k v).trans ?_)
  · rw [Call.takes, hstored]
    rfl
  · rw [Contents.apply, h.contents]
    by_cases hkk : k = (s.page p).fullKey i
    · rw [hkk, Function.update_self]
      simp [Sys.tree]
    · rw [Function.update_of_ne hkk]
      exact and_iff_right hkk

lemma updatePayload {i : Nat} {fn : PayloadUpdate} (hp : s.level p = some 0)
    (hi : i < (s.page p).count)
    (hc : Pending t (.updateInPlace ((s.page p).fullKey i) fn) s.trace) :
    InOrder (s.updatePayload t p i fn) := by
  obtain ⟨n, heq, -, hinv, hholds⟩ :=
    h.tree.setPayload hp hi (fn.length_run ((s.page p).getPayload i))
  have hstored := (h.contents _ _).mp (holds_slot hp hi)
  rw [Sys.updatePayload,
    show (s.page p).setPayload i (fn.run ((s.page p).getPayload i)) = .ok n from heq]
  refine h.effect rfl hinv rfl hc ?_ (fun k v => (hholds k v).trans ?_)
  · rw [Call.takes, hstored]
    rfl
  · rw [Contents.apply, h.contents]
    by_cases hkk : k = (s.page p).fullKey i
    · rw [hkk, Function.update_self, hstored]
      simp [Sys.tree, eq_comm]
    · rw [Function.update_of_ne hkk]
      have hne : k ≠ (s.tree.page p).fullKey i := hkk
      simp [hne]

lemma mergeNodes {q z : PID} {i : Nat} (hq : s.level q = some 1) (hi : i + 1 < (s.page q).count)
    (hp : (s.page q).getChild i = p) (hz : (s.page q).getChild (i + 1) = z) :
    InOrder (s.mergeNodes t p i q z).2 := by
  rcases h.tree.mergeNodes hq hi hp hz with heq | ⟨l, n, heq, -, -, hinv, hholds⟩
  · rw [Sys.mergeNodes, show (s.page p).mergeNodes p i (s.page q) (s.page z) = _ from heq]
    exact h
  · rw [Sys.mergeNodes, show (s.page p).mergeNodes p i (s.page q) (s.page z) = _ from heq]
    exact h.rebuild rfl hinv hholds rfl

end InOrder

/-- A split keeps everything, or it ends with a fault that is expected. -/
lemma InOrder.splitNode {m : Point τ} (h : InOrder m.now) (t : τ) {p newPID parent : PID}
    {sepSlot : Nat} {sep : Key} (hm : MaySplit m p newPID parent sepSlot sep)
    (hleft : ((m.now.page p).leftView sepSlot sep).SparesHeader) :
    InOrder (m.now.splitNode t p newPID parent sepSlot sep) ∨
      ∃ f, Expected f ∧ (m.now.splitNode t p newPID parent sepSlot sep).crashed = some f := by
  obtain ⟨key, j, info, es, e, fs, hc, hsep, rfl, hpos, hspace, hnew, hb⟩ := hm
  by_cases hfit : ((m.now.tree.view p).leftHalf sep es e noNeighbour).size ≤ pageSize
  · obtain ⟨l, r, n, heq, hstep⟩ := hc.splitNode h.tree hsep hpos hspace hnew hb hfit
    rw [Sys.splitNode, show (m.now.page p).splitNode p newPID (m.now.page parent) info.slot sep =
      .ok (l, r, n) from heq]
    exact Or.inl (h.rebuild rfl (hstep.inv h.tree) (hstep.holds_iff h.tree) rfl)
  · have heq := hc.splitNode_unfit h.tree hsep hpos hspace newPID (not_le.mp hfit)
    rw [Sys.splitNode, show (m.now.page p).splitNode p newPID (m.now.page parent) info.slot sep =
      .error _ from heq]
    have hview : (m.now.tree.view p).leftHalf sep es e noNeighbour =
        (m.now.page p).leftView info.slot sep := BTreeNode.leftHalf_eq hsep
    exact Or.inr ⟨_, Or.inr ⟨_, (hview ▸ hleft).unfitFault_eq⟩, rfl⟩

/-- The run has ended with a fault that is expected. -/
def Over (m : Point τ) : Prop := ∃ f, Expected f ∧ m.now.crashed = some f

namespace Taken

variable {steady : Prop} {ms : τ → Local} {t : τ} {o : Op} {r : o.Res} {m m' : Point τ}

lemma inOrder (h : Taken steady ms t o r m m') : Over m' ∨ InOrder m'.now := by
  have hl := h.legal
  have ha := h.assumed
  have hi : InOrder m.now := ⟨h.inv.crashed, h.inv.tree, h.inv.contents, h.inv.honest⟩
  obtain ⟨c, hperform⟩ := h.perform
  have hquiet : o.touched = [] → m'.now.crashed = m.now.crashed → m'.now.trace = m.now.trace →
      InOrder m'.now := by
    intro ho hcrashed htrace
    exact hi.congr hcrashed (Sys.tree_eq (fun p => sight_perform hperform (by simp [ho]))) htrace
  cases o with
  | cas site p old new =>
    refine Or.inr ?_
    simp only [Sys.perform] at hperform
    split at hperform <;>
      (obtain ⟨-, hnow⟩ := Prod.mk.inj (Option.some.inj hperform)
       rw [← hnow] at hquiet ⊢
       exact hquiet rfl rfl rfl)
  | residentInsert p =>
    obtain ⟨-, hnow⟩ := Prod.mk.inj (Option.some.inj hperform)
    rw [Over, ← hnow]
    rw [← hnow] at hquiet
    unfold Sys.residentInsert at hquiet ⊢
    split
    · exact Or.inl ⟨_, Or.inr ⟨_, rfl⟩, rfl⟩
    · rename_i hres
      rw [if_neg hres] at hquiet
      exact Or.inr (hquiet rfl rfl rfl)
  | construct p isLeaf =>
    obtain ⟨-, hnow⟩ := Prod.mk.inj (Option.some.inj hperform)
    exact Or.inr (hnow ▸ hi.construct hl _)
  | setUpperInnerNode p q =>
    obtain ⟨-, hnow⟩ := Prod.mk.inj (Option.some.inj hperform)
    exact Or.inr (hnow ▸ hi.construct hl _)
  | setRoot p =>
    obtain ⟨-, hnow⟩ := Prod.mk.inj (Option.some.inj hperform)
    exact Or.inr (hnow ▸ hi.setRoot hl.2.1 hl.2.2.1 hl.2.2.2)
  | insertInPage p key payload =>
    obtain ⟨-, hnow⟩ := Prod.mk.inj (Option.some.inj hperform)
    obtain ⟨hp, hk, hlen, hspace, hc⟩ := hl
    exact Or.inr (hnow ▸ hi.insertInPage hp hk hlen hspace hc ha)
  | removeSlot p slotId =>
    obtain ⟨-, hnow⟩ := Prod.mk.inj (Option.some.inj hperform)
    exact Or.inr (hnow ▸ hi.removeSlot hl.1 hl.2.1 hl.2.2)
  | updatePayload p slotId fn =>
    obtain ⟨-, hnow⟩ := Prod.mk.inj (Option.some.inj hperform)
    exact Or.inr (hnow ▸ hi.updatePayload hl.1 hl.2.1 hl.2.2)
  | mergeNodes p slotId parent right =>
    obtain ⟨-, hnow⟩ := Prod.mk.inj (Option.some.inj hperform)
    obtain ⟨hq, hlt, hp, hz⟩ := hl
    exact Or.inr (hnow ▸ hi.mergeNodes hq hlt hp hz)
  | splitNode p newPID parent sepSlot sep =>
    obtain ⟨-, hnow⟩ := Prod.mk.inj (Option.some.inj hperform)
    rw [Over, ← hnow]
    exact (hi.splitNode t hl ha).symm
  | call cl =>
    obtain ⟨-, hnow⟩ := Prod.mk.inj (Option.some.inj hperform)
    exact Or.inr (hnow ▸ hi.event rfl rfl rfl (fun _ => rfl) hl)
  | ret a =>
    obtain ⟨-, hnow⟩ := Prod.mk.inj (Option.some.inj hperform)
    exact Or.inr (hnow ▸ hi.event rfl rfl rfl (fun _ => rfl) hl)
  | crash f =>
    obtain ⟨-, hnow⟩ := Prod.mk.inj (Option.some.inj hperform)
    exact Or.inl ⟨f, hl, hnow ▸ rfl⟩
  | halt => cases hperform
  | _ =>
    obtain ⟨-, hnow⟩ := Prod.mk.inj (Option.some.inj hperform)
    rw [← hnow] at hquiet ⊢
    exact Or.inr (hquiet rfl rfl rfl)

lemma unlocks (h : Taken steady ms t o r m m') (p : PID) : m'.now.unlocks p < 2 ^ 56 := by
  have ha := h.assumed
  obtain ⟨c, hperform⟩ := h.perform
  have hsame : m'.now.unlocks p = m.now.unlocks p → m'.now.unlocks p < 2 ^ 56 :=
    fun heq => heq ▸ h.inv.unlocks p
  by_cases ho : o.Latching
  · cases o with
    | cas site q old new =>
      simp only [Sys.perform] at hperform
      split at hperform <;>
        (obtain ⟨-, hnow⟩ := Prod.mk.inj (Option.some.inj hperform)
         exact hsame (congrArg (fun s => s.unlocks p) hnow.symm))
    | storeUnlocked q v =>
      obtain ⟨-, hnow⟩ := Prod.mk.inj (Option.some.inj hperform)
      by_cases hp : p = q
      · subst hp
        rw [← hnow]
        change Function.update m.now.unlocks p (m.now.unlocks p + 1) p < 2 ^ 56
        rw [Function.update_self, ← h.inv.version p]
        exact ha
      · exact hsame (by rw [← hnow]; exact Function.update_of_ne hp _ _)
    | nextPid =>
      obtain ⟨-, hnow⟩ := Prod.mk.inj (Option.some.inj hperform)
      exact hsame (by rw [← hnow])
    | residentInsert q =>
      obtain ⟨-, hnow⟩ := Prod.mk.inj (Option.some.inj hperform)
      refine hsame ?_
      rw [← hnow]
      unfold Sys.residentInsert
      split <;> rfl
    | _ => exact ho.elim
  · exact hsame (congrFun (sameLatches_perform ho hperform).unlocks p)

/-- The invariant after a legal operation. -/
theorem inv_after (h : Taken steady ms t o r m m') : Over m' ∨
    (Inv m' ∧ Protocol m'.past (Function.update ms t ((ms t).next o r)) m'.now) := by
  refine h.inOrder.imp id (fun hi => ?_)
  obtain ⟨c, hperform⟩ := h.perform
  have hprotocol : Protocol m'.past (Function.update ms t ((ms t).next o r)) m'.now :=
    h.past ▸ h.protocol.step h.disciplined hperform h.timely hi.crashed
  refine ⟨⟨hi.crashed, h.unlocks, ⟨_, hprotocol⟩, hi.tree, ?_, h.given h.inv.metadata,
    hi.contents, hi.honest⟩, hprotocol⟩
  intro p l hp
  by_cases hmem : p ∈ o.touched
  · exact h.given (h.inv.given_of_mem (h.touched hmem))
  · have hsame := congrArg Sight.level (sight_perform hperform hmem)
    exact h.given (h.inv.given p l (hsame.symm.trans hp))

end Taken

/-- The threads obey their monitors, which stand in the relation of the protocol to the run. -/
def Watched (cfg : Config signature OLCRestart (Point τ) τ) : Prop :=
  Monitored discipline (fun ms (m : Point τ) => Protocol m.past ms m.now) cfg

/-- Legal operations of threads that keep the discipline. -/
theorem sound (steady : Prop) :
    (alliance steady).Sound (recording (exec (τ := τ))) Watched Over := by
  intro cfg t c o k r m' hwatched hinv hprog hlegal hassumed hexec
  obtain ⟨ms, hprotocol, hobeys⟩ := hwatched
  obtain ⟨hexec, hpast⟩ := recording_eq_some.mp hexec
  have ht := hobeys t
  rw [hprog] at ht
  have htaken : Taken steady ms t o r cfg.shared m' :=
    ⟨hinv, hprotocol, ht.1, hlegal, hassumed, ⟨c, (perform_of_exec hexec).2⟩, hpast⟩
  refine htaken.inv_after.imp id ?_
  rintro ⟨hinv', hprotocol'⟩
  refine ⟨hinv', htaken.advance, fun u hu => htaken.spare hu, _, hprotocol', fun u => ?_⟩
  dsimp only
  by_cases hu : u = t
  · subst hu
    have hanswer : discipline.answer (ms u) o r := by
      cases o with
      | nextPid =>
        obtain ⟨rfl, -⟩ := Prod.mk.inj (Option.some.inj (perform_of_exec hexec).2)
        exact hprotocol.alloc.ne'
      | _ => trivial
    rw [Function.update_self, Function.update_self]
    exact ht.2 r hanswer
  · rw [Function.update_of_ne hu, Function.update_of_ne hu]
    exact hobeys u

end Point

end MemSafeDB
