import MemSafeDB.Lib.History
import MemSafeDB.System.Restarts

/-!
# The latch protocol

In every interleaving the state of a latch word tells who holds the page, and its version counts
the exclusive unlocks, as long as no thread latches a page before `allocPage` has done so. An
optimistic reader whose check succeeds has not overlooked an exclusive holder.
-/

namespace MemSafeDB
open Lib PageState

variable {τ : Type}

/-! ## What has been done -/

abbrev Act (τ : Type) := Action signature τ

/-- Thread `t` has drawn the page id. -/
def Drew (past : List (Act τ)) (t : τ) (p : PID) : Prop := (⟨t, Op.nextPid, p⟩ : Act τ) ∈ past

/-- Thread `t` has latched the page exclusively. -/
def Latched (past : List (Act τ)) (t : τ) (p : PID) : Prop :=
  ∃ old new, (⟨t, Op.cas .lockX p old new, true⟩ : Act τ) ∈ past

/-- The thread that has drawn the page id has latched the page. -/
def GivenOut (past : List (Act τ)) (p : PID) : Prop := ∃ t, Drew past t p ∧ Latched past t p

/-- Apart from the metadata page, only pages are latched that `allocPage` has latched first. -/
def Timely (past : List (Act τ)) : Act τ → Prop
  | ⟨t, .cas _ p _ _, ok⟩ =>
    (ok : Bool) = true → p = metadataPageId ∨ GivenOut past p ∨ Drew past t p
  | _ => True

/-- The action puts the page into the resident set. -/
def Inserts (a : Act τ) (p : PID) : Prop := a.op = .residentInsert p

section Past

variable {past : List (Act τ)} {a : Act τ} {t : τ} {p : PID}

lemma drew_cons (h : a.op ≠ .nextPid) : Drew (a :: past) t p ↔ Drew past t p := by
  rw [Drew, List.mem_cons]
  refine or_iff_right ?_
  rintro rfl
  exact h rfl

lemma latched_cons (h : ∀ old new, a ≠ ⟨t, .cas .lockX p old new, true⟩) :
    Latched (a :: past) t p ↔ Latched past t p := by
  unfold Latched
  simp only [List.mem_cons]
  constructor
  · rintro ⟨old, new, ha | hold⟩
    · exact absurd ha.symm (h old new)
    · exact ⟨old, new, hold⟩
  · rintro ⟨old, new, hold⟩
    exact ⟨old, new, Or.inr hold⟩

lemma Latched.cons (h : Latched past t p) (a : Act τ) : Latched (a :: past) t p := by
  obtain ⟨old, new, h⟩ := h
  exact ⟨old, new, List.mem_cons_of_mem a h⟩

lemma GivenOut.cons (h : GivenOut past p) (a : Act τ) : GivenOut (a :: past) p := by
  obtain ⟨t, hdrew, hlatched⟩ := h
  exact ⟨t, List.mem_cons_of_mem a hdrew, hlatched.cons a⟩

end Past

/-! ## The word of a page -/

/-- How a page is held, and the state of its word then. -/
inductive Sys.Held (s : Sys τ) (p : PID) : Prop where
  | locked (t : τ) (hstate : getState (s.word p) = Locked) (hx : s.xHolders p = [t])
      (hs : s.sHolders p = [])
  | shared (hstate : getState (s.word p) = (s.sHolders p).length)
      (hle : (s.sHolders p).length ≤ MaxShared) (hx : s.xHolders p = [])
  | marked (hstate : getState (s.word p) = Marked) (hx : s.xHolders p = [])
      (hs : s.sHolders p = [])
  | evicted (hstate : getState (s.word p) = Evicted) (hx : s.xHolders p = [])
      (hs : s.sHolders p = [])

namespace Sys.Held

variable {s s' : Sys τ} {p : PID} {t : τ}

lemma congr (h : s.Held p) (hword : s'.word p = s.word p) (hx : s'.xHolders p = s.xHolders p)
    (hs : s'.sHolders p = s.sHolders p) : s'.Held p := by
  cases h with
  | locked t hstate hx' hs' => exact locked t (hword ▸ hstate) (hx.trans hx') (hs.trans hs')
  | shared hstate hle hx' =>
    exact shared (by rw [hword, hs, hstate]) (by rwa [hs]) (hx.trans hx')
  | marked hstate hx' hs' => exact marked (hword ▸ hstate) (hx.trans hx') (hs.trans hs')
  | evicted hstate hx' hs' => exact evicted (hword ▸ hstate) (hx.trans hx') (hs.trans hs')

lemma of_mem (h : s.Held p) (ht : t ∈ s.xHolders p) :
    getState (s.word p) = Locked ∧ s.xHolders p = [t] ∧ s.sHolders p = [] := by
  cases h with
  | locked u hstate hx hs =>
    rw [hx, List.mem_singleton] at ht
    subst ht
    exact ⟨hstate, hx, hs⟩
  | shared _ _ hx => rw [hx] at ht; cases ht
  | marked _ hx _ => rw [hx] at ht; cases ht
  | evicted _ hx _ => rw [hx] at ht; cases ht

lemma free (h : s.Held p) (hstate : getState (s.word p) ≠ Locked) : s.xHolders p = [] := by
  cases h with
  | locked _ hlocked _ _ => exact absurd hlocked hstate
  | shared _ _ hx => exact hx
  | marked _ hx _ => exact hx
  | evicted _ hx _ => exact hx

lemma counted (h : s.Held p) (hle : getState (s.word p) ≤ MaxShared) :
    getState (s.word p) = (s.sHolders p).length ∧ s.xHolders p = [] := by
  cases h with
  | locked _ hstate _ _ => rw [hstate] at hle; exact absurd hle (by decide)
  | shared hstate _ hx => exact ⟨hstate, hx⟩
  | marked hstate _ _ => rw [hstate] at hle; exact absurd hle (by decide)
  | evicted hstate _ _ => rw [hstate] at hle; exact absurd hle (by decide)

/-- A page whose word is unlocked, marked or evicted has no holders. -/
lemma of_lockable (h : s.Held p) (hv : Lockable (s.word p)) :
    s.xHolders p = [] ∧ s.sHolders p = [] := by
  cases h with
  | locked _ hstate _ _ =>
    rw [Lockable, hstate] at hv
    exact absurd hv (by decide)
  | shared hstate hle hx =>
    refine ⟨hx, ?_⟩
    rw [Lockable, hstate] at hv
    rcases hv with h | h | h
    · exact List.length_eq_zero_iff.mp h
    · rw [h] at hle
      exact absurd hle (by decide)
    · rw [h] at hle
      exact absurd hle (by decide)
  | marked _ hx hs => exact ⟨hx, hs⟩
  | evicted _ hx hs => exact ⟨hx, hs⟩

end Sys.Held

/-! ## The invariant -/

/-- What the history, the threads and the shared state have to do with one page. -/
structure PageInv (past : List (Act τ)) (ms : τ → Local) (s : Sys τ) (p : PID) : Prop where
  held : s.unlocks p < 2 ^ 56 → s.Held p
  version : s.unlocks p < 2 ^ 56 → PageState.version (s.word p) = s.unlocks p
  /-- nobody has done anything with an evicted page -/
  evicted : getState (s.word p) = Evicted → s.resident p = false ∧ s.unlocks p = 0
  untouched : p ≠ metadataPageId → ¬GivenOut past p → getState (s.word p) = Evicted
  /-- an exclusive holder has loaded the word since it took the latch -/
  loaded : ∀ t w, (ms t).loaded = some (p, w) → p ∈ (ms t).core.x → s.unlocks p < 2 ^ 56 →
    w = s.word p
  drawn : ∀ t, (ms t).drawn = some p → Drew past t p ∧ ¬Latched past t p
  entering : ∀ t, (ms t).entering = some p → p ∈ (ms t).core.x →
    Latched past t p ∧ s.resident p = false ∧ s.unlocks p = 0
  inserted : s.resident p = false → ∀ a ∈ past, ¬Inserts a p

/-- The action has nothing to do with the page. -/
structure Unmoved (past past' : List (Act τ)) (ms ms' : τ → Local) (s s' : Sys τ) (p : PID) :
    Prop where
  word : s'.word p = s.word p
  xHolders : s'.xHolders p = s.xHolders p
  sHolders : s'.sHolders p = s.sHolders p
  unlocks : s'.unlocks p = s.unlocks p
  resident : s'.resident p = s.resident p
  drew : ∀ t, Drew past' t p ↔ Drew past t p
  latched : ∀ t, Latched past' t p ↔ Latched past t p
  inserts : ∀ a ∈ past', Inserts a p → a ∈ past
  loaded : ∀ t w, (ms' t).loaded = some (p, w) → (ms t).loaded = some (p, w) ∨ w = s.word p
  drawn : ∀ t, (ms' t).drawn = some p → (ms t).drawn = some p
  entering : ∀ t, (ms' t).entering = some p → (ms t).entering = some p
  exclusive : ∀ t, p ∈ (ms' t).core.x → p ∈ (ms t).core.x

lemma PageInv.unmoved {past past' : List (Act τ)} {ms ms' : τ → Local} {s s' : Sys τ} {p : PID}
    (h : PageInv past ms s p) (hu : Unmoved past past' ms ms' s s' p) : PageInv past' ms' s' p := by
  have hallocated : GivenOut past' p ↔ GivenOut past p := by
    simp only [GivenOut, hu.drew, hu.latched]
  constructor
  · rw [hu.unlocks]
    exact fun hlt => (h.held hlt).congr hu.word hu.xHolders hu.sHolders
  · rw [hu.unlocks, hu.word]
    exact h.version
  · rw [hu.word, hu.resident, hu.unlocks]
    exact h.evicted
  · rw [hallocated, hu.word]
    exact h.untouched
  · intro t w hloaded hx hlt
    rw [hu.unlocks] at hlt
    rw [hu.word]
    rcases hu.loaded t w hloaded with hold | rfl
    · exact h.loaded t w hold (hu.exclusive t hx) hlt
    · rfl
  · intro t hdrawn
    rw [hu.drew, hu.latched]
    exact h.drawn t (hu.drawn t hdrawn)
  · intro t hentering hx
    rw [hu.latched, hu.resident, hu.unlocks]
    exact h.entering t (hu.entering t hentering) (hu.exclusive t hx)
  · intro hresident a ha hinserts
    rw [hu.resident] at hresident
    exact h.inserted hresident a (hu.inserts a ha hinserts) hinserts

variable [DecidableEq τ]

/-- The invariant of the protocol. -/
structure Protocol (past : List (Act τ)) (ms : τ → Local) (s : Sys τ) : Prop where
  alloc : metadataPageId < s.allocCount
  tracks : ∀ t, Tracks t (ms t).core s
  page : ∀ p, PageInv past ms s p
  drew : ∀ t p, Drew past t p → p ≠ metadataPageId ∧ p < s.allocCount ∧ ∀ u, Drew past u p → u = t
  latched : ∀ t p, Latched past t p → p = metadataPageId ∨ ∃ u, Drew past u p

namespace Protocol

variable {past : List (Act τ)} {ms : τ → Local} {s : Sys τ} {t : τ} {p : PID}

lemma mem_xHolders (h : Protocol past ms s) (hx : p ∈ (ms t).core.x) : t ∈ s.xHolders p := by
  rw [← List.count_pos_iff, (h.tracks t).exclusive]
  exact Multiset.count_pos.mpr hx

lemma mem_sHolders (h : Protocol past ms s) (hs : p ∈ (ms t).core.s) : t ∈ s.sHolders p := by
  rw [← List.count_pos_iff, (h.tracks t).shared]
  exact Multiset.count_pos.mpr hs

/-- A page that a thread holds exclusively. -/
lemma of_mem (h : Protocol past ms s) (hx : p ∈ (ms t).core.x) (hlt : s.unlocks p < 2 ^ 56) :
    getState (s.word p) = Locked ∧ s.xHolders p = [t] ∧ s.sHolders p = [] :=
  ((h.page p).held hlt).of_mem (h.mem_xHolders hx)

/-- No thread holds a page exclusively whose word is not locked. -/
lemma notMem_x (h : Protocol past ms s) (hstate : getState (s.word p) ≠ Locked)
    (hlt : s.unlocks p < 2 ^ 56) (u : τ) : p ∉ (ms u).core.x := by
  intro hx
  exact hstate (h.of_mem hx hlt).1

lemma drawn_evicted (h : Protocol past ms s) (hdrawn : (ms t).drawn = some p) :
    getState (s.word p) = Evicted := by
  obtain ⟨hdrew, hlatched⟩ := (h.page p).drawn t hdrawn
  obtain ⟨hne, -, hunique⟩ := h.drew t p hdrew
  refine (h.page p).untouched hne ?_
  rintro ⟨u, hu, hlatched'⟩
  obtain rfl := hunique u hu
  exact hlatched hlatched'

end Protocol

/-! ## One operation -/

/-- The operations that concern latches, the allocation counter or the resident set. -/
def Op.Latching : Op → Prop
  | .cas _ _ _ _ | .storeUnlocked _ _ | .nextPid | .residentInsert _ => True
  | _ => False

/-- The latches, the allocation counter and the resident set are the same. -/
structure SameLatches (s s' : Sys τ) : Prop where
  word : s'.word = s.word
  xHolders : s'.xHolders = s.xHolders
  sHolders : s'.sHolders = s.sHolders
  unlocks : s'.unlocks = s.unlocks
  resident : s'.resident = s.resident
  allocCount : s'.allocCount = s.allocCount

section Step

variable {past : List (Act τ)} {ms : τ → Local} {s s' : Sys τ} {t : τ} {p : PID} {c : Choice} {o : Op}

omit [DecidableEq τ] in
lemma SameLatches.refl (s : Sys τ) : SameLatches s s := ⟨rfl, rfl, rfl, rfl, rfl, rfl⟩

omit [DecidableEq τ] in
lemma SameLatches.setPage (h : SameLatches s s') (p : PID) (n : BTreeNode) :
    SameLatches s (s'.setPage p n) :=
  ⟨h.word, h.xHolders, h.sHolders, h.unlocks, h.resident, h.allocCount⟩

omit [DecidableEq τ] in
lemma SameLatches.setLevel (h : SameLatches s s') (p : PID) (l : Option Nat) :
    SameLatches s (s'.setLevel p l) :=
  ⟨h.word, h.xHolders, h.sHolders, h.unlocks, h.resident, h.allocCount⟩

omit [DecidableEq τ] in
lemma SameLatches.record (h : SameLatches s s') (e : Event τ) : SameLatches s (s'.record e) :=
  ⟨h.word, h.xHolders, h.sHolders, h.unlocks, h.resident, h.allocCount⟩

lemma SameLatches.change (h : SameLatches s s') (t : τ) : SameLatches s (s'.change t) :=
  ⟨h.word, h.xHolders, h.sHolders, h.unlocks, h.resident, h.allocCount⟩

lemma sameLatches_perform (ho : ¬o.Latching) {rs : o.Res × Sys τ}
    (h : Sys.perform t c o s = some rs) : SameLatches s rs.2 := by
  have hcrash : ∀ f, SameLatches s (s.crash f) := fun _ => ⟨rfl, rfl, rfl, rfl, rfl, rfl⟩
  have hsame := SameLatches.refl s
  cases o with
  | cas site p old new => exact absurd trivial ho
  | storeUnlocked p v => exact absurd trivial ho
  | nextPid => exact absurd trivial ho
  | residentInsert p => exact absurd trivial ho
  | construct p isLeaf => obtain rfl := Option.some.inj h; exact (hsame.setPage _ _).change t
  | setUpperInnerNode p q => obtain rfl := Option.some.inj h; exact (hsame.setPage _ _).change t
  | setRoot p =>
    obtain rfl := Option.some.inj h
    have hroot : SameLatches s { s with root := p } := ⟨rfl, rfl, rfl, rfl, rfl, rfl⟩
    exact (hroot.setLevel p (s.rootLevel p)).change t
  | insertInPage p key payload =>
    obtain rfl := Option.some.inj h
    change SameLatches s (s.insertInPage t p key payload)
    unfold Sys.insertInPage
    split
    · exact ((hsame.setPage _ _).record _).change t
    · exact hcrash _
  | removeSlot p slotId =>
    obtain rfl := Option.some.inj h
    exact ((hsame.setPage _ _).record _).change t
  | updatePayload p slotId fn =>
    obtain rfl := Option.some.inj h
    change SameLatches s (s.updatePayload t p slotId fn)
    unfold Sys.updatePayload
    split
    · exact ((hsame.setPage _ _).record _).change t
    · exact hcrash _
  | mergeNodes p slotId parent right =>
    obtain rfl := Option.some.inj h
    change SameLatches s (s.mergeNodes t p slotId parent right).2
    unfold Sys.mergeNodes
    split
    · exact (((hsame.setPage _ _).setPage _ _).setLevel _ _).change t
    · exact hsame
    · exact hcrash _
  | splitNode p newPID parent sepSlot sep =>
    obtain rfl := Option.some.inj h
    change SameLatches s (s.splitNode t p newPID parent sepSlot sep)
    unfold Sys.splitNode
    split
    · exact ((((hsame.setPage _ _).setPage _ _).setPage _ _).setLevel _ _).change t
    · exact hcrash _
  | crash f => obtain rfl := Option.some.inj h; exact hcrash f
  | halt => cases h
  | _ => obtain rfl := Option.some.inj h; exact ⟨rfl, rfl, rfl, rfl, rfl, rfl⟩

/-- An operation that does not concern latches changes nothing that the thread knows of them, but
for the word that it loads. -/
lemma next_of_not_latching (ho : ¬o.Latching) {r : o.Res} (h : Sys.perform t c o s = some (r, s'))
    (m : Local) : (m.next o r).core.x = m.core.x ∧ (m.next o r).drawn = m.drawn ∧
      (m.next o r).entering = m.entering ∧
        ∀ p w, (m.next o r).loaded = some (p, w) → m.loaded = some (p, w) ∨ w = s.word p := by
  cases o with
  | cas site p old new => exact absurd trivial ho
  | storeUnlocked p v => exact absurd trivial ho
  | nextPid => exact absurd trivial ho
  | residentInsert p => exact absurd trivial ho
  | load site p =>
    obtain ⟨rfl, -⟩ := Prod.mk.inj (Option.some.inj h)
    cases site with
    | other =>
      refine ⟨rfl, rfl, rfl, ?_⟩
      intro q w hloaded
      obtain ⟨rfl, rfl⟩ := Prod.mk.inj (Option.some.inj hloaded)
      exact Or.inr rfl
    | _ => exact ⟨rfl, rfl, rfl, fun _ _ => Or.inl⟩
  | mergeNodes p slotId parent right =>
    cases r <;> exact ⟨rfl, rfl, rfl, fun _ _ => Or.inl⟩
  | _ => exact ⟨rfl, rfl, rfl, fun _ _ => Or.inl⟩

/-- What an action does not change of what the threads know. -/
lemma update_field {β : Type} (f : Local → β) (ms : τ → Local) (t : τ) (m' : Local)
    (h : f m' = f (ms t)) (u : τ) : f (Function.update ms t m' u) = f (ms u) := by
  by_cases hu : u = t
  · subst hu
    rw [Function.update_self, h]
  · rw [Function.update_of_ne hu]

/-- What has to be shown of an action that has nothing to do with a page. -/
lemma Unmoved.step {a : Act τ} {m' : Local} (hword : s'.word p = s.word p)
    (hx : s'.xHolders p = s.xHolders p) (hs : s'.sHolders p = s.sHolders p)
    (hunlocks : s'.unlocks p = s.unlocks p) (hresident : s'.resident p = s.resident p)
    (hdrew : ∀ u, Drew (a :: past) u p ↔ Drew past u p)
    (hlatched : ∀ u, Latched (a :: past) u p ↔ Latched past u p) (hinserts : ¬Inserts a p)
    (hloaded : ∀ w, m'.loaded = some (p, w) → (ms t).loaded = some (p, w) ∨ w = s.word p)
    (hdrawn : m'.drawn = some p → (ms t).drawn = some p)
    (hentering : m'.entering = some p → (ms t).entering = some p)
    (hcore : p ∈ m'.core.x → p ∈ (ms t).core.x) :
    Unmoved past (a :: past) ms (Function.update ms t m') s s' p := by
  refine ⟨hword, hx, hs, hunlocks, hresident, hdrew, hlatched, ?_, ?_, ?_, ?_, ?_⟩
  · intro b hb hinsertsb
    refine (List.mem_cons.mp hb).resolve_left ?_
    rintro rfl
    exact hinserts hinsertsb
  all_goals
    intro u
    by_cases hu : u = t
    · subst hu
      rw [Function.update_self]
      assumption
    · rw [Function.update_of_ne hu]
      first | exact fun _ => Or.inl | exact id

lemma Protocol.page_quiet (h : Protocol past ms s) (ho : ¬o.Latching) {r : o.Res}
    (hexec : Sys.perform t c o s = some (r, s')) (p : PID) :
    PageInv (⟨t, o, r⟩ :: past) (Function.update ms t ((ms t).next o r)) s' p := by
  have hs := sameLatches_perform ho hexec
  obtain ⟨hx, hdrawn, hentering, hloaded⟩ := next_of_not_latching ho hexec (ms t)
  refine (h.page p).unmoved (Unmoved.step (congrFun hs.word p) (congrFun hs.xHolders p)
    (congrFun hs.sHolders p) (congrFun hs.unlocks p) (congrFun hs.resident p) (fun u => ?_)
    (fun u => ?_) ?_ (hloaded p) ?_ ?_ ?_)
  · refine drew_cons ?_
    rintro rfl
    exact ho trivial
  · refine latched_cons (fun old new heq => ?_)
    cases heq
    exact ho trivial
  · intro hinserts
    obtain rfl : o = .residentInsert p := hinserts
    exact ho trivial
  · rw [hdrawn]
    exact id
  · rw [hentering]
    exact id
  · rw [hx]
    exact id

/-- What a compare-exchange leaves of the latches of another page. -/
lemma Sys.cas_other (s : Sys τ) (t : τ) (site : CasSite) {p q : PID} (new : Word) (hq : q ≠ p) :
    (s.cas t site p new).word q = s.word q ∧ (s.cas t site p new).xHolders q = s.xHolders q ∧
      (s.cas t site p new).sHolders q = s.sHolders q := by
  cases site with
  | lockX => exact ⟨Function.update_of_ne hq _ _, Function.update_of_ne hq _ _, rfl⟩
  | lockS => exact ⟨Function.update_of_ne hq _ _, rfl, Function.update_of_ne hq _ _⟩
  | unlockS => exact ⟨Function.update_of_ne hq _ _, rfl, Function.update_of_ne hq _ _⟩
  | unmark => exact ⟨Function.update_of_ne hq _ _, rfl, rfl⟩

lemma Sys.cas_word (s : Sys τ) (t : τ) (site : CasSite) (p : PID) (new : Word) :
    (s.cas t site p new).word p = new := by
  cases site <;> exact Function.update_self p new s.word

/-- What a thread knows of another page after a compare-exchange. -/
lemma next_cas_other (m : Local) (site : CasSite) {p q : PID} (old new : Word) (hq : q ≠ p) :
    (∀ w, (m.next (.cas site p old new) true).loaded = some (q, w) → m.loaded = some (q, w)) ∧
      ((m.next (.cas site p old new) true).drawn = some q → m.drawn = some q) ∧
      ((m.next (.cas site p old new) true).entering = some q → m.entering = some q) ∧
      (q ∈ (m.next (.cas site p old new) true).core.x → q ∈ m.core.x) := by
  cases site with
  | lockX =>
    refine ⟨?_, ?_, fun hentering => ?_, fun hx => ?_⟩
    · intro w hloaded
      cases hloaded
    · intro hdrawn
      cases hdrawn
    · change (if _ then some p else none) = some q at hentering
      split at hentering
      · exact absurd (Option.some.inj hentering).symm hq
      · cases hentering
    · exact (Multiset.mem_cons.mp hx).resolve_left hq
  | _ => exact ⟨fun _ => id, id, id, id⟩

/-- A compare-exchange of another page. -/
lemma Protocol.page_cas_other (h : Protocol past ms s) {site : CasSite} {p q : PID} {old new : Word}
    (hq : q ≠ p) : PageInv (⟨t, .cas site p old new, true⟩ :: past)
      (Function.update ms t ((ms t).next (.cas site p old new) true)) (s.cas t site p new) q := by
  obtain ⟨hword, hx, hs⟩ := s.cas_other t site new hq
  obtain ⟨hloaded, hdrawn, hentering, hcore⟩ := next_cas_other (ms t) site old new hq
  refine (h.page q).unmoved (Unmoved.step hword hx hs rfl rfl (fun u => drew_cons Op.noConfusion)
    (fun u => latched_cons (fun _ _ heq => ?_)) Op.noConfusion (fun w hw => Or.inl (hloaded w hw))
    hdrawn hentering hcore)
  cases heq
  exact hq rfl

/-- A thread that latches a page exclusively finds it without holders. -/
lemma Protocol.lockable (h : Protocol past ms s) {old new : Word}
    (hfits : CasSite.lockX.Fits (ms t) p old new) (hold : s.word p = old) : Lockable (s.word p) := by
  rcases hfits.2 with hlockable | hdrawn
  · rwa [hold]
  · exact Or.inr (Or.inr (h.drawn_evicted hdrawn))

lemma getState_lockX {old new : Word} {m : Local} (hfits : CasSite.lockX.Fits m p old new) :
    getState new = Locked := by
  rw [hfits.1]
  exact getState_sameVersion old (by decide)

lemma Lockable.ne_locked {v : Word} (hv : Lockable v) : getState v ≠ Locked := by
  intro hlocked
  rw [Lockable, hlocked] at hv
  exact absurd hv (by decide)

/-- The page that a thread latches exclusively. -/
lemma Protocol.page_lockX (h : Protocol past ms s) {old new : Word}
    (hfits : CasSite.lockX.Fits (ms t) p old new) (hold : s.word p = old)
    (htimely : p = metadataPageId ∨ GivenOut past p ∨ Drew past t p) :
    PageInv (⟨t, .cas .lockX p old new, true⟩ :: past)
      (Function.update ms t ((ms t).next (.cas .lockX p old new) true)) (s.cas t .lockX p new) p := by
  have hp := h.page p
  have hlockable := h.lockable hfits hold
  have hlocked : getState ((s.cas t .lockX p new).word p) = Locked := by
    rw [Sys.cas_word]
    exact getState_lockX hfits
  have hmine : Latched (⟨t, .cas .lockX p old new, true⟩ :: past) t p :=
    ⟨old, new, List.mem_cons_self⟩
  -- no other thread has the page
  have hother : ∀ u, p ∈ (ms u).core.x → s.unlocks p < 2 ^ 56 → False :=
    fun u hx hlt => h.notMem_x hlockable.ne_locked hlt u hx
  constructor
  · intro hlt
    obtain ⟨hx, hs⟩ := (hp.held hlt).of_lockable hlockable
    refine .locked t hlocked ?_ hs
    change Function.update s.xHolders p (t :: s.xHolders p) p = [t]
    rw [Function.update_self, hx]
  · intro hlt
    rw [Sys.cas_word, hfits.1, version_sameVersion _ (by decide), ← hold]
    exact hp.version hlt
  · intro hevicted
    rw [hlocked] at hevicted
    exact absurd hevicted (by decide)
  · intro hne hallocated
    refine absurd ?_ hallocated
    rcases htimely with heq | hold | hdrew
    · exact absurd heq hne
    · exact hold.cons _
    · exact ⟨t, List.mem_cons_of_mem _ hdrew, hmine⟩
  · intro u w hloaded hx hlt
    by_cases hu : u = t
    · subst hu
      rw [Function.update_self] at hloaded
      cases hloaded
    · rw [Function.update_of_ne hu] at hx
      exact (hother u hx hlt).elim
  · intro u hdrawn
    by_cases hu : u = t
    · subst hu
      rw [Function.update_self] at hdrawn
      cases hdrawn
    · rw [Function.update_of_ne hu] at hdrawn
      obtain ⟨hdrew, hlatched⟩ := hp.drawn u hdrawn
      refine ⟨List.mem_cons_of_mem _ hdrew, ?_⟩
      rwa [latched_cons (fun _ _ heq => hu (congrArg Action.thread heq).symm)]
  · intro u hentering hx
    by_cases hu : u = t
    · subst hu
      rw [Function.update_self] at hentering
      change (if _ then some p else none) = some p at hentering
      split at hentering
      · have hevicted : getState (s.word p) = Evicted := by
          rename_i hnew
          rcases hnew with hstate | hdrawn
          · rwa [hold]
          · exact h.drawn_evicted hdrawn
        exact ⟨hmine, hp.evicted hevicted⟩
      · cases hentering
    · rw [Function.update_of_ne hu] at hentering hx
      obtain ⟨hlatched, hrest⟩ := hp.entering u hentering hx
      exact ⟨hlatched.cons _, hrest⟩
  · intro hresident a ha hinserts
    rcases List.mem_cons.mp ha with rfl | ha
    · cases hinserts
    · exact hp.inserted hresident a ha hinserts

/-- A compare-exchange of a page that is neither locked nor evicted, which takes no exclusive
latch. -/
lemma Protocol.page_cas_shared (h : Protocol past ms s) {site : CasSite} {old new : Word}
    (hsite : site ≠ .lockX) (hold : s.word p = old)
    (hlocked : getState old ≠ Locked) (hevicted : getState old ≠ Evicted)
    (hnew : getState new ≠ Evicted) (hversion : PageState.version new = PageState.version old)
    (hheld : s.Held p → (s.cas t site p new).Held p) :
    PageInv (⟨t, .cas site p old new, true⟩ :: past)
      (Function.update ms t ((ms t).next (.cas site p old new) true)) (s.cas t site p new) p := by
  have hp := h.page p
  have hnext : ∀ u, let m := Function.update ms t ((ms t).next (.cas site p old new) true) u
      m.loaded = (ms u).loaded ∧ m.drawn = (ms u).drawn ∧ m.entering = (ms u).entering ∧
        m.core.x = (ms u).core.x := by
    intro u
    by_cases hu : u = t
    · subst hu
      simp only [Function.update_self]
      cases site with
      | lockX => exact absurd rfl hsite
      | _ => exact ⟨rfl, rfl, rfl, rfl⟩
    · simp only [Function.update_of_ne hu, and_self]
  have hdrew : ∀ u, Drew (⟨t, .cas site p old new, true⟩ :: past) u p ↔ Drew past u p :=
    fun u => drew_cons Op.noConfusion
  have hlatched : ∀ u, Latched (⟨t, .cas site p old new, true⟩ :: past) u p ↔ Latched past u p := by
    refine fun u => latched_cons (fun _ _ heq => ?_)
    cases heq
    exact hsite rfl
  constructor
  · exact fun hlt => hheld (hp.held hlt)
  · intro hlt
    rw [Sys.cas_word, hversion, ← hold]
    exact hp.version hlt
  · rw [Sys.cas_word]
    exact fun h => absurd h hnew
  · intro hne hallocated
    rw [← hold] at hevicted
    refine absurd (hp.untouched hne (fun hold => hallocated (hold.cons _))) hevicted
  · intro u w _ hx hlt
    rw [(hnext u).2.2.2] at hx
    rw [← hold] at hlocked
    exact absurd hx (h.notMem_x hlocked hlt u)
  · intro u
    rw [(hnext u).2.1, hdrew, hlatched]
    exact hp.drawn u
  · intro u
    rw [(hnext u).2.2.1, (hnext u).2.2.2, hlatched]
    exact hp.entering u
  · intro hresident a ha hinserts
    rcases List.mem_cons.mp ha with rfl | ha
    · cases hinserts
    · exact hp.inserted hresident a ha hinserts

lemma states : MaxShared = 252 ∧ Locked = 253 ∧ Marked = 254 ∧ Evicted = 255 :=
  ⟨rfl, rfl, rfl, rfl⟩

/-- The page whose latch is taken in shared mode. -/
lemma Protocol.page_lockS (h : Protocol past ms s) {old new : Word}
    (hfits : CasSite.lockS.Fits (ms t) p old new) (hold : s.word p = old) :
    PageInv (⟨t, .cas .lockS p old new, true⟩ :: past)
      (Function.update ms t ((ms t).next (.cas .lockS p old new) true)) (s.cas t .lockS p new) p := by
  have hstates := states
  have hholders : (s.cas t .lockS p new).sHolders p = t :: s.sHolders p := by
    change Function.update s.sHolders p (t :: s.sHolders p) p = _
    rw [Function.update_self]
  rcases hfits with ⟨hlt, rfl⟩ | ⟨hmarked, rfl⟩
  · have hstate : getState (sameVersion old (getState old + 1)) = getState old + 1 :=
      getState_sameVersion old (by omega)
    refine h.page_cas_shared (by decide) hold (by omega) (by omega) (by omega)
      (version_sameVersion old (by omega)) (fun hheld => ?_)
    have hcounted := hheld.counted (hold.symm ▸ hlt.le)
    rw [hold] at hcounted
    refine .shared ?_ ?_ hcounted.2
    · rw [Sys.cas_word, hstate, hholders, hcounted.1]
      rfl
    · rw [hholders, List.length_cons, ← hcounted.1]
      omega
  · have hstate : getState (sameVersion old 1) = 1 := getState_sameVersion old (by decide)
    refine h.page_cas_shared (by decide) hold (by omega) (by omega) (by omega)
      (version_sameVersion old (by decide)) (fun hheld => ?_)
    obtain ⟨hx, hs⟩ := hheld.of_lockable (Or.inr (Or.inl (hold.symm ▸ hmarked)))
    refine .shared ?_ ?_ hx
    · rw [Sys.cas_word, hstate, hholders, hs]
      rfl
    · rw [hholders, hs]
      exact Nat.le_add_left 1 251

lemma Protocol.page_unlockS (h : Protocol past ms s) {old new : Word}
    (hfits : CasSite.unlockS.Fits (ms t) p old new) (hold : s.word p = old) :
    PageInv (⟨t, .cas .unlockS p old new, true⟩ :: past)
      (Function.update ms t ((ms t).next (.cas .unlockS p old new) true))
      (s.cas t .unlockS p new) p := by
  obtain ⟨hmem, ⟨hpos, hle⟩, rfl⟩ := hfits
  have hmem := h.mem_sHolders hmem
  have hstates := states
  have hholders : (s.cas t .unlockS p (sameVersion old (getState old - 1))).sHolders p =
      (s.sHolders p).erase t := by
    change Function.update s.sHolders p ((s.sHolders p).erase t) p = _
    rw [Function.update_self]
  have hstate : getState (sameVersion old (getState old - 1)) = getState old - 1 :=
    getState_sameVersion old (by omega)
  refine h.page_cas_shared (by decide) hold (by omega) (by omega) (by omega)
    (version_sameVersion old (by omega)) (fun hheld => ?_)
  have hcounted := hheld.counted (hold.symm ▸ hle)
  rw [hold] at hcounted
  refine .shared ?_ ?_ hcounted.2
  · rw [Sys.cas_word, hstate, hholders, List.length_erase_of_mem hmem, hcounted.1]
  · rw [hholders, List.length_erase_of_mem hmem, ← hcounted.1]
    omega

lemma Protocol.page_unmark (h : Protocol past ms s) {old new : Word}
    (hfits : CasSite.unmark.Fits (ms t) p old new) (hold : s.word p = old) :
    PageInv (⟨t, .cas .unmark p old new, true⟩ :: past)
      (Function.update ms t ((ms t).next (.cas .unmark p old new) true))
      (s.cas t .unmark p new) p := by
  obtain ⟨hmarked, rfl⟩ := hfits
  have hstates := states
  have hstate : getState (sameVersion old Unlocked) = 0 := getState_sameVersion old (by decide)
  refine h.page_cas_shared (by decide) hold (by omega) (by omega) (by omega)
    (version_sameVersion old (by decide)) (fun hheld => ?_)
  obtain ⟨hx, hs⟩ := hheld.of_lockable (Or.inr (Or.inl (hold.symm ▸ hmarked)))
  have hholders : (s.cas t .unmark p (sameVersion old Unlocked)).sHolders p = [] := hs
  refine .shared ?_ ?_ hx
  · rw [Sys.cas_word, hstate, hholders]
    rfl
  · rw [hholders]
    exact Nat.zero_le _

lemma getState_nextVersion_le (w : Word) : getState (nextVersion w Unlocked) ≤ 1 := by
  by_cases hlast : PageState.version w + 1 = 2 ^ 56
  · rw [nextVersion_last hlast]
    decide
  · have hlt := version_lt w
    rw [nextVersion_eq (by omega) (by decide), getState_pack (by omega)]
    decide

/-- A latch that is given back leaves another page as it is. -/
lemma Protocol.page_store_other (h : Protocol past ms s) {q : PID} {v : Word} (hq : q ≠ p) :
    PageInv (⟨t, .storeUnlocked p v, ()⟩ :: past)
      (Function.update ms t ((ms t).next (.storeUnlocked p v) ())) (s.storeUnlocked t p v) q := by
  refine (h.page q).unmoved (Unmoved.step (Function.update_of_ne hq _ _)
    (Function.update_of_ne hq _ _) rfl (Function.update_of_ne hq _ _) rfl
    (fun u => drew_cons Op.noConfusion) (fun u => latched_cons (fun _ _ heq => ?_)) Op.noConfusion
    (fun w => Or.inl) id id Multiset.mem_of_mem_erase)
  cases heq

lemma Protocol.page_store (h : Protocol past ms s) {v : Word}
    (hlegal : (ms t).Legal (.storeUnlocked p v)) :
    PageInv (⟨t, .storeUnlocked p v, ()⟩ :: past)
      (Function.update ms t ((ms t).next (.storeUnlocked p v) ())) (s.storeUnlocked t p v) p := by
  obtain ⟨hmem, w, hw, rfl⟩ := hlegal
  have hp := h.page p
  have hword : (s.storeUnlocked t p (nextVersion w Unlocked)).word p = nextVersion w Unlocked := by
    change Function.update s.word p (nextVersion w Unlocked) p = _
    rw [Function.update_self]
  have hunlocks : (s.storeUnlocked t p (nextVersion w Unlocked)).unlocks p = s.unlocks p + 1 := by
    change Function.update s.unlocks p (s.unlocks p + 1) p = _
    rw [Function.update_self]
  have hle := getState_nextVersion_le w
  have hx : (s.storeUnlocked t p (nextVersion w Unlocked)).xHolders p = (s.xHolders p).erase t := by
    change Function.update s.xHolders p ((s.xHolders p).erase t) p = _
    rw [Function.update_self]
  -- afterwards no thread holds the page exclusively
  have hgone : ∀ u, s.unlocks p < 2 ^ 56 → p ∉ (Function.update ms t
      ((ms t).next (.storeUnlocked p (nextVersion w Unlocked)) ()) u).core.x := by
    intro u hlt hmem'
    have hholders := (h.of_mem hmem hlt).2.1
    by_cases hu : u = t
    · subst hu
      rw [Function.update_self] at hmem'
      have hcount : (ms u).core.x.count p = 1 := by
        rw [← (h.tracks u).exclusive, hholders, List.count_singleton_self]
      have hpos : 0 < ((ms u).core.x.erase p).count p := Multiset.count_pos.mpr hmem'
      rw [Multiset.count_erase_self, hcount] at hpos
      omega
    · rw [Function.update_of_ne hu] at hmem'
      have hu' := h.mem_xHolders hmem'
      rw [hholders, List.mem_singleton] at hu'
      exact hu hu'
  constructor
  · rw [hunlocks]
    intro hlt
    obtain ⟨-, hholders, hs⟩ := h.of_mem hmem (by omega)
    have hversion := hp.version (by omega)
    obtain rfl := hp.loaded t w hw hmem (by omega)
    refine .shared ?_ ?_ ?_
    · rw [hword, nextVersion_eq (by omega) (by decide), getState_pack (by omega)]
      exact (congrArg List.length hs).symm
    · exact (congrArg List.length hs).trans_le (Nat.zero_le _)
    · rw [hx, hholders, List.erase_cons_head]
  · rw [hunlocks]
    intro hlt
    have hversion := hp.version (by omega)
    obtain rfl := hp.loaded t w hw hmem (by omega)
    rw [hword, nextVersion_eq (by omega) (by decide), version_pack (by omega), hversion]
  · rw [hword]
    intro hevicted
    rw [hevicted] at hle
    exact absurd hle (by decide)
  · intro hne hallocated
    have hevicted := hp.untouched hne (fun hold => hallocated (hold.cons _))
    have hzero := (hp.evicted hevicted).2
    rw [(h.of_mem hmem (by omega)).1] at hevicted
    exact absurd hevicted (by decide)
  · rw [hunlocks]
    exact fun u w' _ hmem' hlt => absurd hmem' (hgone u (by omega))
  · intro u
    rw [drew_cons Op.noConfusion, latched_cons (fun _ _ heq => by cases heq),
      update_field Local.drawn ms t
        ((ms t).next (.storeUnlocked p (nextVersion w Unlocked)) ()) rfl]
    exact hp.drawn u
  · intro u hentering hmem'
    have hold : (ms u).entering = some p ∧ p ∈ (ms u).core.x := by
      by_cases hu : u = t
      · subst hu
        rw [Function.update_self] at hentering
        exact ⟨hentering, hmem⟩
      · rw [Function.update_of_ne hu] at hentering hmem'
        exact ⟨hentering, hmem'⟩
    have hzero := (hp.entering u hold.1 hold.2).2.2
    exact absurd hmem' (hgone u (by omega))
  · intro hresident a ha hinserts
    rcases List.mem_cons.mp ha with rfl | ha
    · cases hinserts
    · exact hp.inserted hresident a ha hinserts

/-- A new page id concerns only its page. -/
lemma Protocol.page_nextPid (h : Protocol past ms s) (q : PID) :
    PageInv (⟨t, .nextPid, s.allocCount⟩ :: past)
      (Function.update ms t ((ms t).next .nextPid s.allocCount))
      { s with allocCount := s.allocCount + 1 } q := by
  have hlatched : ∀ u, Latched (⟨t, .nextPid, s.allocCount⟩ :: past) u q ↔ Latched past u q :=
    fun u => latched_cons (fun _ _ heq => by cases heq)
  have hloaded := update_field Local.loaded ms t ((ms t).next .nextPid s.allocCount) rfl
  have hcore := update_field Local.core ms t ((ms t).next .nextPid s.allocCount) rfl
  have hnew := update_field Local.entering ms t ((ms t).next .nextPid s.allocCount) rfl
  by_cases hq : q = s.allocCount
  · subst hq
    have hp := h.page s.allocCount
    -- nobody has drawn the id before, so nobody has latched the page
    have hnone : ∀ u, ¬Drew past u s.allocCount := fun u hu => lt_irrefl _ (h.drew u _ hu).2.1
    have hfree : ∀ u, ¬Latched past u s.allocCount := by
      intro u hu
      rcases h.latched u _ hu with heq | ⟨v, hv⟩
      · exact h.alloc.ne' heq
      · exact hnone v hv
    have hevicted : getState (s.word s.allocCount) = Evicted :=
      hp.untouched h.alloc.ne' (fun ⟨u, hu, _⟩ => hnone u hu)
    refine ⟨fun hlt => (hp.held hlt).congr rfl rfl rfl, hp.version, hp.evicted,
      fun _ _ => hevicted, ?_, ?_, ?_, ?_⟩
    · intro u w
      rw [hloaded, hcore]
      exact hp.loaded u w
    · intro u hdrawn
      rw [hlatched]
      refine ⟨?_, hfree u⟩
      by_cases hu : u = t
      · subst hu
        exact List.mem_cons_self
      · rw [Function.update_of_ne hu] at hdrawn
        exact absurd (hp.drawn u hdrawn).1 (hnone u)
    · intro u
      rw [hlatched, hnew, hcore]
      exact hp.entering u
    · intro hresident a ha hinserts
      rcases List.mem_cons.mp ha with rfl | ha
      · cases hinserts
      · exact hp.inserted hresident a ha hinserts
  · refine (h.page q).unmoved (Unmoved.step rfl rfl rfl rfl rfl (fun u => ?_) hlatched
      Op.noConfusion (fun w => Or.inl) (fun hdrawn => ?_) id id)
    · rw [Drew, List.mem_cons]
      refine or_iff_right (fun heq => hq ?_)
      cases heq
      rfl
    · exact absurd (Option.some.inj hdrawn).symm hq

omit [DecidableEq τ] in
lemma Sys.residentInsert_eq {s : Sys τ} (h : s.resident p = false) :
    s.residentInsert p = { s with resident := Function.update s.resident p true } := by
  rw [residentInsert, h]
  rfl

lemma Protocol.page_residentInsert (h : Protocol past ms s)
    (hlegal : (ms t).Legal (.residentInsert p)) (q : PID) :
    PageInv (⟨t, .residentInsert p, ()⟩ :: past)
      (Function.update ms t ((ms t).next (.residentInsert p) ())) (s.residentInsert p) q := by
  obtain ⟨hmem, hentering⟩ := hlegal
  obtain ⟨hlatched, hresident, hzero⟩ := (h.page p).entering t hentering hmem
  rw [Sys.residentInsert_eq hresident]
  have hlatched : ∀ u, Latched (⟨t, .residentInsert p, ()⟩ :: past) u q ↔ Latched past u q :=
    fun u => latched_cons (fun _ _ heq => by cases heq)
  have hdrew : ∀ u, Drew (⟨t, .residentInsert p, ()⟩ :: past) u q ↔ Drew past u q :=
    fun u => drew_cons Op.noConfusion
  by_cases hq : q = p
  · subst hq
    have hloaded := update_field Local.loaded ms t ((ms t).next (.residentInsert q) ()) rfl
    have hcore := update_field Local.core ms t ((ms t).next (.residentInsert q) ()) rfl
    have hdrawn := update_field Local.drawn ms t ((ms t).next (.residentInsert q) ()) rfl
    have hp := h.page q
    obtain ⟨hlocked, hholders, -⟩ := h.of_mem hmem (by omega)
    refine ⟨fun hlt => (hp.held hlt).congr rfl rfl rfl, hp.version, ?_, ?_, ?_, ?_, ?_, ?_⟩
    · intro hevicted
      change getState (s.word q) = Evicted at hevicted
      rw [hlocked] at hevicted
      exact absurd hevicted (by decide)
    · intro hne hallocated
      exact hp.untouched hne (fun hold => hallocated (hold.cons _))
    · intro u w
      rw [hloaded, hcore]
      exact hp.loaded u w
    · intro u
      rw [hdrew, hlatched, hdrawn]
      exact hp.drawn u
    · intro u hentering' hx
      by_cases hu : u = t
      · subst hu
        rw [Function.update_self] at hentering'
        cases hentering'
      · rw [Function.update_of_ne hu] at hx
        have hu' := h.mem_xHolders hx
        rw [hholders, List.mem_singleton] at hu'
        exact absurd hu' hu
    · intro hfalse
      change Function.update s.resident q true q = false at hfalse
      rw [Function.update_self] at hfalse
      cases hfalse
  · refine (h.page q).unmoved (Unmoved.step rfl rfl rfl rfl (Function.update_of_ne hq _ _) hdrew
      hlatched (fun hinserts => ?_) (fun w => Or.inl) id (fun h => by cases h) id)
    cases hinserts
    exact hq rfl

lemma Protocol.page_cas (h : Protocol past ms s) {site : CasSite} {old new : Word} {r : Bool}
    (hfits : site.Fits (ms t) p old new)
    (hexec : Sys.perform t c (.cas site p old new) s = some (r, s'))
    (htimely : Timely past ⟨t, .cas site p old new, r⟩) (q : PID) :
    PageInv (⟨t, .cas site p old new, r⟩ :: past)
      (Function.update ms t ((ms t).next (.cas site p old new) r)) s' q := by
  simp only [Sys.perform] at hexec
  split at hexec
  · rename_i hold
    obtain ⟨rfl, rfl⟩ := Prod.mk.inj (Option.some.inj hexec)
    by_cases hq : q = p
    · subst hq
      cases site with
      | lockX => exact h.page_lockX hfits hold.1 (htimely rfl)
      | lockS => exact h.page_lockS hfits hold.1
      | unlockS => exact h.page_unlockS hfits hold.1
      | unmark => exact h.page_unmark hfits hold.1
    · exact h.page_cas_other hq
  · obtain ⟨rfl, rfl⟩ := Prod.mk.inj (Option.some.inj hexec)
    have hnext : (ms t).next (.cas site p old new) false = ms t := by
      cases site <;> rfl
    rw [hnext]
    refine (h.page q).unmoved (Unmoved.step rfl rfl rfl rfl rfl (fun u => drew_cons Op.noConfusion)
      (fun u => latched_cons (fun _ _ heq => by cases heq)) Op.noConfusion (fun w => Or.inl) id id id)

lemma Protocol.drew_step (h : Protocol past ms s) {r : o.Res}
    (hexec : Sys.perform t c o s = some (r, s')) (u : τ) (p : PID)
    (hdrew : Drew (⟨t, o, r⟩ :: past) u p) : p ≠ metadataPageId ∧ p < s'.allocCount ∧
      ∀ v, Drew (⟨t, o, r⟩ :: past) v p → v = u := by
  by_cases ho : o = .nextPid
  · subst ho
    obtain ⟨rfl, rfl⟩ := Prod.mk.inj (Option.some.inj hexec)
    change p ≠ metadataPageId ∧ p < s.allocCount + 1 ∧ _
    rcases List.mem_cons.mp hdrew with heq | hdrew
    · cases heq
      refine ⟨h.alloc.ne', Nat.lt_succ_self _, fun v hv => ?_⟩
      rcases List.mem_cons.mp hv with heq | hv
      · cases heq
        rfl
      · exact absurd (h.drew v _ hv).2.1 (lt_irrefl _)
    · obtain ⟨hne, hlt, hunique⟩ := h.drew u p hdrew
      refine ⟨hne, Nat.lt_succ_of_lt hlt, fun v hv => ?_⟩
      rcases List.mem_cons.mp hv with heq | hv
      · cases heq
        exact absurd hlt (lt_irrefl _)
      · exact hunique v hv
  · have hsame : ∀ v, Drew (⟨t, o, r⟩ :: past) v p ↔ Drew past v p := fun v => drew_cons ho
    simp only [hsame] at hdrew ⊢
    obtain ⟨hne, hlt, hunique⟩ := h.drew u p hdrew
    exact ⟨hne, lt_of_lt_of_le hlt (counts_perform hexec).alloc, hunique⟩

lemma Protocol.latched_step (h : Protocol past ms s) {r : o.Res}
    (htimely : Timely past ⟨t, o, r⟩) (u : τ) (p : PID) (hlatched : Latched (⟨t, o, r⟩ :: past) u p) :
    p = metadataPageId ∨ ∃ v, Drew (⟨t, o, r⟩ :: past) v p := by
  obtain ⟨old, new, hmem⟩ := hlatched
  rcases List.mem_cons.mp hmem with heq | hmem
  · cases heq
    rcases htimely rfl with hmeta | ⟨v, hv, -⟩ | hdrew
    · exact Or.inl hmeta
    · exact Or.inr ⟨v, List.mem_cons_of_mem _ hv⟩
    · exact Or.inr ⟨t, List.mem_cons_of_mem _ hdrew⟩
  · refine (h.latched u p ⟨old, new, hmem⟩).imp_right ?_
    rintro ⟨v, hv⟩
    exact ⟨v, List.mem_cons_of_mem _ hv⟩

/-- A legal and timely operation keeps the protocol. -/
theorem Protocol.step (h : Protocol past ms s) (hlegal : (ms t).Legal o) {r : o.Res}
    (hexec : Sys.perform t c o s = some (r, s')) (htimely : Timely past ⟨t, o, r⟩)
    (hcrashed : s'.crashed = none) :
    Protocol (⟨t, o, r⟩ :: past) (Function.update ms t ((ms t).next o r)) s' where
  alloc := lt_of_lt_of_le h.alloc (counts_perform hexec).alloc
  tracks := by
    intro u
    by_cases hu : u = t
    · subst hu
      rw [Function.update_self]
      exact tracks_perform (h.tracks u) hexec hcrashed
    · rw [Function.update_of_ne hu]
      exact (h.tracks u).same (same_perform hu hexec)
  page := by
    intro q
    by_cases ho : o.Latching
    · cases o with
      | cas site p old new => exact h.page_cas hlegal hexec htimely q
      | storeUnlocked p v =>
        obtain ⟨rfl, rfl⟩ := Prod.mk.inj (Option.some.inj hexec)
        by_cases hq : q = p
        · subst hq
          exact h.page_store hlegal
        · exact h.page_store_other hq
      | nextPid =>
        obtain ⟨rfl, rfl⟩ := Prod.mk.inj (Option.some.inj hexec)
        exact h.page_nextPid q
      | residentInsert p =>
        obtain ⟨rfl, rfl⟩ := Prod.mk.inj (Option.some.inj hexec)
        exact h.page_residentInsert hlegal q
      | _ => exact ho.elim
    · exact h.page_quiet ho hexec q
  drew := h.drew_step hexec
  latched := h.latched_step htimely

end Step

/-! ## Runs -/

/-- Until the run has ended, the history, the threads and the shared state keep the protocol. -/
def Keeping (past : List (Act τ)) (ms : τ → Local) (s : Sys τ) : Prop :=
  s.crashed = none → Protocol past ms s

lemma reflects_keeping : History.Reflects exec discipline Timely (Keeping (τ := τ)) := by
  intro past ms s t c o r s' hs hlegal hexec htimely
  obtain ⟨hcrashed, hperform⟩ := perform_of_exec hexec
  have h := hs hcrashed
  refine ⟨?_, h.step hlegal hperform htimely⟩
  cases o with
  | nextPid =>
    cases Option.some.inj hperform
    exact h.alloc.ne'
  | _ => trivial

lemma protocol_start : Protocol [] (fun _ => Local.fresh 0) (Sys.start : Sys τ) where
  alloc := Nat.zero_lt_one
  tracks := (agrees_start rfl).2
  page := by
    intro p
    have hevicted : getState ((Sys.start : Sys τ).word p) = Evicted :=
      getState_sameVersion 0 (by decide)
    refine ⟨fun _ => .evicted hevicted rfl rfl, fun _ => ?_, fun _ => ⟨rfl, rfl⟩, fun _ _ => hevicted,
      ?_, ?_, ?_, ?_⟩
    · exact version_sameVersion 0 (by decide)
    · intro t w hloaded
      cases hloaded
    · intro t hdrawn
      cases hdrawn
    · intro t hentering
      cases hentering
    · intro _ a ha
      cases ha
  drew := by
    intro t p hdrew
    cases hdrew
  latched := by
    rintro t p ⟨_, _, hmem⟩
    cases hmem

end MemSafeDB
