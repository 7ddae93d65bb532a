import MemSafeDB.Lib.RelyGuarantee
import MemSafeDB.SkipList.History
import MemSafeDB.SkipList.Levels
import MemSafeDB.SkipList.Operations

/-!
# What the threads of the skip list rely on

The readers change nothing but the trace, and the writer only adds nodes to levels. So a reader
that has found a node on a level can come back to it, and the writer finds the links as it has
left them.
-/

namespace MemSafeDB.SkipList
open Lib Memory

variable {τ : Type} [DecidableEq τ]

/-- The invariant of the runs in which the writer inserts these keys. -/
structure Inv (keys : List CString) (s : State τ) : Prop where
  shape : ∃ L, s.mem.Shape L
  linked_iff : ∀ k : CString, k ∈ linkedKeys s.trace ↔ ∃ x, s.mem.At 0 x k
  faithful : Faithful s.trace
  started : ∀ x k, x < s.mem.count → (s.mem.cell x).key = some k → .insertCall k ∈ s.trace
  planned : ∀ k, .insertCall k ∈ s.trace → k ∈ keys

namespace Inv

variable {keys : List CString} {s : State τ} {l : Nat} {x : Node} {ρ : WithBot CString}

lemma head_at (h : Inv keys s) (hl : l < kMaxHeight) : s.mem.At l head ⊥ := by
  obtain ⟨L, hL⟩ := h.shape
  exact hL.head_at hl

lemma at_bot (h : Inv keys s) (hl : l < kMaxHeight) (hx : s.mem.At l x ρ) : x = head ↔ ρ = ⊥ := by
  obtain ⟨L, hL⟩ := h.shape
  exact hL.at_bot hl hx

lemma at_below (h : Inv keys s) (hl : l < kMaxHeight) (hx : s.mem.At l x ρ) :
    s.mem.At (l - 1) x ρ := by
  obtain ⟨L, hL⟩ := h.shape
  cases l with
  | zero => exact hx
  | succ l => exact hL.at_below hl hx

lemma mem_keys (h : Inv keys s) (hl : l < kMaxHeight) {k : CString} (hx : s.mem.At l x k) :
    k ∈ keys := by
  obtain ⟨L, hL⟩ := h.shape
  obtain ⟨hmem, hk⟩ := (hL.at_iff hl).mp hx
  exact h.planned k (h.started x k (hL.allocated l hl x hmem) (key_of_rank hk))

end Inv

/-- A pointer to a node on the level with this key, or null. -/
def PtrAt (s : State τ) (level : Nat) : Ptr → Option CString → Prop
  | none, none => True
  | some x, some k => s.mem.At level x k
  | _, _ => False

/-- The keys above `ρ` that are linked at level 0 begin with what a node is linked to. -/
lemma Inv.first {keys : List CString} {s : State τ} (h : Inv keys s) {ρ : WithBot CString}
    {r : Ptr} (hr : s.mem.IsNext 0 ρ r) :
    ∃ a, PtrAt s 0 r a ∧ First {k | k ∈ linkedKeys s.trace ∧ ρ < (k : WithBot CString)} a := by
  cases r with
  | none =>
    refine ⟨none, trivial, Set.eq_empty_iff_forall_notMem.mpr ?_⟩
    rintro k ⟨hk, hlt⟩
    obtain ⟨z, hz⟩ := (h.linked_iff k).mp hk
    exact absurd (hr z k hz) (not_le.mpr hlt)
  | some y =>
    obtain ⟨k, hy, hlt, hleast⟩ := hr
    refine ⟨some k, hy, ⟨(h.linked_iff k).mpr ⟨y, hy⟩, hlt⟩, ?_⟩
    rintro k' ⟨hk', hlt'⟩
    obtain ⟨z, hz⟩ := (h.linked_iff k').mp hk'
    exact WithBot.coe_le_coe.mp (hleast z k' hz hlt')

section Record

variable {keys : List CString} {s : State τ}

omit [DecidableEq τ] in
lemma linkedKeys_concat {tr : List (Event τ)} {e : Event τ} (h : ∀ k, e ≠ .linked k) :
    linkedKeys (tr ++ [e]) = linkedKeys tr := by
  ext k
  constructor
  · intro hk
    rcases List.mem_append.mp hk with hk | hk
    · exact hk
    · exact absurd (List.mem_singleton.mp hk).symm (h k)
  · exact fun hk => List.mem_append_left _ hk

/-- An event that is not about a key. -/
lemma Inv.record (h : Inv keys s) {e : Event τ} (he : e.Follows s.trace)
    (hlinked : ∀ k, e ≠ .linked k) (hcall : ∀ k, e ≠ .insertCall k) :
    Inv keys (s.record e) where
  shape := h.shape
  linked_iff := by
    intro k
    change k ∈ linkedKeys (s.trace ++ [e]) ↔ _
    rw [linkedKeys_concat hlinked]
    exact h.linked_iff k
  faithful := h.faithful.concat he
  started := fun x k hx hk => List.mem_append_left _ (h.started x k hx hk)
  planned := by
    intro k hk
    rcases List.mem_append.mp hk with hk | hk
    · exact h.planned k hk
    · exact absurd (List.mem_singleton.mp hk).symm (hcall k)

end Record

/-! ## Interfaces -/

/-- Nodes stay on their levels and keep their keys, and the trace goes on with such events. -/
def State.Grows (s s' : State τ) (P : Event τ → Prop) : Prop :=
  (∀ l < kMaxHeight, ∀ x ρ, s.mem.At l x ρ → s'.mem.At l x ρ) ∧
    ∃ new, s'.trace = s.trace ++ new ∧ ∀ e ∈ new, P e

omit [DecidableEq τ] in
lemma State.Grows.refl (s : State τ) (P : Event τ → Prop) : s.Grows s P :=
  ⟨fun _ _ _ _ h => h, [], by simp, by simp⟩

omit [DecidableEq τ] in
lemma State.Grows.trans {s s' s'' : State τ} {P : Event τ → Prop} (h : s.Grows s' P)
    (h' : s'.Grows s'' P) : s.Grows s'' P := by
  obtain ⟨hat, new, hnew, hP⟩ := h
  obtain ⟨hat', new', hnew', hP'⟩ := h'
  refine ⟨fun l hl x ρ hx => hat' l hl x ρ (hat l hl x ρ hx), new ++ new', ?_, ?_⟩
  · rw [hnew', hnew, List.append_assoc]
  · intro e he
    rcases List.mem_append.mp he with he | he
    · exact hP e he
    · exact hP' e he

/-- An operation is legal when it has a result. -/
def Defined (s : State τ) (o : Op) : Prop := ∃ t c, (exec t c o s).isSome = true

/-- The interface of reader `t`. -/
def readerInterface (keys : List CString) (t : τ) : Interface signature (State τ) where
  inv := Inv keys
  rely := fun s s' => s.Grows s' (fun e => e.reader ≠ some t)
  promise := fun s s' => s'.mem = s.mem ∧ s.Grows s' (fun e => e.reader = some t)
  legal := Defined
  refl := fun s => State.Grows.refl s _
  trans := fun _ _ _ h h' => h.trans h'

/-- The interface of the writer. -/
def writerInterface (keys : List CString) : Interface signature (State τ) where
  inv := Inv keys
  rely := fun s s' => s'.mem = s.mem ∧ s.Grows s' (fun e => e.reader ≠ none)
  promise := fun s s' => s.Grows s' (fun e => e.reader = none)
  legal := Defined
  refl := fun s => ⟨rfl, State.Grows.refl s _⟩
  trans := fun _ _ _ h h' => ⟨h'.1.trans h.1, h.2.trans h'.2⟩

/-- What the searches need to know of the interface of the thread that runs them. -/
structure Searches (keys : List CString) (J : Interface signature (State τ)) : Prop where
  inv : J.inv = Inv keys
  grows : ∀ s s', J.rely s s' → s.Grows s' (fun _ => True)
  promise : ∀ s, J.promise s s
  legal : J.legal = Defined

omit [DecidableEq τ] in
lemma State.Grows.weaken {s s' : State τ} {P P' : Event τ → Prop} (h : s.Grows s' P)
    (hP : ∀ e, P e → P' e) : s.Grows s' P' := by
  obtain ⟨hat, new, hnew, hall⟩ := h
  exact ⟨hat, new, hnew, fun e he => hP e (hall e he)⟩

lemma searches_reader (keys : List CString) (t : τ) : Searches keys (readerInterface keys t) where
  inv := rfl
  grows := fun _ _ h => h.weaken (fun _ _ => trivial)
  promise := fun s => ⟨rfl, State.Grows.refl s _⟩
  legal := rfl

lemma searches_writer (keys : List CString) :
    Searches keys (writerInterface keys : Interface signature (State τ)) where
  inv := rfl
  grows := fun _ _ h => h.2.weaken (fun _ _ => trivial)
  promise := fun s => State.Grows.refl s _
  legal := rfl

/-! ## Loads -/

section Loads

variable {keys : List CString} {J : Interface signature (State τ)} {t : τ} {α : Type}
  {Q : α → State τ → Prop} {A : State τ → Prop} {s : State τ} {l : Nat} {x : Node}
  {ρ : WithBot CString}

lemma Searches.stable_at (hJ : Searches keys J) (hl : l < kMaxHeight) (x : Node)
    (ρ : WithBot CString) : J.Stable (fun s => s.mem.At l x ρ) :=
  fun _ _ _ hr hx => (hJ.grows _ _ hr).1 l hl x ρ hx

lemma Searches.stable_ptrAt (hJ : Searches keys J) (hl : l < kMaxHeight) (r : Ptr)
    (a : Option CString) : J.Stable (fun s => PtrAt s l r a) := by
  intro s s' hi hr h
  cases r with
  | none => cases a <;> exact h
  | some y =>
    cases a with
    | none => exact h
    | some k => exact hJ.stable_at hl y k s s' hi hr h

omit [DecidableEq τ] in
/-- A load does not change the state. -/
lemma Defined.of_load {o : Op} {r : o.Res} (h : ∀ (t : τ) c, exec t c o s = some (r, s)) (t : τ) :
    Defined s o :=
  ⟨t, false, by rw [h]; rfl⟩

/-- The load of a link of a node on the level. -/
lemma Searches.keeps_next (hJ : Searches keys J) (hA : J.Stable A) (hl : l < kMaxHeight)
    (hs : A s) (hx : s.mem.At l x ρ) {k : Ptr → Prog α}
    (hk : ∀ s' r, Inv keys s' → A s' → s'.mem.At l x ρ → s'.mem.IsNext l ρ r →
      Program.Keeps exec t J Q (k r) s') :
    Program.Keeps exec t J Q ((next (some x) l).bind k) s := by
  refine Program.Keeps.step (hA.and (hJ.stable_at hl x ρ)) ⟨hs, hx⟩ ?_
  rintro s' hi ⟨hs', hx'⟩
  rw [hJ.inv] at hi
  obtain ⟨L, hL⟩ := hi.shape
  obtain ⟨r, hr, hnext⟩ := hL.next_eq hl hx'
  have hexec : ∀ (t : τ) c, exec t c (.next (some x) l) s' = some (r, s') := by
    intro t c
    change (s'.mem.next l x).map (fun r => (r, s')) = some (r, s')
    rw [hr]
    rfl
  refine ⟨by rw [hJ.legal]; exact Defined.of_load hexec t, ?_⟩
  intro c r' s'' hs''
  rw [hexec] at hs''
  cases hs''
  exact ⟨by rw [hJ.inv]; exact hi, hJ.promise s', hk s' r hi hs' hx' hnext⟩

/-- The load of the key of a node on the level. -/
lemma Searches.keeps_keyOf (hJ : Searches keys J) (hA : J.Stable A) (hl : l < kMaxHeight)
    (hs : A s) {key : CString} (hx : s.mem.At l x key) {k : CString → Prog α}
    (hk : ∀ s', Inv keys s' → A s' → s'.mem.At l x key → Program.Keeps exec t J Q (k key) s') :
    Program.Keeps exec t J Q ((keyOf (some x)).bind k) s := by
  refine Program.Keeps.step (hA.and (hJ.stable_at hl x key)) ⟨hs, hx⟩ ?_
  rintro s' hi ⟨hs', hx'⟩
  rw [hJ.inv] at hi
  have hkey : (s'.mem.cell x).key = some key := key_of_rank hx'.choose_spec.2.2
  have hexec : ∀ (t : τ) c, exec t c (.key (some x)) s' = some (key, s') := by
    intro t c
    change ((s'.mem.cell x).key).map (fun k => (k, s')) = some (key, s')
    rw [hkey]
    rfl
  refine ⟨by rw [hJ.legal]; exact Defined.of_load hexec t, ?_⟩
  intro c k' s'' hs''
  rw [hexec] at hs''
  cases hs''
  exact ⟨by rw [hJ.inv]; exact hi, hJ.promise s', hk s' hi hs' hx'⟩

lemma Searches.keeps_getMaxHeight (hJ : Searches keys J) (hA : J.Stable A) (hs : A s)
    {k : Nat → Prog α} (hk : ∀ s', Inv keys s' → A s' → 0 < s'.mem.maxHeight →
      s'.mem.maxHeight ≤ kMaxHeight → Program.Keeps exec t J Q (k s'.mem.maxHeight) s') :
    Program.Keeps exec t J Q (getMaxHeight.bind k) s := by
  refine Program.Keeps.step hA hs ?_
  intro s' hi hs'
  rw [hJ.inv] at hi
  obtain ⟨L, hL⟩ := hi.shape
  refine ⟨by rw [hJ.legal]; exact Defined.of_load (fun _ _ => rfl) t, ?_⟩
  intro c h s'' hs''
  cases hs''
  exact ⟨by rw [hJ.inv]; exact hi, hJ.promise s', hk s' hi hs' hL.height_pos hL.height_le⟩

end Loads

end MemSafeDB.SkipList
