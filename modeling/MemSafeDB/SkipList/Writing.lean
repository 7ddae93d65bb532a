import MemSafeDB.SkipList.Searching

/-!
# The writer

The search leaves the writer with a node in front of the gap for the key on every level. Nobody
else changes the memory, so the gaps stay until the writer has linked the new node into them,
from the lowest level up.
-/

namespace MemSafeDB.SkipList
open Lib Memory

/-! ## Half-linked towers -/

/-- The node of the key is linked on the levels below `i`, and the array leads to its gaps on
the others. -/
structure Linking (m : Memory) (x : Node) (key : CString) (height : Nat) (prev : PrevArray)
    (i : Nat) : Prop where
  shape : ∃ L, m.Shape L
  count : x < m.count
  keyed : m.rank x = key
  tall : (m.cell x).height = height
  height_le : height ≤ m.maxHeight
  low : ∀ l < i, m.At l x key
  high : ∀ l, i ≤ l → l < kMaxHeight → ∀ ρ, ¬m.At l x ρ
  gap : ∀ l, i ≤ l → l < height → ∃ p, prev l = some (some p) ∧ m.Gap l p key

/-- A gap stays when the levels stay. -/
lemma Memory.Gap.congr {m m' : Memory} {l : Nat} {p : Node} {key : CString} (h : m.Gap l p key)
    (hat : ∀ y σ, m'.At l y σ ↔ m.At l y σ) : m'.Gap l p key := by
  obtain ⟨ρ, hp, hρ, hgap⟩ := h
  exact ⟨ρ, (hat p ρ).mpr hp, hρ, fun z σ hz => hgap z σ ((hat z σ).mp hz)⟩

namespace Linking

variable {m : Memory} {x : Node} {key : CString} {height : Nat} {prev : PrevArray} {i : Nat}

lemma lt_kMaxHeight (h : Linking m x key height prev i) (hi : i < height) : i < kMaxHeight := by
  obtain ⟨L, hL⟩ := h.shape
  exact hi.trans_le (h.height_le.trans hL.height_le)

/-- What the loop finds in front of the gap on level `i`. -/
lemma exists_prev (h : Linking m x key height prev i) (hi : i < height) :
    ∃ p r, prev i = some (some p) ∧ m.Gap i p key ∧ m.next i p = some r ∧
      i < (m.cell p).height := by
  obtain ⟨L, hL⟩ := h.shape
  have hlt := h.lt_kMaxHeight hi
  obtain ⟨p, hp, hgap⟩ := h.gap i le_rfl hi
  obtain ⟨ρ, hat, -, -⟩ := id hgap
  obtain ⟨r, hr, -⟩ := hL.next_eq hlt hat
  exact ⟨p, r, hp, hgap, hr, hL.tall i hlt p ((hL.at_iff hlt).mp hat).1⟩

/-- The store to the link of the new node changes no level. -/
lemma store (h : Linking m x key height prev i) (hi : i < height) (r : Ptr) :
    Linking (m.setNext x i r) x key height prev i ∧
      ∀ l < kMaxHeight, ∀ y σ, (m.setNext x i r).At l y σ ↔ m.At l y σ := by
  obtain ⟨L, hL⟩ := h.shape
  have hlt := h.lt_kMaxHeight hi
  obtain ⟨hshape, hat⟩ := hL.setNext_at hlt (h.high i le_rfl hlt) r
  refine ⟨⟨⟨L, hshape⟩, h.count, ?_, ?_, h.height_le, ?_, ?_, ?_⟩, hat⟩
  · rw [setNext_rank]
    exact h.keyed
  · rw [setNext_height]
    exact h.tall
  · intro l hl
    exact (hat l (hl.trans hlt) x key).mpr (h.low l hl)
  · intro l hil hl ρ hx
    exact h.high l hil hl ρ ((hat l hl x ρ).mp hx)
  · intro l hil hl
    obtain ⟨p, hp, hgap⟩ := h.gap l hil hl
    exact ⟨p, hp, hgap.congr (hat l (hl.trans_le (h.height_le.trans hL.height_le)))⟩

/-- The store that links the new node in on level `i`. -/
lemma link (h : Linking m x key height prev i) (hi : i < height) {p : Node} {r : Ptr}
    (hgap : m.Gap i p key) (hp : m.next i p = some r) (hr : m.next i x = some r) :
    Linking (m.setNext p i (some x)) x key height prev (i + 1) ∧
      ∀ l < kMaxHeight, ∀ y σ, (m.setNext p i (some x)).At l y σ ↔
        m.At l y σ ∨ (l = i ∧ y = x ∧ σ = key) := by
  obtain ⟨L, hL⟩ := h.shape
  have hlt := h.lt_kMaxHeight hi
  have hbelow : ∀ l, i = l + 1 → ∃ ρ, m.At l x ρ := by
    rintro l rfl
    exact ⟨key, h.low l (Nat.lt_succ_self l)⟩
  obtain ⟨L', hshape, hat⟩ := hL.link_at (hi.trans_le h.height_le) hgap hp hr h.keyed h.count
    (h.tall ▸ hi) hbelow
  refine ⟨⟨⟨L', hshape⟩, h.count, ?_, ?_, h.height_le, ?_, ?_, ?_⟩, hat⟩
  · rw [setNext_rank]
    exact h.keyed
  · rw [setNext_height]
    exact h.tall
  · intro l hl
    rw [hat l (by omega)]
    by_cases hli : l = i
    · exact Or.inr ⟨hli, rfl, rfl⟩
    · exact Or.inl (h.low l (by omega))
  · intro l hil hl ρ hx
    rcases (hat l hl x ρ).mp hx with hx | ⟨rfl, -⟩
    · exact h.high l (by omega) hl ρ hx
    · omega
  · intro l hil hl
    obtain ⟨p', hp', hgap'⟩ := h.gap l (by omega) hl
    refine ⟨p', hp', hgap'.congr (fun y σ => ?_)⟩
    rw [hat l (hl.trans_le (h.height_le.trans hL.height_le))]
    have hne : l ≠ i := by omega
    simp [hne]

end Linking

variable {τ : Type} [DecidableEq τ]

/-! ## Steps of the writer -/

/-- The memory is as the writer has left it, and it has begun to insert these keys. -/
structure Wrote (done : List CString) (m : Memory) (s : State τ) : Prop where
  mem : s.mem = m
  calls : ∀ k, .insertCall k ∈ s.trace ↔ k ∈ done

section Steps

variable {keys done : List CString} {t : τ} {α : Type} {Q : α → State τ → Prop} {m : Memory}
  {s : State τ}

/-- What the writer has recorded stays. -/
lemma stable_trace {e : Event τ} :
    (writerInterface keys).Stable (fun s : State τ => e ∈ s.trace) := by
  rintro s s' - ⟨-, -, new, hnew, -⟩ he
  rw [hnew]
  exact List.mem_append_left _ he

lemma stable_wrote : (writerInterface keys).Stable (Wrote (τ := τ) done m) := by
  rintro s s' - ⟨hmem, -, new, hnew, hother⟩ ⟨hm, hcalls⟩
  refine ⟨hmem.trans hm, fun k => ?_⟩
  rw [hnew, List.mem_append, hcalls]
  refine or_iff_left (fun hk => ?_)
  exact hother _ hk rfl

/-- An operation of the writer with one result. -/
lemma keeps_det {A B : State τ → Prop} {o : Op} {u : o.Res} {f : State τ → State τ}
    (hA : (writerInterface keys).Stable A) (hs : A s)
    (hexec : ∀ s, A s → ∀ (t : τ) c, exec t c o s = some (u, f s))
    (hstep : ∀ s, Inv keys s → A s → Inv keys (f s) ∧ s.Grows (f s) (fun e => e.reader = none) ∧
      B (f s))
    {k : o.Res → Prog α}
    (hk : ∀ s', Inv keys s' → B s' → Program.Keeps exec t (writerInterface keys) Q (k u) s') :
    Program.Keeps exec t (writerInterface keys) Q ((Program.op (S := signature) o).bind k) s := by
  refine Program.Keeps.step hA hs ?_
  intro s1 hi hs1
  refine ⟨⟨t, false, by rw [hexec s1 hs1]; rfl⟩, ?_⟩
  intro c r s2 hs2
  rw [hexec s1 hs1] at hs2
  cases hs2
  obtain ⟨hi2, hgrows, hs2⟩ := hstep s1 hi hs1
  exact ⟨hi2, hgrows, hk _ hi2 hs2⟩

/-- A change of the memory that leaves level 0 as it is. -/
lemma Inv.setMem (h : Inv keys s) {m' : Memory} (hshape : ∃ L, m'.Shape L)
    (hat : ∀ y σ, m'.At 0 y σ ↔ s.mem.At 0 y σ)
    (hstarted : ∀ x k, x < m'.count → (m'.cell x).key = some k → .insertCall k ∈ s.trace) :
    Inv keys (s.setMem m') where
  shape := hshape
  linked_iff := by
    intro k
    refine (h.linked_iff k).trans (exists_congr (fun x => ?_))
    exact (hat x k).symm
  faithful := h.faithful
  started := hstarted
  planned := h.planned

omit [DecidableEq τ] in
lemma State.Grows.setMem {m' : Memory} {P : Event τ → Prop}
    (hat : ∀ l < kMaxHeight, ∀ x ρ, s.mem.At l x ρ → m'.At l x ρ) : s.Grows (s.setMem m') P :=
  ⟨hat, [], by simp [State.setMem], by simp⟩

omit [DecidableEq τ] in
lemma State.Grows.record {P : Event τ → Prop} {e : Event τ} (he : P e) : s.Grows (s.record e) P := by
  refine ⟨fun _ _ _ _ h => h, [e], rfl, ?_⟩
  intro e' he'
  rw [List.mem_singleton.mp he']
  exact he

/-- A store to a link that changes no key and leaves level 0 as it is. -/
lemma Inv.setNext (h : Inv keys s) {x : Node} {l : Nat} {r : Ptr}
    (hshape : ∃ L, (s.mem.setNext x l r).Shape L)
    (hat : ∀ y σ, (s.mem.setNext x l r).At 0 y σ ↔ s.mem.At 0 y σ) :
    Inv keys (s.setMem (s.mem.setNext x l r)) := by
  refine h.setMem hshape hat ?_
  intro y k hy hk
  rw [setNext_key] at hk
  exact h.started y k hy hk

/-! ## Linking -/

/-- The node of the key is linked on level 0, and this is recorded. -/
lemma Inv.publish (h : Inv keys s) {x p : Node} {key : CString}
    (hshape : ∃ L, (s.mem.setNext p 0 (some x)).Shape L)
    (hat : ∀ y σ, (s.mem.setNext p 0 (some x)).At 0 y σ ↔
      s.mem.At 0 y σ ∨ (y = x ∧ σ = key))
    (hcall : .insertCall key ∈ s.trace) :
    Inv keys ((s.setMem (s.mem.setNext p 0 (some x))).record (.linked key)) where
  shape := hshape
  linked_iff := by
    intro k
    change .linked k ∈ s.trace ++ [.linked key] ↔ ∃ y, (s.mem.setNext p 0 (some x)).At 0 y k
    have hold := h.linked_iff k
    change .linked k ∈ s.trace ↔ _ at hold
    rw [List.mem_append, hold, List.mem_singleton, Event.linked.injEq]
    constructor
    · rintro (⟨y, hy⟩ | rfl)
      · exact ⟨y, (hat y k).mpr (Or.inl hy)⟩
      · exact ⟨x, (hat x k).mpr (Or.inr ⟨rfl, rfl⟩)⟩
    · rintro ⟨y, hy⟩
      rcases (hat y k).mp hy with hy | ⟨-, hk⟩
      · exact Or.inl ⟨y, hy⟩
      · exact Or.inr (WithBot.coe_inj.mp hk)
  faithful := h.faithful.concat hcall
  started := by
    intro y k hy hk
    change y < s.mem.count at hy
    change ((s.mem.setNext p 0 (some x)).cell y).key = some k at hk
    rw [setNext_key] at hk
    exact List.mem_append_left _ (h.started y k hy hk)
  planned := by
    intro k hk
    rcases List.mem_append.mp hk with hk | hk
    · exact h.planned k hk
    · cases List.mem_singleton.mp hk

/-- The load of the link in front of a gap. -/
lemma keeps_loadNext {A : State τ → Prop} (hA : (writerInterface keys).Stable A) {p : Node}
    {i : Nat} {r : Ptr} (hr : m.next i p = some r) (hs : Wrote done m s) (ha : A s)
    {k : Ptr → Prog α} (hk : ∀ s', Inv keys s' → Wrote done m s' → A s' →
      Program.Keeps exec t (writerInterface keys) Q (k r) s') :
    Program.Keeps exec t (writerInterface keys) Q ((next (some p) i).bind k) s := by
  refine keeps_det (B := fun s => Wrote done m s ∧ A s) (f := id) (stable_wrote.and hA) ⟨hs, ha⟩
    ?_ (fun s1 hi1 hs1 => ⟨hi1, State.Grows.refl s1 _, hs1⟩) (fun s1 hi1 hs1 => hk s1 hi1 hs1.1 hs1.2)
  rintro s1 ⟨hs1, -⟩ u c
  change (s1.mem.next i p).map (fun r => (r, s1)) = some (r, s1)
  rw [hs1.mem, hr]
  rfl

section Round

variable {x : Node} {key : CString} {height : Nat} {prev : PrevArray} {i : Nat}

/-- Once a level is linked, the key is recorded. -/
lemma stable_published : (writerInterface keys).Stable
    (fun s : State τ => 0 < i → Event.linked key ∈ s.trace) :=
  fun s s' hi hrely h hpos => stable_trace s s' hi hrely (h hpos)

/-- The store to the link of the new node. -/
lemma keeps_storeNew (hm : Linking m x key height prev i) (hi : i < height) (r : Ptr)
    (hs : Wrote done m s) (hlinked : 0 < i → Event.linked key ∈ s.trace) {k : Unit → Prog α}
    (hk : ∀ s', Inv keys s' → Wrote done (m.setNext x i r) s' →
      (0 < i → Event.linked key ∈ s'.trace) →
      Program.Keeps exec t (writerInterface keys) Q (k ()) s') :
    Program.Keeps exec t (writerInterface keys) Q
      ((noBarrierSetNext (some x) i r).bind k) s := by
  obtain ⟨hm', hat⟩ := hm.store hi r
  refine keeps_det (o := .noBarrierSetNext (some x) i r) (u := ())
    (f := fun s => s.setMem (s.mem.setNext x i r))
    (B := fun s => Wrote done (m.setNext x i r) s ∧ (0 < i → .linked key ∈ s.trace))
    (stable_wrote.and stable_published) ⟨hs, hlinked⟩ ?_ ?_ (fun s1 hi1 hs1 => hk s1 hi1 hs1.1 hs1.2)
  · rintro s1 ⟨hs1, -⟩ u c
    change ((if i < (s1.mem.cell x).height then some (s1.setMem (s1.mem.setNext x i r))
      else none).map (fun s' => ((), s'))) = _
    rw [hs1.mem, hm.tall, if_pos hi]
    rfl
  · rintro s1 hi1 ⟨hs1, hlinked1⟩
    have hmem := hs1.mem
    subst hmem
    refine ⟨hi1.setNext hm'.shape (hat 0 (by decide)), State.Grows.setMem ?_, ⟨rfl, hs1.calls⟩,
      hlinked1⟩
    exact fun l hl y σ hy => (hat l hl y σ).mpr hy

/-- The store that publishes the new node on a level. -/
lemma keeps_publish (hm : Linking m x key height prev i) (hi : i < height) (hdone : key ∈ done)
    {p : Node} {r : Ptr} (hgap : m.Gap i p key) (hp : m.next i p = some r)
    (hr : m.next i x = some r) (htall : i < (m.cell p).height)
    (hs : Wrote done m s) (hlinked : 0 < i → Event.linked key ∈ s.trace) {k : Unit → Prog α}
    (hk : ∀ s' m', Inv keys s' → Wrote done m' s' → Linking m' x key height prev (i + 1) →
      Event.linked key ∈ s'.trace → Program.Keeps exec t (writerInterface keys) Q (k ()) s') :
    Program.Keeps exec t (writerInterface keys) Q ((setNext (some p) i (some x)).bind k) s := by
  obtain ⟨hm', hat⟩ := hm.link hi hgap hp hr
  refine keeps_det (o := .setNext (some p) i (some x)) (u := ())
    (f := fun s => if i = 0 then (s.setMem (s.mem.setNext p i (some x))).record (.linked key)
      else s.setMem (s.mem.setNext p i (some x)))
    (B := fun s => Wrote done (m.setNext p i (some x)) s ∧ .linked key ∈ s.trace)
    (stable_wrote.and stable_published) ⟨hs, hlinked⟩ ?_ ?_
    (fun s1 hi1 hs1 => hk s1 _ hi1 hs1.1 hm' hs1.2)
  · rintro s1 ⟨hs1, -⟩ u c
    have hkey : ((s1.setMem (s1.mem.setNext p i (some x))).mem.cell x).key = some key := by
      change ((s1.mem.setNext p i (some x)).cell x).key = some key
      rw [hs1.mem]
      exact key_of_rank hm'.keyed
    change ((if i < (s1.mem.cell p).height then some (s1.setMem (s1.mem.setNext p i (some x)))
      else none).map (fun s' => ((), s'.publish i (some x)))) = _
    rw [if_pos (by rw [hs1.mem]; exact htall), Option.map_some]
    unfold State.publish
    rw [Option.bind_some, hkey]
    rfl
  · rintro s1 hi1 ⟨hs1, hlinked1⟩
    have hcall : .insertCall key ∈ s1.trace := (hs1.calls key).mpr hdone
    have hmem := hs1.mem
    subst hmem
    have hgrows : ∀ l < kMaxHeight, ∀ y σ, s1.mem.At l y σ →
        (s1.mem.setNext p i (some x)).At l y σ := fun l hl y σ hy => (hat l hl y σ).mpr (Or.inl hy)
    by_cases hzero : i = 0
    · subst hzero
      rw [if_pos rfl]
      refine ⟨hi1.publish hm'.shape ?_ hcall, ?_, ⟨rfl, fun k => ?_⟩, ?_⟩
      · intro y σ
        rw [hat 0 (by decide)]
        simp
      · exact (State.Grows.setMem hgrows).trans (State.Grows.record rfl)
      · change .insertCall k ∈ s1.trace ++ [.linked key] ↔ _
        rw [List.mem_append, hs1.calls]
        simp
      · exact List.mem_append_right _ List.mem_cons_self
    · rw [if_neg hzero]
      refine ⟨hi1.setNext hm'.shape ?_, State.Grows.setMem hgrows, ⟨rfl, hs1.calls⟩,
        hlinked1 (Nat.pos_of_ne_zero hzero)⟩
      intro y σ
      rw [hat 0 (by decide)]
      simp [Ne.symm hzero]

/-- The loop that links the new node in, from level `i` on. -/
lemma keeps_linkLoop {n : Nat} (hn : i + n = height) (hheight : 0 < height)
    (hm : Linking m x key height prev i) (hdone : key ∈ done) (hs : Wrote done m s)
    (hlinked : 0 < i → .linked key ∈ s.trace) :
    Program.Keeps exec t (writerInterface keys) (fun _ s' => (∃ m', Wrote done m' s') ∧
      .linked key ∈ s'.trace) (linkLoop (some x) prev i n) s := by
  induction n generalizing m i s with
  | zero =>
    refine Program.Keeps.ret ?_ ⟨⟨m, hs⟩, hlinked (by omega)⟩
    refine Interface.Stable.and ?_ stable_trace
    rintro s1 s2 hi hrely ⟨m', hm'⟩
    exact ⟨m', stable_wrote s1 s2 hi hrely hm'⟩
  | succ n ih =>
    have hi : i < height := by omega
    obtain ⟨p, r, hp, hgap, hr, htall⟩ := hm.exists_prev hi
    unfold linkLoop PrevArray.get
    rw [hp]
    refine keeps_loadNext stable_published hr hs hlinked ?_
    intro s1 _ hs1 hlinked1
    refine keeps_storeNew hm hi r hs1 hlinked1 ?_
    intro s2 _ hs2 hlinked2
    have hpx : p ≠ x := by
      rintro rfl
      obtain ⟨ρ, hat, -⟩ := hgap
      exact hm.high i le_rfl (hm.lt_kMaxHeight hi) ρ hat
    obtain ⟨hm2, hat2⟩ := hm.store hi r
    have hp2 : (m.setNext x i r).next i p = some r := by
      rw [setNext_next_self, Function.update_of_ne hpx]
      exact hr
    have hx2 : (m.setNext x i r).next i x = some r := by
      rw [setNext_next_self, Function.update_self]
    refine keeps_publish hm2 hi hdone (hgap.congr (hat2 i (hm.lt_kMaxHeight hi))) hp2 hx2
      (by rw [setNext_height]; exact htall) hs2 hlinked2 ?_
    intro s3 m3 _ hs3 hm3 hlinked3
    exact ih (by omega) hm3 hs3 (fun _ => hlinked3)

end Round

/-! ## Inserting -/

/-- A height of at least one and at most the maximal height. -/
lemma keeps_randomHeightLoop {J : Interface signature (State τ)} (hJ : Searches keys J)
    {A : State τ → Prop} (hA : J.Stable A) {more height : Nat} (hheight : 0 < height) (hs : A s) :
    Program.Keeps exec t J (fun h s' => A s' ∧ 0 < h ∧ h ≤ height + more)
      (randomHeightLoop height more) s := by
  induction more generalizing height s with
  | zero =>
    exact Program.Keeps.ret (hA.and (fun _ _ _ _ h => h)) ⟨hs, hheight, le_rfl⟩
  | succ more ih =>
    unfold randomHeightLoop
    refine Program.Keeps.step hA hs ?_
    intro s1 hi hs1
    refine ⟨by rw [hJ.legal]; exact ⟨t, false, rfl⟩, ?_⟩
    intro c higher s2 hs2
    cases hs2
    refine ⟨hi, hJ.promise s1, ?_⟩
    cases c with
    | false => exact Program.Keeps.ret (hA.and (fun _ _ _ _ h => h)) ⟨hs1, hheight, by omega⟩
    | true =>
      refine (ih (Nat.succ_pos height) hs1).mono ?_
      rintro h s2 - ⟨hs2, hpos, hle⟩
      exact ⟨hs2, hpos, by omega⟩

/-- The levels on which the array leads to the gap for a key. -/
def PrevArray.Leads (prev : PrevArray) (m : Memory) (key : CString) (height : Nat) : Prop :=
  ∀ l < height, ∃ p, prev l = some (some p) ∧ m.Gap l p key

/-- A level above the maximal height is empty, and the gap is behind `head_`. -/
lemma PrevArray.Leads.fillHead {L : Nat → List Node} (hL : m.Shape L) {prev : PrevArray}
    {key : CString} (h : prev.Leads m key m.maxHeight) {height : Nat} (hle : height ≤ kMaxHeight) :
    (prev.fillHead m.maxHeight height).Leads m key height := by
  intro l hl
  unfold PrevArray.fillHead
  by_cases hnew : m.maxHeight ≤ l
  · rw [if_pos ⟨hnew, hl⟩]
    refine ⟨head, rfl, ⊥, hL.head_at (hl.trans_le hle), WithBot.bot_lt_coe key, ?_⟩
    intro z σ hz hlt
    obtain ⟨hmem, rfl⟩ := (hL.at_iff (hl.trans_le hle)).mp hz
    rw [hL.empty l hnew (hl.trans_le hle)] at hmem
    rw [List.mem_singleton.mp hmem, hL.rank_head] at hlt
    exact absurd hlt (lt_irrefl _)
  · rw [if_neg (fun hc => hnew hc.1)]
    exact h l (not_le.mp hnew)

/-- `max_height_` is raised to the height of the new node, and the array is filled up. -/
lemma keeps_raiseMaxHeight {prev : PrevArray} {key : CString} {height : Nat}
    (hprev : prev.Leads m key m.maxHeight) (hle : height ≤ kMaxHeight) (hs : Wrote done m s)
    {k : PrevArray → Prog α} (hk : ∀ s' m' prev', Inv keys s' → Wrote done m' s' →
      (m'.cell = m.cell ∧ m'.count = m.count) → height ≤ m'.maxHeight → prev'.Leads m' key height →
      Program.Keeps exec t (writerInterface keys) Q (k prev') s') :
    Program.Keeps exec t (writerInterface keys) Q ((raiseMaxHeight prev height).bind k) s := by
  have hload : ∀ (s : State τ) {k : Nat → Prog α}, Wrote done m s →
      (∀ s', Inv keys s' → Wrote done m s' →
        Program.Keeps exec t (writerInterface keys) Q (k m.maxHeight) s') →
      Program.Keeps exec t (writerInterface keys) Q (getMaxHeight.bind k) s := by
    intro s k hs hk
    refine keeps_det (o := .getMaxHeight) (u := m.maxHeight) (f := id) (B := Wrote done m) stable_wrote hs ?_
      (fun s1 hi1 hs1 => ⟨hi1, State.Grows.refl s1 _, hs1⟩) hk
    intro s1 hs1 u c
    rw [← hs1.mem]
    rfl
  unfold raiseMaxHeight
  rw [Program.bind_eq, Program.bind_assoc]
  refine hload s hs ?_
  intro s1 hi1 hs1
  obtain ⟨L, hL⟩ := hi1.shape
  rw [hs1.mem] at hL
  by_cases hlt : m.maxHeight < height
  · rw [if_pos hlt, Program.bind_eq, Program.bind_assoc]
    refine hload s1 hs1 ?_
    intro s2 _ hs2
    have hL' := hL.setMaxHeight hlt.le hle
    refine keeps_det (o := .setMaxHeight height) (u := ())
      (f := fun s => s.setMem { s.mem with maxHeight := height })
      (B := Wrote done { m with maxHeight := height }) stable_wrote hs2 (fun _ _ _ _ => rfl) ?_ ?_
    · intro s3 hi3 hs3
      have hmem := hs3.mem
      subst hmem
      exact ⟨hi3.setMem ⟨L, hL'⟩ (fun _ _ => Iff.rfl) hi3.started,
        State.Grows.setMem (fun _ _ _ _ h => h), rfl, hs3.calls⟩
    · intro s3 hi3 hs3
      exact hk s3 _ _ hi3 hs3 ⟨rfl, rfl⟩ le_rfl (hprev.fillHead hL hle)
  · rw [if_neg hlt]
    exact hk s1 m prev hi1 hs1 ⟨rfl, rfl⟩ (not_lt.mp hlt)
      (fun l hl => hprev l (hl.trans_le (not_lt.mp hlt)))

/-- The search of the writer leaves the array in front of the gaps for a key that no node has. -/
lemma leads_of_filled {key : CString}
    (hnew : ∀ x k, x < m.count → (m.cell x).key = some k → k ≠ key) {a : PrevArray}
    (hi : Inv keys s) (hs : Wrote done m s)
    (h : Filled (fun l ρ _ r _ => m.IsNext l ρ r) key 0 (m.maxHeight - 1) (some a) s) :
    a.Leads m key m.maxHeight := by
  obtain ⟨L, hL⟩ := hi.shape
  rw [hs.mem] at hL
  intro l hl
  have hlt : l < kMaxHeight := hl.trans_le hL.height_le
  obtain ⟨x, r, hx, ρ, hat, hρ, hnext, hbeyond⟩ := h a rfl l (Nat.zero_le l) (by omega)
  rw [hs.mem] at hat
  refine ⟨x, hx, ρ, hat, hρ, ?_⟩
  intro z σ hz hlt'
  have hle : (key : WithBot CString) ≤ σ := by
    cases r with
    | none => exact absurd (hnext z σ hz) (not_le.mpr hlt')
    | some y =>
      obtain ⟨k, hy, -, hleast⟩ := hnext
      obtain ⟨k', hy', hle⟩ := hbeyond
      rw [hs.mem] at hy'
      obtain ⟨-, -, -, hrank⟩ := hy
      obtain ⟨-, -, -, hrank'⟩ := hy'
      rw [WithBot.coe_inj.mp (hrank'.symm.trans hrank)] at hle
      exact (WithBot.coe_le_coe.mpr hle).trans (hleast z σ hz hlt')
  refine lt_of_le_of_ne hle (fun heq => ?_)
  obtain ⟨hmem, hrank⟩ := (hL.at_iff hlt).mp hz
  exact hnew z key (hL.allocated l hlt z hmem) (key_of_rank (hrank.trans heq.symm)) rfl

/-- The assertion that the key is new does not fail when no node has it. -/
lemma keeps_assertNew {key : CString}
    (hnew : ∀ x k, x < m.count → (m.cell x).key = some k → k ≠ key) (hi : Inv keys s)
    (hs : Wrote done m s) {r : Ptr} (hr : Beyond 0 key r s) {k : Unit → Prog α}
    (hk : ∀ s', Inv keys s' → Wrote done m s' →
      Program.Keeps exec t (writerInterface keys) Q (k ()) s') :
    Program.Keeps exec t (writerInterface keys) Q ((assertNew key r).bind k) s := by
  unfold assertNew
  cases r with
  | none => exact hk s hi hs
  | some y =>
    obtain ⟨k', hy, -⟩ := hr
    rw [if_neg (Option.some_ne_none y), Program.bind_eq, Program.bind_assoc]
    refine (searches_writer keys).keeps_keyOf stable_wrote (by decide) hs hy ?_
    intro s1 hi1 hs1 hy1
    obtain ⟨L, hL⟩ := hi1.shape
    obtain ⟨hmem, hrank⟩ := (hL.at_iff (by decide)).mp hy1
    have hcount := hL.allocated 0 (by decide) y hmem
    rw [hs1.mem] at hcount hrank
    have hne : strcmp key k' ≠ 0 := fun heq =>
      hnew y k' hcount (key_of_rank hrank) (strcmp_eq_zero.mp heq).symm
    unfold assert
    rw [if_pos hne]
    exact hk s1 hi1 hs1

/-- A new node is on no level yet. -/
lemma Shape.linking {L : Nat → List Node} (hL : m.Shape L) {prev : PrevArray} {key : CString}
    {height : Nat} (hprev : prev.Leads m key height) (hle : height ≤ m.maxHeight) :
    Linking (m.newNode (some key) height) m.count key height prev 0 := by
  have hcell := newNode_cell_self m (some key) height
  refine ⟨⟨L, hL.newNode key height⟩, Nat.lt_succ_self _, ?_, ?_, hle, ?_, ?_, ?_⟩
  · exact rank_of_key (by rw [hcell])
  · rw [hcell]
  · intro l hl
    omega
  · intro l _ hl ρ hx
    rw [hL.newNode_at key height hl, hL.at_iff hl] at hx
    exact lt_irrefl _ (hL.allocated l hl _ hx.1)
  · intro l _ hl
    obtain ⟨p, hp, hgap⟩ := hprev l hl
    exact ⟨p, hp, hgap.congr (hL.newNode_at key height (hl.trans_le (hle.trans hL.height_le)))⟩

/-- The allocation of the node. -/
lemma keeps_newNode {prev : PrevArray} {key : CString} {height : Nat}
    (hprev : prev.Leads m key height) (hle : height ≤ m.maxHeight) (hdone : key ∈ done)
    (hs : Wrote done m s) {k : Ptr → Prog α} (hk : ∀ s' m', Inv keys s' → Wrote done m' s' →
      Linking m' m.count key height prev 0 →
      Program.Keeps exec t (writerInterface keys) Q (k (some m.count)) s') :
    Program.Keeps exec t (writerInterface keys) Q ((newNode key height).bind k) s := by
  refine keeps_det (o := .newNode key height) (u := some m.count)
    (f := fun s => s.setMem (s.mem.newNode (some key) height))
    (B := fun s => Wrote done (m.newNode (some key) height) s ∧
      Linking (m.newNode (some key) height) m.count key height prev 0) stable_wrote hs ?_ ?_
    (fun s1 hi1 hs1 => hk s1 _ hi1 hs1.1 hs1.2)
  · intro s1 hs1 u c
    rw [← hs1.mem]
    rfl
  · intro s1 hi1 hs1
    have hmem := hs1.mem
    subst hmem
    obtain ⟨L, hL⟩ := hi1.shape
    have hat := fun l (hl : l < kMaxHeight) => hL.newNode_at key height hl
    refine ⟨hi1.setMem ⟨L, hL.newNode key height⟩ (hat 0 (by decide)) ?_,
      State.Grows.setMem (fun l hl x ρ hx => (hat l hl x ρ).mpr hx), ⟨rfl, hs1.calls⟩,
      Shape.linking hL hprev hle⟩
    intro x k hx hkey
    rcases Nat.lt_succ_iff_lt_or_eq.mp hx with hlt | rfl
    · rw [newNode_cell_of_lt s1.mem _ height hlt] at hkey
      exact hi1.started x k hlt hkey
    · rw [newNode_cell_self, Option.some.injEq] at hkey
      subst hkey
      exact (hs1.calls _).mpr hdone

/-- The part of `Insert` behind the search, in front of the gaps for a key that no node has. -/
lemma keeps_insertAfterSearch {key : CString}
    (hnew : ∀ x k, x < m.count → (m.cell x).key = some k → k ≠ key) (hdone : key ∈ done)
    (hi : Inv keys s) (hs : Wrote done m s) {x : Ptr} (hx : Beyond 0 key x s) {a : PrevArray}
    (ha : a.Leads m key m.maxHeight) :
    Program.Keeps exec t (writerInterface keys) (fun _ s' => (∃ m', Wrote done m' s') ∧
      .linked key ∈ s'.trace) (insertAfterSearch key x a) s := by
  unfold insertAfterSearch
  refine keeps_assertNew hnew hi hs hx ?_
  intro s1 hi1 hs1
  refine Program.Keeps.bind hi1 (keeps_randomHeightLoop (searches_writer keys) stable_wrote
    Nat.one_pos hs1) ?_
  rintro height s2 hi2 ⟨hs2, hpos, hle⟩
  refine keeps_raiseMaxHeight ha (by omega) hs2 ?_
  intro s3 m3 prev hi3 hs3 _ hheight hprev
  refine keeps_newNode hprev hheight hdone hs3 ?_
  intro s4 m4 hi4 hs4 hlinking
  exact keeps_linkLoop (Nat.zero_add height) hpos hlinking hdone hs4 (fun h => absurd h (lt_irrefl 0))

/-- `Insert` links a key that no node has. -/
theorem keeps_insert {rounds : Nat} (hrounds : keys.length + kMaxHeight ≤ rounds) {key : CString}
    (hnew : ∀ x k, x < m.count → (m.cell x).key = some k → k ≠ key) (hdone : key ∈ done)
    (hi : Inv keys s) (hs : Wrote done m s) :
    Program.Keeps exec t (writerInterface keys) (fun _ s' => (∃ m', Wrote done m' s') ∧
      .linked key ∈ s'.trace) (insert rounds key) s := by
  have hsees : Sees keys (writerInterface keys) (Wrote (τ := τ) done m)
      (fun l ρ _ r _ => m.IsNext l ρ r) := by
    refine ⟨searches_writer keys, stable_wrote, fun _ _ _ _ _ _ _ _ h => h, ?_⟩
    intro s1 l ρ x r _ hs1 _ _ hr
    rw [hs1.mem] at hr
    exact hr
  unfold insert
  refine Program.Keeps.bind hi (hsees.keeps_findGreaterOrEqual (C := fun h => h = m.maxHeight)
    (fun s1 hs1 => by rw [hs1.mem]) hrounds key (some (fun _ => none)) hs) ?_
  rintro ⟨x, prev⟩ s1 hi1 ⟨hs1, ⟨y, ρ, -, -, -, hbeyond⟩, ⟨height, rfl, hfill⟩, hsome⟩
  obtain ⟨a, rfl⟩ := Option.isSome_iff_exists.mp hsome
  exact keeps_insertAfterSearch hnew hdone hi1 hs1 hbeyond (leads_of_filled hnew hi1 hs1 hfill)

/-! ## The whole writer -/

/-- The writer begins to insert another key. -/
lemma keeps_insertCall {key : CString} (hkey : key ∈ keys) (hs : ∃ m, Wrote done m s)
    {k : Unit → Prog α} (hk : ∀ s' m', Inv keys s' → Wrote (key :: done) m' s' →
      (∀ x k, x < m'.count → (m'.cell x).key = some k → k ∈ done) →
      Program.Keeps exec t (writerInterface keys) Q (k ()) s') :
    Program.Keeps exec t (writerInterface keys) Q
      ((Program.op (S := signature) (.insertCall key)).bind k) s := by
  have hstable : (writerInterface keys).Stable (fun s : State τ => ∃ m, Wrote done m s) := by
    rintro s1 s2 hi hrely ⟨m', hm'⟩
    exact ⟨m', stable_wrote s1 s2 hi hrely hm'⟩
  refine keeps_det (o := .insertCall key) (u := ()) (f := fun s => s.record (.insertCall key))
    (B := fun s => ∃ m', Wrote (key :: done) m' s ∧
      ∀ x k, x < m'.count → (m'.cell x).key = some k → k ∈ done) hstable hs
    (fun _ _ _ _ => rfl) ?_ (fun s1 hi1 hs1 => hk s1 _ hi1 hs1.choose_spec.1 hs1.choose_spec.2)
  rintro s1 hi1 ⟨m', hs1⟩
  have hmem := hs1.mem
  subst hmem
  refine ⟨⟨hi1.shape, ?_, hi1.faithful.concat trivial, ?_, ?_⟩, State.Grows.record rfl,
    s1.mem, ⟨rfl, fun k => ?_⟩, fun x k hx hxk => (hs1.calls k).mp (hi1.started x k hx hxk)⟩
  · intro k
    change k ∈ linkedKeys (s1.trace ++ [.insertCall key]) ↔ _
    rw [linkedKeys_concat (by simp)]
    exact hi1.linked_iff k
  · exact fun x k hx hxk => List.mem_append_left _ (hi1.started x k hx hxk)
  · intro k hk
    rcases List.mem_append.mp hk with hk | hk
    · exact hi1.planned k hk
    · cases List.mem_singleton.mp hk
      exact hkey
  · change .insertCall k ∈ s1.trace ++ [.insertCall key] ↔ _
    rw [List.mem_append, hs1.calls]
    simp [or_comm]

/-- The insertion of a key returns. -/
lemma keeps_insertReturn {key : CString} (hs : (∃ m, Wrote done m s) ∧ .linked key ∈ s.trace)
    {k : Unit → Prog α} (hk : ∀ s', Inv keys s' → (∃ m, Wrote done m s') →
      Program.Keeps exec t (writerInterface keys) Q (k ()) s') :
    Program.Keeps exec t (writerInterface keys) Q
      ((Program.op (S := signature) (.insertReturn key)).bind k) s := by
  have hstable : (writerInterface keys).Stable (fun s : State τ => ∃ m, Wrote done m s) := by
    rintro s1 s2 hi hrely ⟨m', hm'⟩
    exact ⟨m', stable_wrote s1 s2 hi hrely hm'⟩
  refine keeps_det (o := .insertReturn key) (u := ()) (f := fun s => s.record (.insertReturn key))
    (B := fun s => ∃ m, Wrote done m s) (hstable.and stable_trace) hs (fun _ _ _ _ => rfl) ?_ hk
  rintro s1 hi1 ⟨⟨m', hs1⟩, hlinked⟩
  refine ⟨hi1.record hlinked (by simp) (by simp), State.Grows.record rfl, m', hs1.mem, fun k => ?_⟩
  change .insertCall k ∈ s1.trace ++ [.insertReturn key] ↔ _
  rw [List.mem_append, hs1.calls]
  simp

/-- The writer keeps to its interface when it inserts distinct keys. -/
theorem keeps_writer {rounds : Nat} (hrounds : keys.length + kMaxHeight ≤ rounds)
    {rest : List CString} (hrest : ∀ k ∈ rest, k ∈ keys) (hnodup : rest.Nodup)
    (hdone : ∀ k ∈ rest, k ∉ done) (hs : ∃ m, Wrote done m s) :
    Program.Keeps exec t (writerInterface keys) (fun _ _ => True) (writer rounds rest) s := by
  induction rest generalizing done s with
  | nil => exact Program.Keeps.ret (fun _ _ _ _ h => h) trivial
  | cons key rest ih =>
    obtain ⟨hkey, hnodup⟩ := List.nodup_cons.mp hnodup
    refine keeps_insertCall (hrest key List.mem_cons_self) hs ?_
    intro s1 m1 hi1 hs1 hold
    have hnew : ∀ x k, x < m1.count → (m1.cell x).key = some k → k ≠ key := by
      rintro x k hx hxk rfl
      exact hdone k List.mem_cons_self (hold x k hx hxk)
    refine Program.Keeps.bind hi1 (keeps_insert hrounds hnew List.mem_cons_self hi1 hs1) ?_
    intro _ s2 _ hs2
    refine keeps_insertReturn hs2 ?_
    intro s3 _ hs3
    refine ih (fun k hk => hrest k (List.mem_cons_of_mem _ hk)) hnodup ?_ hs3
    intro k hk hmem
    rcases List.mem_cons.mp hmem with rfl | hmem
    · exact hkey hk
    · exact hdone k (List.mem_cons_of_mem _ hk) hmem

end Steps

end MemSafeDB.SkipList
