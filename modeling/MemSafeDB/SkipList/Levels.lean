import MemSafeDB.Lib.Chain
import MemSafeDB.SkipList.State

/-!
# The levels of the skip list

At every level the links lead from `head_` through nodes of ascending keys, and the nodes of a
level are on the level below too. While a tower is half linked, its node is on the lower levels
only, which the invariant allows.
-/

namespace MemSafeDB.SkipList
open Lib

namespace Memory

/-- The nodes of a level, in the order of the links. -/
def Level (m : Memory) (level : Nat) (xs : List Node) : Prop :=
  Linked (m.next level) (head :: xs)

/-- The node is `head_` or on the level, and this is its key. -/
def At (m : Memory) (level : Nat) (x : Node) (ρ : WithBot CString) : Prop :=
  ∃ xs, m.Level level xs ∧ x ∈ head :: xs ∧ m.rank x = ρ

/-- What a node with this key is linked to. -/
def IsNext (m : Memory) (level : Nat) (ρ : WithBot CString) : Ptr → Prop
  | none => ∀ z σ, m.At level z σ → σ ≤ ρ
  | some y => ∃ k : CString, m.At level y k ∧ ρ < k ∧ ∀ z σ, m.At level z σ → ρ < σ → k ≤ σ

/-- The keys of the level leave a gap for the key behind the node. -/
def Gap (m : Memory) (level : Nat) (p : Node) (key : CString) : Prop :=
  ∃ ρ, m.At level p ρ ∧ ρ < key ∧ ∀ z σ, m.At level z σ → ρ < σ → (key : WithBot CString) < σ

/-- The levels consist of these nodes. -/
structure Shape (m : Memory) (L : Nat → List Node) : Prop where
  linked : ∀ l < kMaxHeight, m.Level l (L l)
  ascending : ∀ l < kMaxHeight, Ascending m.rank (head :: L l)
  below : ∀ l, l + 1 < kMaxHeight → L (l + 1) ⊆ L l
  allocated : ∀ l < kMaxHeight, ∀ x ∈ head :: L l, x < m.count
  tall : ∀ l < kMaxHeight, ∀ x ∈ head :: L l, l < (m.cell x).height
  headKey : (m.cell head).key = none
  keyed : ∀ x, x ≠ head → x < m.count → ∃ k, (m.cell x).key = some k
  empty : ∀ l, m.maxHeight ≤ l → l < kMaxHeight → L l = []
  height_pos : 0 < m.maxHeight
  height_le : m.maxHeight ≤ kMaxHeight

lemma rank_of_key {m : Memory} {x : Node} {k : CString} (h : (m.cell x).key = some k) :
    m.rank x = k := by
  unfold rank
  rw [h]
  rfl

lemma key_of_rank {m : Memory} {x : Node} {k : CString} (h : m.rank x = k) :
    (m.cell x).key = some k := by
  unfold rank at h
  cases hkey : (m.cell x).key with
  | none =>
    rw [hkey] at h
    exact absurd h (WithBot.bot_ne_coe)
  | some k' =>
    rw [hkey] at h
    exact congrArg some (WithBot.coe_inj.mp h)

namespace Shape

variable {m : Memory} {L : Nat → List Node} {l : Nat}

lemma at_iff (h : m.Shape L) (hl : l < kMaxHeight) {x : Node} {ρ : WithBot CString} :
    m.At l x ρ ↔ x ∈ head :: L l ∧ m.rank x = ρ := by
  constructor
  · rintro ⟨xs, hlevel, hx, hρ⟩
    rw [(h.linked l hl).unique hlevel]
    exact ⟨hx, hρ⟩
  · rintro ⟨hx, hρ⟩
    exact ⟨L l, h.linked l hl, hx, hρ⟩

lemma rank_head (h : m.Shape L) : m.rank head = ⊥ := by
  unfold rank
  rw [h.headKey]
  rfl

lemma head_at (h : m.Shape L) (hl : l < kMaxHeight) : m.At l head ⊥ :=
  (h.at_iff hl).mpr ⟨List.mem_cons_self, h.rank_head⟩

lemma ne_head (h : m.Shape L) (hl : l < kMaxHeight) {x : Node} (hx : x ∈ L l) : x ≠ head := by
  have hlt := (List.pairwise_cons.mp (h.ascending l hl)).1 x hx
  rintro rfl
  exact lt_irrefl _ hlt

lemma key (h : m.Shape L) (hl : l < kMaxHeight) {x : Node} (hx : x ∈ L l) :
    ∃ k : CString, m.rank x = k := by
  obtain ⟨k, hk⟩ := h.keyed x (h.ne_head hl hx) (h.allocated l hl x (List.mem_cons_of_mem _ hx))
  exact ⟨k, rank_of_key hk⟩

/-- `head_` is the node whose key is below all others. -/
lemma at_bot (h : m.Shape L) (hl : l < kMaxHeight) {x : Node} {ρ : WithBot CString}
    (hx : m.At l x ρ) : x = head ↔ ρ = ⊥ := by
  obtain ⟨hmem, rfl⟩ := (h.at_iff hl).mp hx
  constructor
  · rintro rfl
    exact h.rank_head
  · intro hbot
    rcases List.mem_cons.mp hmem with rfl | hmem
    · rfl
    · obtain ⟨k, hk⟩ := h.key hl hmem
      rw [hk] at hbot
      exact absurd hbot WithBot.coe_ne_bot

lemma at_below (h : m.Shape L) (hl : l + 1 < kMaxHeight) {x : Node} {ρ : WithBot CString}
    (hx : m.At (l + 1) x ρ) : m.At l x ρ := by
  obtain ⟨hmem, hρ⟩ := (h.at_iff hl).mp hx
  refine (h.at_iff (Nat.lt_of_succ_lt hl)).mpr ⟨?_, hρ⟩
  rcases List.mem_cons.mp hmem with rfl | hmem
  · exact List.mem_cons_self
  · exact List.mem_cons_of_mem _ (h.below l hl hmem)

/-- A node is linked to the node with the next higher key of its level. -/
lemma next_eq (h : m.Shape L) (hl : l < kMaxHeight) {x : Node} {ρ : WithBot CString}
    (hx : m.At l x ρ) : ∃ r, m.next l x = some r ∧ m.IsNext l ρ r := by
  obtain ⟨hmem, rfl⟩ := (h.at_iff hl).mp hx
  obtain ⟨as, bs, heq⟩ := List.append_of_mem hmem
  have hlinked : Linked (m.next l) (as ++ x :: bs) := heq ▸ h.linked l hl
  have hasc : Ascending m.rank (as ++ x :: bs) := heq ▸ h.ascending l hl
  refine ⟨bs.head?, hlinked.next_eq, ?_⟩
  have hbehind : ∀ z σ, m.At l z σ → m.rank x < σ → z ∈ bs := by
    intro z σ hz hlt
    obtain ⟨hzmem, rfl⟩ := (h.at_iff hl).mp hz
    exact hasc.mem_behind (heq ▸ hzmem) hlt
  cases bs with
  | nil =>
    intro z σ hz
    by_contra hlt
    exact absurd (hbehind z σ hz (not_le.mp hlt)) List.not_mem_nil
  | cons y bs =>
    have hxy : m.rank x < m.rank y := hasc.split.2 y List.mem_cons_self
    have hy : y ∈ head :: L l := by
      rw [heq]
      simp
    have hyL : y ∈ L l := by
      rcases List.mem_cons.mp hy with rfl | hy
      · rw [h.rank_head] at hxy
        exact absurd hxy not_lt_bot
      · exact hy
    obtain ⟨k, hk⟩ := h.key hl hyL
    refine ⟨k, (h.at_iff hl).mpr ⟨hy, hk⟩, hk ▸ hxy, ?_⟩
    intro z σ hz hlt
    have hzb := hbehind z σ hz hlt
    obtain ⟨-, rfl⟩ := (h.at_iff hl).mp hz
    rw [← hk]
    rcases List.mem_cons.mp hzb with rfl | hzb
    · exact le_rfl
    · have hasc' : Ascending m.rank ((as ++ [x]) ++ y :: bs) := by simpa using hasc
      exact (hasc'.split.2 z hzb).le

/-! ## What the writer does -/

lemma setMaxHeight (h : m.Shape L) {height : Nat} (hge : m.maxHeight ≤ height)
    (hle : height ≤ kMaxHeight) : Shape { m with maxHeight := height } L where
  linked := h.linked
  ascending := h.ascending
  below := h.below
  allocated := h.allocated
  tall := h.tall
  headKey := h.headKey
  keyed := h.keyed
  empty := fun l hl => h.empty l (hge.trans hl)
  height_pos := h.height_pos.trans_le hge
  height_le := hle

end Shape

section NewNode

variable (m : Memory) (key : Option CString) (height : Nat)

lemma newNode_cell_of_lt {x : Node} (hx : x < m.count) :
    (m.newNode key height).cell x = m.cell x :=
  Function.update_of_ne (Nat.ne_of_lt hx) _ _

@[simp] lemma newNode_cell_self : (m.newNode key height).cell m.count = ⟨key, height, fun _ => none⟩ :=
  Function.update_self _ _ _

lemma newNode_rank_of_lt {x : Node} (hx : x < m.count) :
    (m.newNode key height).rank x = m.rank x := by
  unfold rank
  rw [newNode_cell_of_lt m key height hx]

lemma newNode_next_of_lt {x : Node} (hx : x < m.count) (l : Nat) :
    (m.newNode key height).next l x = m.next l x := by
  unfold next
  rw [newNode_cell_of_lt m key height hx]

end NewNode

lemma Shape.newNode {m : Memory} {L : Nat → List Node} (h : m.Shape L) (key : CString)
    (height : Nat) : (m.newNode (some key) height).Shape L where
  linked := fun l hl => (h.linked l hl).congr
    (fun x hx => newNode_next_of_lt m _ height (h.allocated l hl x hx) l)
  ascending := fun l hl => (h.ascending l hl).congr
    (fun x hx => newNode_rank_of_lt m _ height (h.allocated l hl x hx))
  below := h.below
  allocated := fun l hl x hx => (h.allocated l hl x hx).trans (Nat.lt_succ_self _)
  tall := by
    intro l hl x hx
    rw [newNode_cell_of_lt m _ height (h.allocated l hl x hx)]
    exact h.tall l hl x hx
  headKey := by
    rw [newNode_cell_of_lt m _ height (h.allocated 0 (by decide) head List.mem_cons_self)]
    exact h.headKey
  keyed := by
    intro x hne hx
    rcases Nat.lt_succ_iff_lt_or_eq.mp hx with hlt | rfl
    · rw [newNode_cell_of_lt m _ height hlt]
      exact h.keyed x hne hlt
    · exact ⟨key, by simp⟩
  empty := h.empty
  height_pos := h.height_pos
  height_le := h.height_le

section SetNext

variable (m : Memory) (x : Node) (level : Nat) (r : Ptr)

@[simp] lemma setNext_count : (m.setNext x level r).count = m.count := rfl

@[simp] lemma setNext_key (y : Node) : ((m.setNext x level r).cell y).key = (m.cell y).key := by
  unfold setNext
  by_cases hy : y = x
  · subst hy
    simp
  · simp [hy]

@[simp] lemma setNext_height (y : Node) :
    ((m.setNext x level r).cell y).height = (m.cell y).height := by
  unfold setNext
  by_cases hy : y = x
  · subst hy
    simp
  · simp [hy]

@[simp] lemma setNext_rank (y : Node) : (m.setNext x level r).rank y = m.rank y := by
  unfold rank
  rw [setNext_key]

lemma setNext_rank_eq : (m.setNext x level r).rank = m.rank := by
  funext y
  exact setNext_rank m x level r y

lemma setNext_next_self :
    (m.setNext x level r).next level = Function.update (m.next level) x (some r) := by
  funext y
  unfold next setNext
  by_cases hy : y = x
  · subst hy
    simp
  · simp [hy]

lemma setNext_next_of_ne {l : Nat} (hl : l ≠ level) :
    (m.setNext x level r).next l = m.next l := by
  funext y
  unfold next setNext
  by_cases hy : y = x
  · subst hy
    simp [hl]
  · simp [hy]

end SetNext

namespace Shape

variable {m : Memory} {L : Nat → List Node} {level : Nat} {x p : Node}

/-- A store to a link of a node that is not on the level yet. -/
lemma setNext_unlinked (h : m.Shape L) (hx : x ∉ head :: L level) (r : Ptr) :
    (m.setNext x level r).Shape L where
  linked := by
    intro l hl
    unfold Level
    by_cases hlevel : l = level
    · subst hlevel
      rw [setNext_next_self]
      refine (h.linked l hl).congr (fun y hy => Function.update_of_ne ?_ _ _)
      rintro rfl
      exact hx hy
    · rw [setNext_next_of_ne m x level r hlevel]
      exact h.linked l hl
  ascending := by
    rw [setNext_rank_eq]
    exact h.ascending
  below := h.below
  allocated := h.allocated
  tall := by simpa using h.tall
  headKey := by simpa using h.headKey
  keyed := by simpa using h.keyed
  empty := h.empty
  height_pos := h.height_pos
  height_le := h.height_le

/-- The store that links a node in behind `p`. -/
lemma setNext_linked (h : m.Shape L) {as bs : List Node} (hl : level < m.maxHeight)
    (hp : head :: L level = as ++ p :: bs) (hnext : m.next level x = some bs.head?)
    (hpx : m.rank p < m.rank x) (hxb : ∀ y ∈ bs, m.rank x < m.rank y) (hx : x < m.count)
    (htall : level < (m.cell x).height) (hbelow : ∀ l, level = l + 1 → x ∈ L l) :
    ∃ xs, (m.setNext p level (some x)).Shape (Function.update L level xs) ∧
      ∀ y, y ∈ xs ↔ y = x ∨ y ∈ L level := by
  have hlk : level < kMaxHeight := hl.trans_le h.height_le
  obtain ⟨xs, hxs⟩ : ∃ xs, head :: xs = as ++ p :: x :: bs := by
    cases as with
    | nil =>
      rw [List.nil_append, List.cons.injEq] at hp
      exact ⟨x :: bs, by rw [hp.1]; rfl⟩
    | cons a as =>
      rw [List.cons_append, List.cons.injEq] at hp
      exact ⟨as ++ p :: x :: bs, by rw [hp.1]; rfl⟩
  have hxp : x ≠ p := by
    rintro rfl
    exact lt_irrefl _ hpx
  have hmem : ∀ y, y ∈ head :: xs ↔ y = x ∨ y ∈ head :: L level := by
    intro y
    rw [hxs, hp]
    simp only [List.mem_append, List.mem_cons]
    tauto
  have hasc : Ascending m.rank (head :: xs) := by
    rw [hxs]
    exact (hp ▸ h.ascending level hlk).insert hpx hxb
  have hlinked : Linked (Function.update (m.next level) p (some (some x))) (head :: xs) := by
    have hold : Linked (m.next level) (as ++ p :: bs) := by
      rw [← hp]
      exact h.linked level hlk
    rw [hxs]
    exact hold.insert (hp ▸ h.ascending level hlk).nodup hnext hxp
  have hxhead : x ≠ head := by
    rintro rfl
    rw [h.rank_head] at hpx
    exact not_lt_bot hpx
  have hmem' : ∀ y, y ∈ xs ↔ y = x ∨ y ∈ L level := by
    intro y
    have hy := hmem y
    by_cases hyh : y = head
    · subst hyh
      have h1 : head ∉ xs := fun hmem =>
        lt_irrefl _ ((List.pairwise_cons.mp hasc).1 head hmem)
      have h2 : head ∉ L level := fun hmem => h.ne_head hlk hmem rfl
      simp [h1, h2, Ne.symm hxhead]
    · simpa [hyh] using hy
  have hcases : ∀ l, Function.update L level xs l = if l = level then xs else L l :=
    fun l => Function.update_apply L level xs l
  have hall : ∀ l < kMaxHeight, ∀ y ∈ head :: Function.update L level xs l,
      (y = x ∧ l = level) ∨ y ∈ head :: L l := by
    intro l hl y hy
    rw [hcases] at hy
    split at hy
    · rename_i heq
      subst heq
      rcases (hmem y).mp hy with rfl | hy
      · exact Or.inl ⟨rfl, rfl⟩
      · exact Or.inr hy
    · exact Or.inr hy
  refine ⟨xs, ?_, hmem'⟩
  refine ⟨?_, ?_, ?_, ?_, ?_, by simpa using h.headKey, by simpa using h.keyed, ?_,
    h.height_pos, h.height_le⟩
  · intro l hl
    unfold Level
    rw [hcases]
    split
    · rename_i heq
      subst heq
      rw [setNext_next_self]
      exact hlinked
    · rename_i hne
      rw [setNext_next_of_ne m p level (some x) hne]
      exact h.linked l hl
  · intro l hl
    rw [setNext_rank_eq, hcases]
    split
    · exact hasc
    · exact h.ascending l hl
  · intro l hlt y hy
    rw [hcases] at hy ⊢
    by_cases hup : l + 1 = level
    · rw [if_pos hup] at hy
      rw [if_neg (by omega)]
      rcases (hmem' y).mp hy with rfl | hy
      · exact hbelow l hup.symm
      · subst hup
        exact h.below l hlt hy
    · rw [if_neg hup] at hy
      have hyl := h.below l hlt hy
      split
      · rename_i heq
        subst heq
        exact (hmem' y).mpr (Or.inr hyl)
      · exact hyl
  · intro l hl y hy
    rcases hall l hl y hy with ⟨rfl, -⟩ | hy
    · exact hx
    · exact h.allocated l hl y hy
  · intro l hl y hy
    rw [setNext_height]
    rcases hall l hl y hy with ⟨rfl, rfl⟩ | hy
    · exact htall
    · exact h.tall l hl y hy
  · intro l hge hlt
    have hne : l ≠ level := (hl.trans_le hge).ne'
    rw [hcases, if_neg hne]
    exact h.empty l hge hlt

/-- Two shapes with the same nodes on a level, and the same keys of these. -/
lemma at_congr (h : m.Shape L) {m' : Memory} {L' : Nat → List Node} (h' : m'.Shape L') {l : Nat}
    (hl : l < kMaxHeight) (hL : L' l = L l) (hrank : ∀ y ∈ head :: L l, m'.rank y = m.rank y)
    (y : Node) (σ : WithBot CString) : m'.At l y σ ↔ m.At l y σ := by
  rw [h.at_iff hl, h'.at_iff hl, hL]
  exact and_congr_right (fun hy => by rw [hrank y hy])

lemma newNode_at (h : m.Shape L) (key : CString) (height : Nat) {l : Nat} (hl : l < kMaxHeight)
    (y : Node) (σ : WithBot CString) :
    (m.newNode (some key) height).At l y σ ↔ m.At l y σ :=
  h.at_congr (h.newNode key height) hl rfl
    (fun y hy => newNode_rank_of_lt m _ height (h.allocated l hl y hy)) y σ

/-- A store to a link of a node that is not on the level changes no level. -/
lemma setNext_at (h : m.Shape L) (hlevel : level < kMaxHeight) (hx : ∀ ρ, ¬m.At level x ρ)
    (r : Ptr) : (m.setNext x level r).Shape L ∧ ∀ l < kMaxHeight, ∀ y σ,
      (m.setNext x level r).At l y σ ↔ m.At l y σ := by
  have hmem : x ∉ head :: L level := fun hmem =>
    hx (m.rank x) ((h.at_iff hlevel).mpr ⟨hmem, rfl⟩)
  refine ⟨h.setNext_unlinked hmem r, fun l hl => ?_⟩
  exact h.at_congr (h.setNext_unlinked hmem r) hl rfl (fun y _ => setNext_rank m x level r y)

/-- The store that links a node into a gap. -/
lemma link_at (h : m.Shape L) {key : CString} {r : Ptr} (hl : level < m.maxHeight)
    (hgap : m.Gap level p key) (hp : m.next level p = some r) (hr : m.next level x = some r)
    (hkey : m.rank x = key) (hx : x < m.count) (htall : level < (m.cell x).height)
    (hbelow : ∀ l, level = l + 1 → ∃ ρ, m.At l x ρ) :
    ∃ L', (m.setNext p level (some x)).Shape L' ∧ ∀ l < kMaxHeight, ∀ y σ,
      (m.setNext p level (some x)).At l y σ ↔ m.At l y σ ∨ (l = level ∧ y = x ∧ σ = key) := by
  have hlk : level < kMaxHeight := hl.trans_le h.height_le
  obtain ⟨ρ, hat, hρ, hgap⟩ := hgap
  obtain ⟨hmem, rfl⟩ := (h.at_iff hlk).mp hat
  obtain ⟨as, bs, heq⟩ := List.append_of_mem hmem
  have hlinked : Linked (m.next level) (as ++ p :: bs) := heq ▸ h.linked level hlk
  have hasc : Ascending m.rank (as ++ p :: bs) := heq ▸ h.ascending level hlk
  rw [hlinked.next_eq, Option.some.injEq] at hp
  subst hp
  have hxb : ∀ y ∈ bs, m.rank x < m.rank y := by
    intro y hy
    rw [hkey]
    refine hgap y _ ((h.at_iff hlk).mpr ⟨?_, rfl⟩) (hasc.split.2 y hy)
    rw [heq]
    simp [hy]
  have hbelow' : ∀ l, level = l + 1 → x ∈ L l := by
    rintro l rfl
    obtain ⟨σ, hσ⟩ := hbelow l rfl
    obtain ⟨hxl, -⟩ := (h.at_iff (Nat.lt_of_succ_lt hlk)).mp hσ
    rcases List.mem_cons.mp hxl with rfl | hxl
    · rw [h.rank_head] at hkey
      exact absurd hkey WithBot.bot_ne_coe
    · exact hxl
  obtain ⟨xs, hshape, hxs⟩ := h.setNext_linked hl heq hr (hkey ▸ hρ) hxb hx htall hbelow'
  refine ⟨_, hshape, fun l hlt y σ => ?_⟩
  by_cases hlevel : l = level
  · subst hlevel
    rw [h.at_iff hlt, hshape.at_iff hlt, Function.update_self, setNext_rank, List.mem_cons,
      List.mem_cons, hxs]
    constructor
    · rintro ⟨rfl | rfl | hy, rfl⟩
      · exact Or.inl ⟨Or.inl rfl, rfl⟩
      · exact Or.inr ⟨rfl, rfl, hkey⟩
      · exact Or.inl ⟨Or.inr hy, rfl⟩
    · rintro (⟨rfl | hy, rfl⟩ | ⟨-, rfl, rfl⟩)
      · exact ⟨Or.inl rfl, rfl⟩
      · exact ⟨Or.inr (Or.inr hy), rfl⟩
      · exact ⟨Or.inr (Or.inl rfl), hkey⟩
  · have hsame := h.at_congr hshape hlt (Function.update_of_ne hlevel _ _)
      (fun y _ => setNext_rank m p level (some x) y) y σ
    rw [hsame]
    simp [hlevel]

end Shape

end Memory

end MemSafeDB.SkipList
