import MemSafeDB.SkipList.Discipline

/-!
# Searching

A search goes right as long as the keys are low enough and down where they are not. It is at a
node of its level all the time, whatever is inserted meanwhile, so it never comes to a link that
is unset. Each round goes down or passes one more of the keys, which bounds their number.

What a search saw at a node before it went down or stopped is a parameter: the writer can be
sure that it still holds at the end, a reader only that it once did.
-/

namespace MemSafeDB.SkipList
open Lib Memory

variable {τ : Type} [DecidableEq τ]

/-- Number of keys above a bound. -/
def above (keys : List CString) (ρ : WithBot CString) : Nat :=
  keys.countP (fun k : CString => decide (ρ < (k : WithBot CString)))

lemma above_le_length (keys : List CString) (ρ : WithBot CString) : above keys ρ ≤ keys.length :=
  List.countP_le_length

/-- One of the keys is passed. -/
lemma above_lt {keys : List CString} {k : CString} (hk : k ∈ keys) {ρ : WithBot CString}
    (h : ρ < k) : above keys k < above keys ρ := by
  induction keys with
  | nil => exact absurd hk List.not_mem_nil
  | cons k' keys ih =>
    have hmono : above keys k ≤ above keys ρ := by
      refine List.countP_mono_left ?_
      intro x _ hx
      exact decide_eq_true (h.trans (of_decide_eq_true hx))
    unfold above at hmono ih ⊢
    rw [List.countP_cons, List.countP_cons]
    by_cases hkk : k' = k
    · subst hkk
      simp only [lt_irrefl, decide_false, Bool.false_eq_true, if_false, h, decide_true, if_true]
      omega
    · have hlt := ih ((List.mem_cons.mp hk).resolve_left (Ne.symm hkk))
      by_cases hup : (k : WithBot CString) < k'
      · simp only [hup, h.trans hup, decide_true, if_true]
        omega
      · simp only [hup, decide_false, Bool.false_eq_true, if_false]
        omega

/-- The pointer is null or leads to a node of the level whose key is not below the bound. -/
def Beyond (level : Nat) (key : CString) (r : Ptr) (s : State τ) : Prop :=
  match r with
  | none => True
  | some y => ∃ k : CString, s.mem.At level y k ∧ key ≤ k

/-- A search for the key goes no further than node `x` on the level, where it saw `B` and the
pointer `r`. -/
def StopsAt (B : Nat → WithBot CString → Node → Ptr → State τ → Prop) (key : CString)
    (level : Nat) (x : Node) (r : Ptr) (s : State τ) : Prop :=
  ∃ ρ : WithBot CString, s.mem.At level x ρ ∧ ρ < key ∧ B level ρ x r s ∧ Beyond level key r s

section Loops

variable {keys : List CString} {J : Interface signature (State τ)} {t : τ}
  {A : State τ → Prop} {B : Nat → WithBot CString → Node → Ptr → State τ → Prop}

lemma Searches.stable_beyond (hJ : Searches keys J) {l : Nat} (hl : l < kMaxHeight)
    (key : CString) (r : Ptr) : J.Stable (Beyond l key r) := by
  intro s s' hi hr h
  cases r with
  | none => trivial
  | some y =>
    obtain ⟨k, hy, hle⟩ := h
    exact ⟨k, hJ.stable_at hl y k s s' hi hr hy, hle⟩

lemma Searches.stable_stopsAt (hJ : Searches keys J) (hB : ∀ l ρ x r, J.Stable (B l ρ x r))
    {l : Nat} (hl : l < kMaxHeight) (key : CString) (x : Node) (r : Ptr) :
    J.Stable (StopsAt B key l x r) := by
  rintro s s' hi hr ⟨ρ, hx, hρ, hb, hbeyond⟩
  exact ⟨ρ, hJ.stable_at hl x ρ s s' hi hr hx, hρ, hB l ρ x r s s' hi hr hb,
    hJ.stable_beyond hl key r s s' hi hr hbeyond⟩

/-- What a loop may assume about the state and what the thread sees at a load. -/
structure Sees (keys : List CString) (J : Interface signature (State τ)) (A : State τ → Prop)
    (B : Nat → WithBot CString → Node → Ptr → State τ → Prop) : Prop where
  searches : Searches keys J
  stable : J.Stable A
  stable_seen : ∀ l ρ x r, J.Stable (B l ρ x r)
  seen : ∀ s l ρ x r, Inv keys s → A s → l < kMaxHeight → s.mem.At l x ρ →
    s.mem.IsNext l ρ r → B l ρ x r s

/-- The array holds what the search saw on the levels from `low` to `top`. -/
def Filled (B : Nat → WithBot CString → Node → Ptr → State τ → Prop) (key : CString)
    (low top : Nat) (prev : Option PrevArray) (s : State τ) : Prop :=
  ∀ a, prev = some a → ∀ l, low ≤ l → l ≤ top →
    ∃ x r, a l = some (some x) ∧ StopsAt B key l x r s

lemma Sees.stable_filled (h : Sees keys J A B) {key : CString} {low top : Nat}
    (htop : top < kMaxHeight) (prev : Option PrevArray) : J.Stable (Filled B key low top prev) := by
  intro s s' hi hr hfill a ha l hlow hle
  obtain ⟨x, r, hx, hstop⟩ := hfill a ha l hlow hle
  exact ⟨x, r, hx,
    h.searches.stable_stopsAt h.stable_seen (hle.trans_lt htop) key x r s s' hi hr hstop⟩

omit [DecidableEq τ] in
/-- Going down from a node at which the search stops. -/
lemma Filled.update {key : CString} {low top : Nat} {prev : Option PrevArray} {s : State τ}
    (h : Filled B key (low + 1) top prev s) {x : Node} {r : Ptr} (hx : StopsAt B key low x r s) :
    Filled B key low top (prev.map (fun a => Function.update a low (some (some x)))) s := by
  intro a ha l hlow hle
  obtain ⟨a', rfl, rfl⟩ := Option.map_eq_some_iff.mp ha
  by_cases hl : l = low
  · subst hl
    exact ⟨x, r, by simp, hx⟩
  · obtain ⟨x', r', hx', hstop⟩ := h a' rfl l (by omega) hle
    exact ⟨x', r', by simpa [Function.update_of_ne hl] using hx', hstop⟩

/-- Whether the key is after the node that a search has come to. -/
lemma Searches.keeps_keyIsAfterNode {α : Type} {Q : α → State τ → Prop} (hJ : Searches keys J)
    (hA : J.Stable A) {s : State τ} (hi : Inv keys s) (hs : A s) {l : Nat} (hl : l < kMaxHeight)
    {ρ : WithBot CString} {r : Ptr} (hr : s.mem.IsNext l ρ r) {key : CString} {k : Bool → Prog α}
    (hstop : ∀ s', Inv keys s' → A s' → Beyond l key r s' → Program.Keeps exec t J Q (k false) s')
    (hgo : ∀ s' y (k' : CString), Inv keys s' → A s' → r = some y → s'.mem.At l y k' → ρ < k' →
      k' < key → Program.Keeps exec t J Q (k true) s') :
    Program.Keeps exec t J Q ((keyIsAfterNode key r).bind k) s := by
  unfold keyIsAfterNode
  cases r with
  | none =>
    rw [if_pos rfl]
    exact hstop s hi hs trivial
  | some y =>
    obtain ⟨k', hy, hlt, -⟩ := hr
    rw [if_neg (Option.some_ne_none y), Program.bind_eq, Program.bind_assoc]
    refine hJ.keeps_keyOf hA hl hs hy ?_
    intro s' hi' hs' hy'
    rw [Program.pure_eq, Program.ret_bind]
    by_cases hkey : strcmp k' key < 0
    · rw [decide_eq_true hkey]
      exact hgo s' y k' hi' hs' rfl hy' hlt (strcmp_neg.mp hkey)
    · rw [decide_eq_false hkey]
      rw [strcmp_neg, not_lt] at hkey
      exact hstop s' hi' hs' ⟨k', hy', hkey⟩

/-- The loop of `FindGreaterOrEqual` from a node of its level. -/
lemma Sees.keeps_findGreaterOrEqualLoop (h : Sees keys J A B) {key : CString} (top : Nat)
    (htop : top < kMaxHeight) {rounds : Nat} {s : State τ} {x : Node} {ρ : WithBot CString}
    {level : Nat} {prev : Option PrevArray} (hi : Inv keys s) (hs : A s) (hle : level ≤ top)
    (hx : s.mem.At level x ρ) (hρ : ρ < key) (hrounds : level + above keys ρ < rounds)
    (hfill : Filled B key (level + 1) top prev s) :
    Program.Keeps exec t J (fun res s' => A s' ∧ (∃ y, StopsAt B key 0 y res.1 s') ∧
      Filled B key 0 top res.2 s' ∧ res.2.isSome = prev.isSome)
      (findGreaterOrEqualLoop key (some x) level prev rounds) s := by
  have hJ := h.searches
  induction rounds generalizing s x ρ level prev with
  | zero => omega
  | succ rounds ih =>
    have hl : level < kMaxHeight := hle.trans_lt htop
    unfold findGreaterOrEqualLoop
    refine hJ.keeps_next (h.stable.and (h.stable_filled htop prev)) hl ⟨hs, hfill⟩ hx ?_
    rintro s1 r hi1 ⟨hs1, hfill1⟩ hx1 hr
    have hseen := h.seen s1 level ρ x r hi1 hs1 hl hx1 hr
    refine hJ.keeps_keyIsAfterNode (((h.stable.and (h.stable_filled htop prev)).and
      (hJ.stable_at hl x ρ)).and (h.stable_seen level ρ x r)) hi1 ⟨⟨⟨hs1, hfill1⟩, hx1⟩, hseen⟩
      hl hr ?_ ?_
    · rintro s2 hi2 ⟨⟨⟨hs2, hfill2⟩, hx2⟩, hseen2⟩ hbeyond
      have hstop : StopsAt B key level x r s2 := ⟨ρ, hx2, hρ, hseen2, hbeyond⟩
      have hfilled := hfill2.update hstop
      rw [if_neg Bool.false_ne_true]
      by_cases hlevel : level = 0
      · subst hlevel
        rw [if_pos rfl]
        refine Program.Keeps.ret ?_ ⟨hs2, ⟨x, hstop⟩, hfilled, Option.isSome_map⟩
        refine h.stable.and (Interface.Stable.and ?_ ((h.stable_filled htop _).and
          (fun _ _ _ _ h => h)))
        rintro s3 s4 hi4 hrely ⟨y, hy⟩
        exact ⟨y, hJ.stable_stopsAt h.stable_seen hl key y r s3 s4 hi4 hrely hy⟩
      · rw [if_neg hlevel]
        have hlow : level = level - 1 + 1 := by omega
        refine (ih hi2 hs2 (by omega) (hi2.at_below hl hx2) hρ (by omega) ?_).mono ?_
        · intro a ha l hlow' hup
          exact hfilled a ha l (hlow.le.trans hlow') hup
        rintro res s3 - ⟨hs3, hstop3, hfill3, hsome⟩
        exact ⟨hs3, hstop3, hfill3, hsome.trans Option.isSome_map⟩
    · rintro s2 y k' hi2 ⟨⟨⟨hs2, hfill2⟩, -⟩, -⟩ rfl hy hlt hkey
      have habove := above_lt (hi2.mem_keys hl hy) hlt
      rw [if_pos rfl]
      exact ih hi2 hs2 hle hy (WithBot.coe_lt_coe.mpr hkey) (by omega) hfill2

/-- `FindGreaterOrEqual` returns what the last node before the key was linked to when the search
came to its end. It begins at the maximal height of a state with `A`. -/
theorem Sees.keeps_findGreaterOrEqual (h : Sees keys J A B) {C : Nat → Prop}
    (hC : ∀ s, A s → C s.mem.maxHeight) {rounds : Nat} (hrounds : keys.length + kMaxHeight ≤ rounds)
    (key : CString) (prev : Option PrevArray) {s : State τ} (hs : A s) :
    Program.Keeps exec t J (fun res s' => A s' ∧ (∃ y, StopsAt B key 0 y res.1 s') ∧
      (∃ height, C height ∧ Filled B key 0 (height - 1) res.2 s') ∧ res.2.isSome = prev.isSome)
      (findGreaterOrEqual rounds key prev) s := by
  unfold findGreaterOrEqual
  refine h.searches.keeps_getMaxHeight h.stable hs ?_
  intro s1 hi1 hs1 hpos hle
  have habove := above_le_length keys ⊥
  refine (h.keeps_findGreaterOrEqualLoop (s1.mem.maxHeight - 1) (by omega) hi1 hs1 le_rfl
    (hi1.head_at (by omega)) (WithBot.bot_lt_coe key) (by omega) ?_).mono ?_
  · intro a ha l hlow hup
    omega
  · rintro res s2 - ⟨hs2, hstop, hfill, hsome⟩
    exact ⟨hs2, hstop, ⟨_, hC s1 hs1, hfill⟩, hsome⟩

omit [DecidableEq τ] in
lemma isNotBefore_eq (key : CString) (n : Ptr) :
    isNotBefore key n = (keyIsAfterNode key n).bind (fun b => pure (!b)) := by
  unfold isNotBefore keyIsAfterNode
  by_cases hn : n = none
  · rw [if_pos hn, if_pos hn]
    rfl
  · rw [if_neg hn, if_neg hn]
    simp only [Program.bind_eq, Program.bind_assoc, Program.pure_eq, Program.ret_bind,
      ← decide_not, Int.not_lt]

/-- The assertion holds for a node before the key. -/
lemma Searches.keeps_assertBefore {α : Type} {Q : α → State τ → Prop} (hJ : Searches keys J)
    (hA : J.Stable A) {s : State τ} (hi : Inv keys s) (hs : A s) {l : Nat} (hl : l < kMaxHeight)
    {x : Node} {ρ : WithBot CString} (hx : s.mem.At l x ρ) {key : CString} (hρ : ρ < key)
    {k : Unit → Prog α} (hk : ∀ s', Inv keys s' → A s' → s'.mem.At l x ρ →
      Program.Keeps exec t J Q (k ()) s') :
    Program.Keeps exec t J Q ((assertBefore key (some x)).bind k) s := by
  unfold assertBefore
  by_cases hhead : x = head
  · rw [if_pos (congrArg some hhead)]
    exact hk s hi hs hx
  · rw [if_neg (fun heq => hhead (Option.some.inj heq))]
    cases ρ with
    | bot => exact absurd ((hi.at_bot hl hx).mpr rfl) hhead
    | coe k' =>
      rw [Program.bind_eq, Program.bind_assoc]
      refine hJ.keeps_keyOf hA hl hs hx ?_
      intro s' hi' hs' hx'
      have hlt : strcmp k' key < 0 := strcmp_neg.mpr (WithBot.coe_lt_coe.mp hρ)
      unfold assert
      rw [if_pos hlt]
      exact hk s' hi' hs' hx'

/-- The loop of `FindLessThan` from a node of its level. -/
lemma Sees.keeps_findLessThanLoop (h : Sees keys J A B) {key : CString} {rounds : Nat}
    {s : State τ} {x : Node} {ρ : WithBot CString} {level : Nat} (hi : Inv keys s) (hs : A s)
    (hl : level < kMaxHeight) (hx : s.mem.At level x ρ) (hρ : ρ < key)
    (hrounds : level + above keys ρ < rounds) :
    Program.Keeps exec t J (fun p s' => A s' ∧ ∃ y r, p = some y ∧ StopsAt B key 0 y r s')
      (findLessThanLoop key (some x) level rounds) s := by
  have hJ := h.searches
  induction rounds generalizing s x ρ level with
  | zero => omega
  | succ rounds ih =>
    unfold findLessThanLoop
    refine hJ.keeps_assertBefore h.stable hi hs hl hx hρ ?_
    intro s1 hi1 hs1 hx1
    refine hJ.keeps_next h.stable hl hs1 hx1 ?_
    intro s2 r hi2 hs2 hx2 hr
    have hseen := h.seen s2 level ρ x r hi2 hs2 hl hx2 hr
    rw [isNotBefore_eq, Program.bind_eq, Program.bind_assoc]
    refine hJ.keeps_keyIsAfterNode ((h.stable.and (hJ.stable_at hl x ρ)).and
      (h.stable_seen level ρ x r)) hi2 ⟨⟨hs2, hx2⟩, hseen⟩ hl hr ?_ ?_
    · rintro s3 hi3 ⟨⟨hs3, hx3⟩, hseen3⟩ hbeyond
      rw [Program.pure_eq, Program.ret_bind, Bool.not_false, if_pos rfl]
      by_cases hlevel : level = 0
      · subst hlevel
        rw [if_pos rfl]
        refine Program.Keeps.ret ?_ ⟨hs3, x, r, rfl, ρ, hx3, hρ, hseen3, hbeyond⟩
        refine h.stable.and ?_
        rintro s4 s5 hi5 hrely ⟨y, r', hy, hstop⟩
        exact ⟨y, r', hy, hJ.stable_stopsAt h.stable_seen hl key y r' s4 s5 hi5 hrely hstop⟩
      · rw [if_neg hlevel]
        exact ih hi3 hs3 (by omega) (hi3.at_below hl hx3) hρ (by omega)
    · rintro s3 y k' hi3 ⟨⟨hs3, -⟩, -⟩ rfl hy hlt hkey
      have habove := above_lt (hi3.mem_keys hl hy) hlt
      rw [Program.pure_eq, Program.ret_bind, Bool.not_true, if_neg Bool.false_ne_true]
      exact ih hi3 hs3 hl hy (WithBot.coe_lt_coe.mpr hkey) (by omega)

/-- `FindLessThan` returns the last node before the key, as of the end of the search. -/
theorem Sees.keeps_findLessThan (h : Sees keys J A B) {rounds : Nat}
    (hrounds : keys.length + kMaxHeight ≤ rounds) (key : CString) {s : State τ} (hs : A s) :
    Program.Keeps exec t J (fun p s' => A s' ∧ ∃ y r, p = some y ∧ StopsAt B key 0 y r s')
      (findLessThan rounds key) s := by
  unfold findLessThan
  refine h.searches.keeps_getMaxHeight h.stable hs ?_
  intro s1 hi1 hs1 hpos hle
  have habove := above_le_length keys ⊥
  exact h.keeps_findLessThanLoop hi1 hs1 (by omega) (hi1.head_at (by omega))
    (WithBot.bot_lt_coe key) (by omega)

/-- The loop of `FindLast` from a node of its level. -/
lemma Sees.keeps_findLastLoop (h : Sees keys J A B) {rounds : Nat} {s : State τ} {x : Node}
    {ρ : WithBot CString} {level : Nat} (hs : A s) (hl : level < kMaxHeight)
    (hx : s.mem.At level x ρ) (hrounds : level + above keys ρ < rounds) :
    Program.Keeps exec t J (fun p s' => A s' ∧ ∃ y σ, p = some y ∧ s'.mem.At 0 y σ ∧
      B 0 σ y none s') (findLastLoop (some x) level rounds) s := by
  have hJ := h.searches
  induction rounds generalizing s x ρ level with
  | zero => omega
  | succ rounds ih =>
    unfold findLastLoop
    refine hJ.keeps_next h.stable hl hs hx ?_
    intro s1 r hi1 hs1 hx1 hr
    have hseen := h.seen s1 level ρ x r hi1 hs1 hl hx1 hr
    cases r with
    | none =>
      rw [if_pos rfl]
      by_cases hlevel : level = 0
      · subst hlevel
        rw [if_pos rfl]
        refine Program.Keeps.ret ?_ ⟨hs1, x, ρ, rfl, hx1, hseen⟩
        refine h.stable.and ?_
        rintro s2 s3 hi3 hrely ⟨y, σ, hy, hat, hb⟩
        exact ⟨y, σ, hy, hJ.stable_at hl y σ s2 s3 hi3 hrely hat,
          h.stable_seen 0 σ y none s2 s3 hi3 hrely hb⟩
      · rw [if_neg hlevel]
        exact ih hs1 (by omega) (hi1.at_below hl hx1) (by omega)
    | some y =>
      obtain ⟨k', hy, hlt, -⟩ := hr
      have habove := above_lt (hi1.mem_keys hl hy) hlt
      rw [if_neg (Option.some_ne_none y)]
      exact ih hs1 hl hy (by omega)

/-- `FindLast` returns the last node of all, as of the end of the search. -/
theorem Sees.keeps_findLast (h : Sees keys J A B) {rounds : Nat}
    (hrounds : keys.length + kMaxHeight ≤ rounds) {s : State τ} (hs : A s) :
    Program.Keeps exec t J (fun p s' => A s' ∧ ∃ y σ, p = some y ∧ s'.mem.At 0 y σ ∧
      B 0 σ y none s') (findLast rounds) s := by
  unfold findLast
  refine h.searches.keeps_getMaxHeight h.stable hs ?_
  intro s1 hi1 hs1 hpos hle
  have habove := above_le_length keys ⊥
  exact h.keeps_findLastLoop hs1 (by omega) (hi1.head_at (by omega)) (by omega)

end Loops

end MemSafeDB.SkipList
