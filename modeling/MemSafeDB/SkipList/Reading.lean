import MemSafeDB.SkipList.Searching

/-!
# Readers

A reader is between two calls, or it has asked and has not got its answer yet. The last load of
a search is the moment whose keys its answer is about.
-/

namespace MemSafeDB.SkipList
open Lib Memory

variable {τ : Type} [DecidableEq τ]

/-! ## Answers from neighbours -/

/-- The first key from a bound on is the first key above a lower key, if that is not below the
bound. -/
lemma First.of_lower {L : Set CString} {ρ : WithBot CString} {key : CString} {a : Option CString}
    (h : First {k | k ∈ L ∧ ρ < (k : WithBot CString)} a) (hρ : ρ < key)
    (ha : ∀ k, a = some k → key ≤ k) : First {k ∈ L | key ≤ k} a := by
  have hup : ∀ k, key ≤ k → ρ < (k : WithBot CString) :=
    fun k hk => hρ.trans_le (WithBot.coe_le_coe.mpr hk)
  cases a with
  | none =>
    refine Set.eq_empty_iff_forall_notMem.mpr ?_
    rintro k ⟨hk, hle⟩
    have hmem : k ∈ {k | k ∈ L ∧ ρ < (k : WithBot CString)} := ⟨hk, hup k hle⟩
    have hempty : {k | k ∈ L ∧ ρ < (k : WithBot CString)} = ∅ := h
    rw [hempty] at hmem
    exact hmem
  | some k =>
    refine ⟨⟨h.1.1, ha k rfl⟩, ?_⟩
    rintro k' ⟨hk', hle⟩
    exact h.2 ⟨hk', hup k' hle⟩

/-- The first key above a bound says whether another bound is a key. -/
lemma First.mem_iff {L : Set CString} {key : CString} {a : Option CString}
    (h : First {k ∈ L | key ≤ k} a) : key ∈ L ↔ a = some key := by
  constructor
  · intro hkey
    obtain ⟨b, rfl, hle⟩ := h.exists_le ⟨hkey, le_rfl⟩
    rw [le_antisymm hle h.1.2]
  · rintro rfl
    exact h.1.1

/-- The last key before a bound, if the keys above it begin at or behind the bound. -/
lemma First.last_before {L : Set CString} {P : CString → Prop} {ρ : WithBot CString}
    {a b : Option CString} (h : First {k | k ∈ L ∧ ρ < (k : WithBot CString)} a)
    (ha : ∀ k, a = some k → ¬P k) (hP : ∀ k k', k ≤ k' → P k' → P k)
    (hb : ∀ k : CString, ρ = k → k ∈ L ∧ P k) (hρ : ρ = b.elim ⊥ WithBot.some) :
    Last {k ∈ L | P k} b := by
  have hle : ∀ k ∈ L, P k → (k : WithBot CString) ≤ ρ := by
    intro k hk hPk
    by_contra hlt
    obtain ⟨k', rfl, hle⟩ := h.exists_le (k := k) ⟨hk, not_le.mp hlt⟩
    exact ha k' rfl (hP k' k hle hPk)
  subst hρ
  cases b with
  | none =>
    refine Set.eq_empty_iff_forall_notMem.mpr ?_
    rintro k ⟨hk, hPk⟩
    exact absurd (hle k hk hPk) (not_le.mpr (WithBot.bot_lt_coe k))
  | some k =>
    refine ⟨hb k rfl, ?_⟩
    rintro k' ⟨hk', hPk'⟩
    exact WithBot.coe_le_coe.mp (hle k' hk' hPk')

/-! ## Between the call and its return -/

/-- At some moment since the event the keys satisfied `φ`. -/
def Seen (since : Nat) (φ : Set CString → Prop) (s : State τ) : Prop :=
  ∃ m, since < m ∧ m ≤ s.trace.length ∧ φ (linkedKeys (s.trace.take m))

/-- The iterators of a reader stand at these nodes. -/
structure Stands (t : τ) (nodes : Nat → Ptr) (s : State τ) : Prop where
  nodes : ∀ i, PtrAt s 0 (nodes i) (positionOf s.trace t i)

/-- The reader has asked and has not got an answer. -/
structure Asked (t : τ) (c : Call) (since : Nat) (nodes : Nat → Ptr) (pos : Nat → Option CString)
    (s : State τ) : Prop where
  call : s.trace[since]? = some (.call t c)
  quiet : ∀ e ∈ s.trace.drop (since + 1), e.reader ≠ some t
  position : positionOf s.trace t = pos
  nodes : ∀ i, PtrAt s 0 (nodes i) (pos i)

/-- What a reader sees at the last load of a search: the keys above the one that it is at. -/
def Spotted (since level : Nat) (ρ : WithBot CString) (_ : Node) (r : Ptr) (s : State τ) : Prop :=
  level = 0 → ∃ a, PtrAt s 0 r a ∧ Seen since (fun L => (∀ k : CString, ρ = k → k ∈ L) ∧
    First {k | k ∈ L ∧ ρ < (k : WithBot CString)} a) s

section Reader

variable {keys : List CString} {t : τ} {c : Call} {since : Nat} {nodes : Nat → Ptr}
  {pos : Nat → Option CString} {s : State τ}

lemma Asked.lt_length (h : Asked t c since nodes pos s) : since < s.trace.length :=
  (List.getElem?_eq_some_iff.mp h.call).1

lemma stable_seen (φ : Set CString → Prop) :
    (readerInterface keys t).Stable (Seen since φ) := by
  rintro s s' - ⟨-, new, hnew, -⟩ ⟨m, hm, hle, hφ⟩
  refine ⟨m, hm, ?_, ?_⟩
  · rw [hnew, List.length_append]
    omega
  · rw [hnew, List.take_append_of_le_length hle]
    exact hφ

lemma stable_stands : (readerInterface keys t).Stable (Stands t nodes) := by
  rintro s s' hi hrely ⟨hnodes⟩
  have hptr := fun i => (searches_reader keys t).stable_ptrAt (by decide) (nodes i)
    (positionOf s.trace t i) s s' hi hrely (hnodes i)
  obtain ⟨-, new, hnew, hother⟩ := hrely
  refine ⟨fun i => ?_⟩
  rw [hnew, positionOf_append hother]
  exact hptr i

lemma stable_asked : (readerInterface keys t).Stable (Asked t c since nodes pos) := by
  rintro s s' hi hrely h
  have hptr := fun i => (searches_reader keys t).stable_ptrAt (by decide) (nodes i)
    (pos i) s s' hi hrely (h.nodes i)
  obtain ⟨-, new, hnew, hother⟩ := hrely
  have hlt := h.lt_length
  refine ⟨?_, ?_, ?_, hptr⟩
  · rw [hnew, List.getElem?_append_left hlt]
    exact h.call
  · intro e he
    rw [hnew, List.drop_append_of_le_length hlt] at he
    rcases List.mem_append.mp he with he | he
    · exact h.quiet e he
    · exact hother e he
  · funext i
    rw [hnew, positionOf_append hother, h.position]

lemma Asked.seen (h : Asked t c since nodes pos s) {φ : Set CString → Prop}
    (hφ : φ (linkedKeys s.trace)) : Seen since φ s :=
  ⟨s.trace.length, h.lt_length, le_rfl, by rw [List.take_length]; exact hφ⟩

omit [DecidableEq τ] in
lemma Seen.mono {φ ψ : Set CString → Prop} (h : Seen since φ s) (hφ : ∀ L, φ L → ψ L) :
    Seen since ψ s := by
  obtain ⟨m, hm, hle, hL⟩ := h
  exact ⟨m, hm, hle, hφ _ hL⟩

lemma reader_sees : Sees keys (readerInterface keys t) (Asked t c since nodes pos)
    (Spotted since) where
  searches := searches_reader keys t
  stable := stable_asked
  stable_seen := by
    intro l ρ x r s s' hi hrely h hl
    obtain ⟨a, ha, hseen⟩ := h hl
    exact ⟨a, (searches_reader keys t).stable_ptrAt (by decide) r a s s' hi hrely ha,
      stable_seen _ s s' hi hrely hseen⟩
  seen := by
    rintro s l ρ x r hi hs - hx hr rfl
    obtain ⟨a, ha, hfirst⟩ := hi.first hr
    refine ⟨a, ha, hs.seen ⟨?_, hfirst⟩⟩
    rintro k rfl
    exact (hi.linked_iff k).mpr ⟨x, hx⟩

omit [DecidableEq τ] in
/-- A node has one key. -/
lemma PtrAt.beyond {key : CString} {r : Ptr} {a : Option CString} (ha : PtrAt s 0 r a)
    (h : Beyond 0 key r s) {k : CString} (hk : a = some k) : key ≤ k := by
  subst hk
  cases r with
  | none => exact ha.elim
  | some y =>
    obtain ⟨k', hy, hle⟩ := h
    obtain ⟨-, -, -, hrank⟩ := id ha
    obtain ⟨-, -, -, hrank'⟩ := hy
    rw [WithBot.coe_inj.mp (hrank.symm.trans hrank')]
    exact hle

omit [DecidableEq τ] in
/-- Where a search for a key stops, the first key from there on was seen. -/
lemma StopsAt.first {key : CString} {x : Node} {r : Ptr}
    (h : StopsAt (Spotted since) key 0 x r s) :
    ∃ a, PtrAt s 0 r a ∧ Seen since (fun L => First {k ∈ L | key ≤ k} a) s := by
  obtain ⟨ρ, -, hρ, hspot, hbeyond⟩ := h
  obtain ⟨a, ha, hseen⟩ := hspot rfl
  exact ⟨a, ha, hseen.mono (fun L hL => hL.2.of_lower hρ (fun _ hk => ha.beyond hbeyond hk))⟩

omit [DecidableEq τ] in
lemma PtrAt.eq_none_iff {r : Ptr} {a : Option CString} (h : PtrAt s 0 r a) :
    r = none ↔ a = none := by
  cases r <;> cases a <;> simp_all [PtrAt]

/-- An iterator that a search has left at `head_` is not valid. -/
lemma Inv.orInvalid (hi : Inv keys s) {x : Node} {ρ : WithBot CString} (hx : s.mem.At 0 x ρ) :
    ∃ b : Option CString, ρ = b.elim ⊥ WithBot.some ∧ PtrAt s 0 (orInvalid (some x)) b := by
  unfold SkipList.orInvalid
  cases ρ with
  | bot =>
    rw [if_pos (congrArg some ((hi.at_bot (by decide) hx).mpr rfl))]
    exact ⟨none, rfl, trivial⟩
  | coe k =>
    have hne : x ≠ head := fun hx' => WithBot.coe_ne_bot ((hi.at_bot (by decide) hx).mp hx')
    rw [if_neg (fun heq => hne (Option.some.inj heq))]
    exact ⟨some k, rfl, hx⟩

/-! ## Moves -/

/-- The call has its answer: a node and its key, or null. -/
def Answered (since : Nat) (pos : Nat → Option CString) (c : Call) (node : Ptr) (s : State τ) :
    Prop :=
  ∃ a, PtrAt s 0 node a ∧ Seen since (fun L => Answers L pos c (.position a)) s

lemma stable_answered (node : Ptr) :
    (readerInterface keys t).Stable (Answered since pos c node) := by
  rintro s s' hi hrely ⟨a, ha, hseen⟩
  exact ⟨a, (searches_reader keys t).stable_ptrAt (by decide) node a s s' hi hrely ha,
    stable_seen _ s s' hi hrely hseen⟩

/-- The load of the link at the lowest level of a node. -/
lemma keeps_step {x : Node} {ρ : WithBot CString} (hs : Asked t c since nodes pos s)
    (hx : s.mem.At 0 x ρ) (hans : ∀ L a, First {k | k ∈ L ∧ ρ < (k : WithBot CString)} a →
      Answers L pos c (.position a)) :
    Program.Keeps exec t (readerInterface keys t) (fun node s' => Asked t c since nodes pos s' ∧
      Answered since pos c node s') (next (some x) 0) s := by
  unfold next Program.op
  refine (searches_reader keys t).keeps_next (k := Program.ret) stable_asked (by decide) hs hx ?_
  intro s' r hi hs' hx' hr
  obtain ⟨a, ha, hfirst⟩ := hi.first hr
  refine Program.Keeps.ret (stable_asked.and (stable_answered r)) ⟨hs', a, ha, ?_⟩
  exact hs'.seen (hans _ a hfirst)

/-- The new position of an iterator is one that the keys had at a moment of the call. -/
lemma keeps_move {rounds : Nat} (hrounds : keys.length + kMaxHeight ≤ rounds) {i : Nat} {m : Move}
    (hvalid : m.needsValid → pos i ≠ none) (hi : Inv keys s)
    (hs : Asked t (.move i m) since nodes pos s) :
    Program.Keeps exec t (readerInterface keys t) (fun node s' =>
      Asked t (.move i m) since nodes pos s' ∧ Answered since pos (.move i m) node s')
      (m.run rounds (nodes i)) s := by
  have hsees : Sees keys (readerInterface keys t) (Asked t (.move i m) since nodes pos)
    (Spotted since) := reader_sees
  have hnode := hs.nodes i
  cases m with
  | next =>
    obtain ⟨p, hp⟩ := Option.ne_none_iff_exists'.mp (hvalid trivial)
    rw [hp] at hnode
    unfold Move.run
    cases hn : nodes i with
    | none =>
      rw [hn] at hnode
      exact hnode.elim
    | some x =>
      rw [hn] at hnode
      unfold assert
      rw [if_pos (Option.some_ne_none x)]
      refine keeps_step hs hnode ?_
      intro L a hfirst
      exact ⟨p, hp, by simpa using hfirst⟩
  | prev =>
    obtain ⟨p, hp⟩ := Option.ne_none_iff_exists'.mp (hvalid trivial)
    rw [hp] at hnode
    unfold Move.run
    cases hn : nodes i with
    | none =>
      rw [hn] at hnode
      exact hnode.elim
    | some x =>
      rw [hn] at hnode
      unfold assert
      rw [if_pos (Option.some_ne_none x)]
      refine hsees.searches.keeps_keyOf stable_asked (by decide) hs hnode ?_
      intro s1 hi1 hs1 _
      refine Program.Keeps.bind hi1 (hsees.keeps_findLessThan hrounds p hs1) ?_
      rintro _ s2 hi2 ⟨hs2, y, r, rfl, ρ, hy, hρ, hspot, hbeyond⟩
      obtain ⟨b, hb, hptr⟩ := Inv.orInvalid hi2 hy
      obtain ⟨a, ha, hseen⟩ := hspot rfl
      refine Program.Keeps.ret (stable_asked.and (stable_answered _)) ⟨hs2, b, hptr, ?_⟩
      refine hseen.mono (fun L hL => ⟨p, hp, hL.2.last_before ?_ ?_ ?_ hb⟩)
      · exact fun k hk => not_lt.mpr (ha.beyond hbeyond hk)
      · exact fun k k' hle hlt => hle.trans_lt hlt
      · rintro k rfl
        exact ⟨hL.1 k rfl, WithBot.coe_lt_coe.mp hρ⟩
  | seek target =>
    unfold Move.run
    refine Program.Keeps.bind hi (hsees.keeps_findGreaterOrEqual (C := fun _ => True)
      (fun _ _ => trivial) hrounds target none hs) ?_
    rintro ⟨r, _⟩ s1 hi1 ⟨hs1, ⟨y, hstop⟩, -, -⟩
    obtain ⟨a, ha, hseen⟩ := hstop.first
    exact Program.Keeps.ret (stable_asked.and (stable_answered r)) ⟨hs1, a, ha, hseen⟩
  | seekToFirst =>
    refine keeps_step hs (hi.head_at (by decide)) ?_
    intro L a hfirst
    simpa [Answers] using hfirst
  | seekToLast =>
    unfold Move.run
    refine Program.Keeps.bind hi (hsees.keeps_findLast hrounds hs) ?_
    rintro _ s1 hi1 ⟨hs1, y, σ, rfl, hy, hspot⟩
    obtain ⟨b, hb, hptr⟩ := Inv.orInvalid hi1 hy
    obtain ⟨a, ha, hseen⟩ := hspot rfl
    cases a with
    | some k => exact ha.elim
    | none =>
      refine Program.Keeps.ret (stable_asked.and (stable_answered _)) ⟨hs1, b, hptr, ?_⟩
      refine hseen.mono (fun L hL => ?_)
      have hlast : Last {k ∈ L | True} b :=
        First.last_before (a := .none) hL.2 (by simp) (fun _ _ _ h => h)
          (fun k hk => ⟨hL.1 k hk, trivial⟩) hb
      simpa [Answers] using hlast

/-- `Contains` answers for the keys of a moment of the call. -/
lemma keeps_contains {rounds : Nat} (hrounds : keys.length + kMaxHeight ≤ rounds) {key : CString}
    (hi : Inv keys s) (hs : Asked t (.contains key) since nodes pos s) :
    Program.Keeps exec t (readerInterface keys t) (fun b s' =>
      Asked t (.contains key) since nodes pos s' ∧
        Seen since (fun L => Answers L pos (.contains key) (.bool b)) s')
      (contains rounds key) s := by
  have hsees : Sees keys (readerInterface keys t) (Asked t (.contains key) since nodes pos)
    (Spotted since) := reader_sees
  unfold contains
  refine Program.Keeps.bind hi (hsees.keeps_findGreaterOrEqual (C := fun _ => True)
    (fun _ _ => trivial) hrounds key none hs) ?_
  rintro ⟨r, _⟩ s1 hi1 ⟨hs1, ⟨y, hstop⟩, -, -⟩
  obtain ⟨a, ha, hseen⟩ := hstop.first
  cases r with
  | none =>
    obtain rfl : a = none := ha.eq_none_iff.mp rfl
    refine Program.Keeps.ret (stable_asked.and (stable_seen _)) ⟨hs1, hseen.mono ?_⟩
    intro L hL
    refine iff_of_false Bool.false_ne_true (fun hkey => ?_)
    cases hL.mem_iff.mp hkey
  | some x =>
    obtain ⟨k, rfl⟩ : ∃ k, a = some k := by
      refine Option.ne_none_iff_exists'.mp (fun hnone => ?_)
      exact Option.some_ne_none x (ha.eq_none_iff.mpr hnone)
    refine hsees.searches.keeps_keyOf (stable_asked.and (stable_seen _)) (by decide)
      ⟨hs1, hseen⟩ ha ?_
    rintro s2 - ⟨hs2, hseen2⟩ -
    refine Program.Keeps.ret (stable_asked.and (stable_seen _)) ⟨hs2, hseen2.mono ?_⟩
    intro L hL
    change decide (strcmp key k = 0) = true ↔ key ∈ L
    rw [decide_eq_true_iff, strcmp_eq_zero, hL.mem_iff, Option.some.injEq, eq_comm]

/-- `Valid` and `key` give the position that the iterator has moved to. -/
lemma keeps_position {α : Type} {Q : α → State τ → Prop} (hi : Inv keys s) {node : Ptr}
    (hs : Asked t c since nodes pos s) (hans : Answered since pos c node s)
    {k : Option CString → Prog α} (hk : ∀ s' a, Inv keys s' → Asked t c since nodes pos s' →
      PtrAt s' 0 node a → Seen since (fun L => Answers L pos c (.position a)) s' →
      Program.Keeps exec t (readerInterface keys t) Q (k a) s') :
    Program.Keeps exec t (readerInterface keys t) Q ((position node).bind k) s := by
  obtain ⟨a, ha, hseen⟩ := hans
  unfold position
  cases node with
  | none =>
    obtain rfl : a = none := ha.eq_none_iff.mp rfl
    exact hk s none hi hs ha hseen
  | some x =>
    obtain ⟨key, rfl⟩ : ∃ key, a = some key := by
      refine Option.ne_none_iff_exists'.mp (fun hnone => ?_)
      exact Option.some_ne_none x (ha.eq_none_iff.mpr hnone)
    rw [if_neg (Option.some_ne_none x), Program.bind_eq, Program.bind_assoc]
    refine (searches_reader keys t).keeps_keyOf (stable_asked.and (stable_seen _)) (by decide)
      ⟨hs, hseen⟩ ha ?_
    rintro s' hi' ⟨hs', hseen'⟩ ha'
    exact hk s' (some key) hi' hs' ha' hseen'

/-! ## Calls and returns -/

/-- An event of the reader itself. -/
lemma Inv.record_reader (h : Inv keys s) {e : Event τ} (he : e.Follows s.trace)
    (ht : e.reader = some t) : Inv keys (s.record e) := by
  refine h.record he ?_ ?_
  · rintro k rfl
    cases ht
  · rintro k rfl
    cases ht

lemma promise_record {e : Event τ} (ht : e.reader = some t) :
    (readerInterface keys t).promise s (s.record e) := by
  refine ⟨rfl, fun _ _ _ _ h => h, [e], rfl, ?_⟩
  intro e' he'
  rw [List.mem_singleton.mp he']
  exact ht

/-- The beginning of a call. -/
lemma keeps_call {α : Type} {Q : α → State τ → Prop} (hs : Stands t nodes s) (c : Call)
    {k : Nat → Prog α} (hk : ∀ s' since pos, Inv keys s' → Asked t c since nodes pos s' →
      Program.Keeps exec t (readerInterface keys t) Q (k since) s') :
    Program.Keeps exec t (readerInterface keys t) Q
      ((Program.op (S := signature) (.call c)).bind k) s := by
  refine Program.Keeps.step stable_stands hs ?_
  intro s1 hi hs1
  refine ⟨⟨t, false, rfl⟩, ?_⟩
  intro b since s2 hs2
  cases hs2
  have hi2 : Inv keys (s1.record (.call t c)) := hi.record_reader trivial rfl
  refine ⟨hi2, promise_record rfl, hk _ _ (positionOf s1.trace t) hi2 ?_⟩
  refine ⟨?_, ?_, ?_, hs1.nodes⟩
  · change (s1.trace ++ [Event.call t c])[s1.trace.length]? = _
    simp
  · intro e he
    change e ∈ (s1.trace ++ [Event.call t c]).drop (s1.trace.length + 1) at he
    simp at he
  · funext i
    exact positionOf_concat s1.trace _ t i

/-- The return of a call. -/
lemma keeps_ret {α : Type} {Q : α → State τ → Prop} {ans : Answer} (nodes' : Nat → Ptr)
    (pos' : Nat → Option CString) {B : State τ → Prop}
    (hB : (readerInterface keys t).Stable B) (hs : Asked t c since nodes pos s)
    (hseen : Seen since (fun L => Answers L pos c ans) s) (hb : B s)
    (hpos : ∀ i, (Event.ret t c since ans).moved t i (pos i) = pos' i)
    (hnodes : ∀ s', B s' → Asked t c since nodes pos s' → ∀ i, PtrAt s' 0 (nodes' i) (pos' i))
    {k : Unit → Prog α} (hk : ∀ s', Inv keys s' → Stands t nodes' s' →
      positionOf s'.trace t = pos' →
      Program.Keeps exec t (readerInterface keys t) Q (k ()) s') :
    Program.Keeps exec t (readerInterface keys t) Q
      ((Program.op (S := signature) (.ret c since ans)).bind k) s := by
  refine Program.Keeps.step ((stable_asked.and (stable_seen _)).and hB) ⟨⟨hs, hseen⟩, hb⟩ ?_
  rintro s1 hi ⟨⟨hs1, m, hm, hle, hans⟩, hb1⟩
  refine ⟨⟨t, false, rfl⟩, ?_⟩
  intro _ u s2 hs2
  cases hs2
  have hfollows : (Event.ret t c since ans).Follows s1.trace := by
    refine ⟨hs1.call, hs1.quiet, m, hm, hle, ?_⟩
    rw [hs1.position]
    exact hans
  have hi2 : Inv keys (s1.record (.ret t c since ans)) := hi.record_reader hfollows rfl
  have hpos2 : ∀ i, positionOf (s1.record (.ret t c since ans)).trace t i = pos' i := by
    intro i
    refine (positionOf_concat s1.trace _ t i).trans ?_
    rw [hs1.position]
    exact hpos i
  refine ⟨hi2, promise_record rfl, hk _ hi2 ⟨fun i => ?_⟩ (funext hpos2)⟩
  rw [hpos2]
  exact hnodes s1 hb1 hs1 i

/-- A reader that respects the demands of `Next` and `Prev` keeps to its interface. -/
theorem keeps_reader {rounds : Nat} (hrounds : keys.length + kMaxHeight ≤ rounds) {r : Reader}
    {valid : Nat → Prop} (hvalid : r.Respects valid) (hi : Inv keys s) (hs : Stands t nodes s)
    (hnodes : ∀ i, valid i → nodes i ≠ none) :
    Program.Keeps exec t (readerInterface keys t) (fun _ _ => True) (r.run rounds nodes) s := by
  induction r generalizing s nodes valid with
  | stop => exact Program.Keeps.ret (fun _ _ _ _ h => h) trivial
  | contains key k ih =>
    refine keeps_call hs (.contains key) ?_
    intro s1 since pos hi1 hs1
    refine Program.Keeps.bind hi1 (keeps_contains hrounds hi1 hs1) ?_
    rintro b s2 hi2 ⟨hs2, hseen⟩
    refine keeps_ret nodes pos (B := fun _ => True) (fun _ _ _ _ h => h) hs2
      hseen trivial (fun _ => rfl) (fun s' _ hs' => hs'.nodes) ?_
    intro s3 hi3 hs3 _
    exact ih b (hvalid b) hi3 hs3 hnodes
  | move i m k ih =>
    refine keeps_call hs (.move i m) ?_
    intro s1 since pos hi1 hs1
    have hpos : m.needsValid → pos i ≠ none := fun hm hnone =>
      hnodes i (hvalid.1 hm) ((hs1.nodes i).eq_none_iff.mpr hnone)
    refine Program.Keeps.bind hi1 (keeps_move hrounds hpos hi1 hs1) ?_
    rintro node s2 hi2 ⟨hs2, hans⟩
    refine keeps_position hi2 hs2 hans ?_
    intro s3 a hi3 hs3 ha hseen
    refine keeps_ret (Function.update nodes i node) (Function.update pos i a)
      (B := fun s => PtrAt s 0 node a)
      ((searches_reader keys t).stable_ptrAt (by decide) node a) hs3 hseen ha ?_ ?_ ?_
    · intro j
      by_cases hj : i = j
      · subst hj
        simp [Event.moved]
      · simp [Event.moved, hj, Function.update_of_ne (Ne.symm hj)]
    · intro s' ha' hs' j
      by_cases hj : j = i
      · subst hj
        simpa using ha'
      · simpa [Function.update_of_ne hj] using hs'.nodes j
    · intro s4 hi4 hs4 hpos4
      refine ih a (hvalid.2 a) hi4 hs4 ?_
      intro j hj
      have hptr := hs4.nodes j
      rw [hpos4] at hptr
      by_cases hji : j = i
      · subst hji
        rw [Function.update_self] at hj hptr ⊢
        rw [Function.update_self] at hptr
        exact fun hnone => hj (hptr.eq_none_iff.mp hnone)
      · rw [Function.update_of_ne hji] at hj ⊢
        exact hnodes j hj

end Reader

end MemSafeDB.SkipList
