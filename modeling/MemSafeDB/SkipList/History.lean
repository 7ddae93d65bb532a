import Mathlib.Data.List.Induction
import Mathlib.Order.Bounds.Basic
import MemSafeDB.SkipList.State

/-!
# Histories of a growing set

What the skip list is for: a set of keys to which one thread adds, and which the others read.
The answer to a call is that of the set as it is at some moment between the call and its return.
-/

namespace MemSafeDB.SkipList
open Lib

variable {τ : Type}

/-- The keys that are linked. -/
def linkedKeys (tr : List (Event τ)) : Set CString := {k | .linked k ∈ tr}

lemma linkedKeys_mono {tr tr' : List (Event τ)} (h : tr <+: tr') :
    linkedKeys tr ⊆ linkedKeys tr' :=
  fun _ hk => h.subset hk

/-- The least key of the set, if there is one. -/
def First (A : Set CString) : Option CString → Prop
  | none => A = ∅
  | some k => IsLeast A k

/-- The greatest key of the set, if there is one. -/
def Last (A : Set CString) : Option CString → Prop
  | none => A = ∅
  | some k => IsGreatest A k

/-- The answer to a call for the keys `L`, by a reader whose iterators are at these positions. -/
def Answers (L : Set CString) (pos : Nat → Option CString) : Call → Answer → Prop
  | .contains key, .bool b => b = true ↔ key ∈ L
  | .move _ (.seek target), .position a => First {k ∈ L | target ≤ k} a
  | .move _ .seekToFirst, .position a => First L a
  | .move _ .seekToLast, .position a => Last L a
  | .move i .next, .position a => ∃ p, pos i = some p ∧ First {k ∈ L | p < k} a
  | .move i .prev, .position a => ∃ p, pos i = some p ∧ Last {k ∈ L | k < p} a
  | _, _ => False

variable [DecidableEq τ]

/-- The position of an iterator after an event. -/
def Event.moved (t : τ) (i : Nat) (old : Option CString) : Event τ → Option CString
  | ret u (.move j _) _ (.position a) => if u = t ∧ j = i then a else old
  | _ => old

/-- The position of iterator `i` of reader `t`. -/
def positionOf (tr : List (Event τ)) (t : τ) (i : Nat) : Option CString :=
  tr.foldl (Event.moved t i) none

lemma positionOf_concat (tr : List (Event τ)) (e : Event τ) (t : τ) (i : Nat) :
    positionOf (tr ++ [e]) t i = e.moved t i (positionOf tr t i) := by
  rw [positionOf, List.foldl_append]
  rfl

lemma Event.moved_of_reader {e : Event τ} {t : τ} (h : e.reader ≠ some t) (i : Nat)
    (old : Option CString) : e.moved t i old = old := by
  cases e with
  | ret u c since a =>
    have hu : u ≠ t := fun hu => h (congrArg some hu)
    cases c with
    | contains key => rfl
    | move j m =>
      cases a with
      | bool b => rfl
      | position a => simp [Event.moved, hu]
  | _ => rfl

lemma positionOf_append {tr new : List (Event τ)} {t : τ} (h : ∀ e ∈ new, e.reader ≠ some t)
    (i : Nat) : positionOf (tr ++ new) t i = positionOf tr t i := by
  induction new using List.reverseRecOn with
  | nil => rw [List.append_nil]
  | append_singleton new e ih =>
    rw [← List.append_assoc, positionOf_concat,
      Event.moved_of_reader (h e (by simp)), ih (fun e' he' => h e' (by simp [he']))]

/-- The event may come after the trace. The answer to a call is the next event of the reader. -/
def Event.Follows (tr : List (Event τ)) : Event τ → Prop
  | linked key => .insertCall key ∈ tr
  | insertReturn key => .linked key ∈ tr
  | ret t c since a => tr[since]? = some (.call t c) ∧
      (∀ e ∈ tr.drop (since + 1), e.reader ≠ some t) ∧ ∃ m, since < m ∧ m ≤ tr.length ∧
        Answers (linkedKeys (tr.take m)) (positionOf tr t) c a
  | _ => True

/-- Every event follows the ones before it. -/
def Faithful (tr : List (Event τ)) : Prop :=
  ∀ pre e post, tr = pre ++ e :: post → e.Follows pre

namespace Faithful

lemma nil : Faithful ([] : List (Event τ)) := by
  intro pre e post h
  simp at h

lemma concat {tr : List (Event τ)} (h : Faithful tr) {e : Event τ} (he : e.Follows tr) :
    Faithful (tr ++ [e]) := by
  intro pre e' post heq
  rcases List.eq_nil_or_concat post with rfl | ⟨post', e'', rfl⟩
  · obtain ⟨rfl, hee⟩ := List.append_inj' heq rfl
    cases hee
    exact he
  · rw [List.concat_eq_append, ← List.cons_append, ← List.append_assoc] at heq
    obtain ⟨rfl, -⟩ := List.append_inj' heq rfl
    exact h pre e' post' rfl

lemma of_append {tr tr' : List (Event τ)} (h : Faithful (tr ++ tr')) : Faithful tr := by
  intro pre e post heq
  exact h pre e (post ++ tr') (by rw [heq]; simp)

/-- A key whose insertion has returned is linked. -/
lemma linked_of_return {tr : List (Event τ)} (h : Faithful tr) {key : CString}
    (hk : .insertReturn key ∈ tr) : key ∈ linkedKeys tr := by
  obtain ⟨pre, post, rfl⟩ := List.append_of_mem hk
  have hlinked : .linked key ∈ pre := h pre _ post rfl
  exact List.mem_append_left _ hlinked

/-- A key is linked only after its insertion has begun. -/
lemma call_of_linked {tr : List (Event τ)} (h : Faithful tr) {key : CString}
    (hk : key ∈ linkedKeys tr) : .insertCall key ∈ tr := by
  obtain ⟨pre, post, rfl⟩ := List.append_of_mem hk
  have hcall : .insertCall key ∈ pre := h pre _ post rfl
  exact List.mem_append_left _ hcall

/-- A key whose insertion had returned when a call began is among the keys that it reads. -/
lemma mem_moment {tr : List (Event τ)} (h : Faithful tr) {since m : Nat} (hm : since < m)
    {key : CString} (hk : .insertReturn key ∈ tr.take since) :
    key ∈ linkedKeys (tr.take m) := by
  have hsplit : Faithful (tr.take since ++ tr.drop since) := by
    rw [List.take_append_drop]
    exact h
  exact linkedKeys_mono (List.take_prefix_take_left hm.le) (hsplit.of_append.linked_of_return hk)

end Faithful

/-! ## What follows for single calls -/

section Calls

variable {tr : List (Event τ)} {t : τ} {since : Nat}

/-- `Contains` finds a key whose insertion returned before the call. -/
lemma Event.Follows.contains_true (h : Faithful tr) {key : CString} {b : Bool}
    (he : (Event.ret t (.contains key) since (.bool b)).Follows tr)
    (hk : .insertReturn key ∈ tr.take since) : b = true := by
  obtain ⟨-, -, m, hm, -, hans⟩ := he
  exact hans.mpr (h.mem_moment hm hk)

/-- `Contains` does not find a key whose insertion has not begun. -/
lemma Event.Follows.contains_false (h : Faithful tr) {key : CString} {b : Bool}
    (he : (Event.ret t (.contains key) since (.bool b)).Follows tr)
    (hk : .insertCall key ∉ tr) : b = false := by
  obtain ⟨-, -, m, -, -, hans⟩ := he
  rw [Bool.eq_false_iff]
  intro hb
  have hlinked : key ∈ linkedKeys tr := linkedKeys_mono (List.take_prefix m tr) (hans.mp hb)
  exact hk (h.call_of_linked hlinked)

omit [DecidableEq τ] in
lemma First.exists_le {A : Set CString} {a : Option CString} (h : First A a) {k : CString}
    (hk : k ∈ A) : ∃ b, a = some b ∧ b ≤ k := by
  cases a with
  | none =>
    have hempty : A = ∅ := h
    rw [hempty] at hk
    exact hk.elim
  | some b => exact ⟨b, rfl, h.2 hk⟩

/-- `Seek` does not pass over a key whose insertion returned before the call. -/
lemma Event.Follows.seek_le (h : Faithful tr) {i : Nat} {target key : CString}
    {a : Option CString} (he : (Event.ret t (.move i (.seek target)) since (.position a)).Follows tr)
    (hk : .insertReturn key ∈ tr.take since) (hle : target ≤ key) :
    ∃ b, a = some b ∧ b ≤ key := by
  obtain ⟨-, -, m, hm, -, hans⟩ := he
  exact First.exists_le hans ⟨h.mem_moment hm hk, hle⟩

end Calls

/-! ## Forward iterations -/

/-- Where an iteration that begins with this call starts. -/
def Move.lowerBound : Move → Option (Set CString)
  | seekToFirst => some Set.univ
  | seek target => some {k | target ≤ k}
  | _ => none

/-- Iterator `i` of reader `t` has gone from a first position forward only: the number of the
call that began this, the keys that the iteration is about, those it has yielded, and whether it
has come to the end. -/
inductive Iteration (t : τ) (i : Nat) :
    List (Event τ) → Nat → Set CString → List CString → Bool → Prop
  | first {tr : List (Event τ)} {since : Nat} {m : Move} {B : Set CString} {a : Option CString}
      (hm : m.lowerBound = some B) :
      Iteration t i (tr ++ [.ret t (.move i m) since (.position a)]) since B a.toList a.isNone
  | next {tr : List (Event τ)} {begun since : Nat} {B : Set CString} {ks : List CString}
      {a : Option CString} (h : Iteration t i tr begun B ks false) :
      Iteration t i (tr ++ [.ret t (.move i .next) since (.position a)]) begun B
        (ks ++ a.toList) a.isNone
  | other {tr : List (Event τ)} {begun : Nat} {B : Set CString} {ks : List CString} {done : Bool}
      {e : Event τ} (h : Iteration t i tr begun B ks done)
      (he : ∀ m since a, e ≠ .ret t (.move i m) since (.position a)) :
      Iteration t i (tr ++ [e]) begun B ks done

/-- What an iteration has yielded: ascending keys that end at the position of the iterator, and
every key that was there when it began, up to this position or, at the end, at all. -/
structure Yields (t : τ) (tr : List (Event τ)) (begun : Nat) (B : Set CString)
    (ks : List CString) (done : Bool) (pos : Option CString) : Prop where
  started : ∃ j e, begun < j ∧ tr[j]? = some e ∧ e.reader = some t
  ascending : ks.Pairwise (fun a b => a < b)
  position : done = false → ∃ p, pos = some p ∧ ∀ k ∈ ks, k ≤ p
  complete : ∀ key, .insertReturn key ∈ tr.take begun → key ∈ B →
    (done = true ∨ ∃ p, pos = some p ∧ key ≤ p) → key ∈ ks

namespace Yields

variable {t : τ} {i : Nat} {tr : List (Event τ)} {begun since : Nat} {B : Set CString}
  {ks : List CString} {done : Bool} {pos : Option CString} {a : Option CString}

omit [DecidableEq τ] in
lemma begun_le (h : Yields t tr begun B ks done pos) : begun ≤ tr.length := by
  obtain ⟨j, e, hj, he, -⟩ := h.started
  have hlt : j < tr.length := (List.getElem?_eq_some_iff.mp he).1
  omega

omit [DecidableEq τ] in
lemma take_concat (h : Yields t tr begun B ks done pos) (e : Event τ) :
    (tr ++ [e]).take begun = tr.take begun :=
  List.take_append_of_le_length h.begun_le

omit [DecidableEq τ] in
lemma started_concat (h : Yields t tr begun B ks done pos) (e : Event τ) :
    ∃ j e', begun < j ∧ (tr ++ [e])[j]? = some e' ∧ e'.reader = some t := by
  obtain ⟨j, e', hj, he, ht⟩ := h.started
  have hlt : j < tr.length := (List.getElem?_eq_some_iff.mp he).1
  exact ⟨j, e', hj, by rw [List.getElem?_append_left hlt]; exact he, ht⟩

/-- A call that returns after the iteration has started has also begun after that. -/
lemma begun_lt (h : Yields t tr begun B ks done pos) {c : Call} {ans : Answer}
    (he : (Event.ret t c since ans).Follows tr) : begun < since := by
  obtain ⟨j, e, hj, hget, ht⟩ := h.started
  by_contra hle
  have hmem : e ∈ tr.drop (since + 1) := by
    rw [List.mem_iff_getElem?]
    refine ⟨j - (since + 1), ?_⟩
    rw [List.getElem?_drop, show since + 1 + (j - (since + 1)) = j by omega]
    exact hget
  exact he.2.1 e hmem ht

/-- The first position of an iteration. -/
lemma first (hf : Faithful tr) {m : Move} (hm : m.lowerBound = some B)
    (he : (Event.ret t (.move i m) since (.position a)).Follows tr) :
    Yields t (tr ++ [.ret t (.move i m) since (.position a)]) since B a.toList a.isNone a := by
  obtain ⟨hcall, -, n, hn, -, hans⟩ := he
  have hlt : since < tr.length := (List.getElem?_eq_some_iff.mp hcall).1
  have hfirst : First {k ∈ linkedKeys (tr.take n) | k ∈ B} a := by
    cases m with
    | seek target =>
      cases hm
      exact hans
    | seekToFirst =>
      cases hm
      simpa [Answers] using hans
    | next => cases hm
    | prev => cases hm
    | seekToLast => cases hm
  refine ⟨⟨tr.length, .ret t (.move i m) since (.position a), hlt, by simp, rfl⟩, ?_, ?_, ?_⟩
  · cases a <;> simp
  · intro hdone
    cases a with
    | none => cases hdone
    | some p => exact ⟨p, rfl, by simp⟩
  · intro key hkey hB hup
    rw [List.take_append_of_le_length hlt.le] at hkey
    have hmem : key ∈ {k ∈ linkedKeys (tr.take n) | k ∈ B} := ⟨hf.mem_moment hn hkey, hB⟩
    obtain ⟨p, rfl, hle⟩ := First.exists_le hfirst hmem
    rcases hup with hdone | ⟨q, hq, hle'⟩
    · cases hdone
    · cases hq
      simp [le_antisymm hle' hle]

/-- A step forward. -/
lemma next (hf : Faithful tr) (h : Yields t tr begun B ks false (positionOf tr t i))
    (he : (Event.ret t (.move i .next) since (.position a)).Follows tr) :
    Yields t (tr ++ [.ret t (.move i .next) since (.position a)]) begun B (ks ++ a.toList)
      a.isNone a := by
  have hbegun := h.begun_lt he
  obtain ⟨p, hp, hmax⟩ := h.position rfl
  obtain ⟨-, -, n, hn, -, p', hp', hfirst⟩ := he
  obtain rfl : p = p' := Option.some.inj (hp.symm.trans hp')
  have hlt : ∀ q, a = some q → p < q := by
    rintro q rfl
    exact hfirst.1.2
  refine ⟨h.started_concat _, ?_, ?_, ?_⟩
  · refine List.pairwise_append.mpr ⟨h.ascending, by cases a <;> simp, ?_⟩
    intro k hk q hq
    exact (hmax k hk).trans_lt (hlt q (by simpa using hq))
  · intro hdone
    cases a with
    | none => cases hdone
    | some q =>
      refine ⟨q, rfl, fun k hk => ?_⟩
      rcases List.mem_append.mp hk with hk | hk
      · exact (hmax k hk).trans (hlt q rfl).le
      · exact (List.mem_singleton.mp hk).le
  · intro key hkey hB hup
    rw [h.take_concat] at hkey
    by_cases hle : key ≤ p
    · exact List.mem_append_left _ (h.complete key hkey hB (Or.inr ⟨p, hp, hle⟩))
    · have hmem : key ∈ {k ∈ linkedKeys (tr.take n) | p < k} :=
        ⟨hf.mem_moment (hbegun.trans hn) hkey, not_le.mp hle⟩
      obtain ⟨q, rfl, hqle⟩ := First.exists_le hfirst hmem
      rcases hup with hdone | ⟨q', hq', hle'⟩
      · cases hdone
      · cases hq'
        simp [le_antisymm hle' hqle]

end Yields

/-- A forward iteration yields ascending keys, and at its end every key of its range whose
insertion had returned when it began. -/
theorem Iteration.yields {t : τ} {i : Nat} {tr : List (Event τ)} {begun : Nat} {B : Set CString}
    {ks : List CString} {done : Bool} (h : Iteration t i tr begun B ks done)
    (hf : Faithful tr) : Yields t tr begun B ks done (positionOf tr t i) := by
  induction h with
  | first hm =>
    have he := hf _ _ [] rfl
    rw [positionOf_concat]
    simpa [Event.moved] using Yields.first hf.of_append hm he
  | next h ih =>
    have he := hf _ _ [] rfl
    rw [positionOf_concat]
    simpa [Event.moved] using (ih hf.of_append).next hf.of_append he
  | @other tr begun B ks done e h hne ih =>
    have hprev := ih hf.of_append
    have hmoved : e.moved t i (positionOf tr t i) = positionOf tr t i := by
      cases e with
      | ret u c since a =>
        cases c with
        | contains key => rfl
        | move j m =>
          cases a with
          | bool b => rfl
          | position a =>
            have hut : ¬(u = t ∧ j = i) := by
              rintro ⟨rfl, rfl⟩
              exact hne m since a rfl
            simp [Event.moved, hut]
      | _ => rfl
    rw [positionOf_concat, hmoved]
    refine ⟨hprev.started_concat e, hprev.ascending, hprev.position, ?_⟩
    intro key hkey
    rw [hprev.take_concat] at hkey
    exact hprev.complete key hkey

end MemSafeDB.SkipList
