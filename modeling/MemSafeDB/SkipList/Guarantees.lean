import MemSafeDB.Lib.Reliance
import MemSafeDB.SkipList.Reading
import MemSafeDB.SkipList.Writing

/-!
# One writer and many readers

In every interleaving of a writer that inserts distinct keys with any number of readers the
levels are sorted sublists of each other, and the readers see a set that only grows.
-/

namespace MemSafeDB.SkipList
open Lib Memory

variable {τ : Type} [DecidableEq τ]

/-- Thread `w` inserts the keys, every other thread is a reader. -/
def threads (rounds : Nat) (keys : List CString) (w : τ) (readers : τ → Reader) :
    Config signature Empty (State τ) τ where
  shared := .start
  prog := fun t => if t = w then writer rounds keys else (readers t).run rounds (fun _ => none)

/-! ## The start -/

lemma new_next : ∀ l < kMaxHeight, Memory.new.next l head = some none := by decide

lemma Shape.new : Memory.new.Shape (fun _ => []) where
  linked := fun l hl => ⟨new_next l hl, trivial⟩
  ascending := fun _ _ => List.pairwise_singleton _ _
  below := fun _ _ => List.Subset.refl _
  allocated := by
    intro l _ x hx
    rw [List.mem_singleton.mp hx]
    decide
  tall := by
    intro l hl x hx
    rw [List.mem_singleton.mp hx]
    exact hl
  headKey := by decide
  keyed := by
    intro x hne hx
    exact absurd (Nat.lt_one_iff.mp hx) hne
  empty := fun _ _ _ => rfl
  height_pos := by decide
  height_le := by decide

lemma Inv.start (keys : List CString) : Inv keys (State.start : State τ) where
  shape := ⟨_, Shape.new⟩
  linked_iff := by
    intro k
    refine iff_of_false List.not_mem_nil ?_
    rintro ⟨x, hx⟩
    obtain ⟨hmem, hrank⟩ := (Shape.new.at_iff (by decide)).mp hx
    rw [List.mem_singleton.mp hmem, Shape.new.rank_head] at hrank
    exact WithBot.bot_ne_coe hrank
  faithful := Faithful.nil
  started := by
    intro x k hx hk
    rw [Nat.lt_one_iff.mp hx] at hk
    exact absurd (hk.symm.trans Shape.new.headKey) (Option.some_ne_none k)
  planned := fun _ hk => absurd hk List.not_mem_nil

/-! ## All threads together -/

def interface (keys : List CString) (w t : τ) : Interface signature (State τ) :=
  if t = w then writerInterface keys else readerInterface keys t

lemma compatible (keys : List CString) (w : τ) : Compatible (Inv keys) (interface keys w) where
  inv := by
    intro t
    unfold interface
    split <;> rfl
  rely := by
    intro t u s s' htu h
    unfold interface at h ⊢
    by_cases ht : t = w
    · subst ht
      rw [if_pos rfl] at h
      rw [if_neg (Ne.symm htu)]
      exact h.weaken (fun e he => by rw [he]; exact (Option.some_ne_none u).symm)
    · rw [if_neg ht] at h
      obtain ⟨hmem, hgrows⟩ := h
      by_cases hu : u = w
      · rw [if_pos hu]
        exact ⟨hmem, hgrows.weaken (fun e he => by rw [he]; exact Option.some_ne_none t)⟩
      · rw [if_neg hu]
        refine hgrows.weaken (fun e he => ?_)
        rw [he]
        exact fun heq => htu (Option.some.inj heq)

lemma threads_cooperate {rounds : Nat} {keys : List CString}
    (hrounds : keys.length + kMaxHeight ≤ rounds) (hkeys : keys.Nodup) (w : τ)
    {readers : τ → Reader} (hreaders : ∀ t, (readers t).Respects (fun _ => False)) :
    Cooperate exec (Inv keys) (interface keys w) (fun _ _ _ => True)
      (threads rounds keys w readers) where
  inv := Inv.start keys
  keeps := by
    intro t
    have hprog : (threads rounds keys w readers).prog t =
      if t = w then writer rounds keys else (readers t).run rounds (fun _ => none) := rfl
    rw [hprog]
    unfold interface
    by_cases ht : t = w
    · rw [if_pos ht, if_pos ht]
      have hwrote : Wrote [] Memory.new (State.start : State τ) :=
        ⟨rfl, fun _ => iff_of_false List.not_mem_nil List.not_mem_nil⟩
      exact keeps_writer hrounds (fun _ h => h) hkeys (fun _ _ => List.not_mem_nil) ⟨_, hwrote⟩
    · rw [if_neg ht, if_neg ht]
      refine keeps_reader hrounds (hreaders t) (Inv.start keys) ⟨fun _ => trivial⟩ ?_
      exact fun _ h => h.elim

/-! ## What the readers and the writer get -/

/-- Keys in the order of `strcmp`. -/
def Precedes (a b : CString) : Prop := strcmp a b < 0

/-- The keys of the nodes ascend. -/
def Memory.Sorted (m : Memory) (xs : List Node) : Prop :=
  ∃ ks : List CString, xs.map (fun x => (m.cell x).key) = ks.map some ∧ ks.Pairwise Precedes

/-- The levels are sorted and each is part of the one below; calls are answered as they would be
for the set of keys at a moment between call and return; no thread comes to an undefined
operation, a failed assertion or the bound of a loop. -/
structure Sound (cfg : Config signature Empty (State τ) τ) : Prop where
  sorted : ∀ l < kMaxHeight, ∃ xs, cfg.shared.mem.Level l xs ∧ cfg.shared.mem.Sorted xs
  below : ∀ l, l + 1 < kMaxHeight → ∀ xs ys, cfg.shared.mem.Level l xs →
    cfg.shared.mem.Level (l + 1) ys → ys ⊆ xs
  asked : ∀ pre post t c since a, cfg.shared.trace = pre ++ .ret t c since a :: post →
    pre[since]? = some (.call t c) ∧ ∀ e ∈ pre.drop (since + 1), e.reader ≠ some t
  contains_true : ∀ pre post t key since b,
    cfg.shared.trace = pre ++ .ret t (.contains key) since (.bool b) :: post →
    .insertReturn key ∈ pre.take since → b = true
  contains_false : ∀ pre post t key since b,
    cfg.shared.trace = pre ++ .ret t (.contains key) since (.bool b) :: post →
    .insertCall key ∉ pre → b = false
  seek : ∀ pre post t i target since a key,
    cfg.shared.trace = pre ++ .ret t (.move i (.seek target)) since (.position a) :: post →
    .insertReturn key ∈ pre.take since → ¬Precedes key target →
    ∃ b, a = some b ∧ ¬Precedes key b
  iteration : ∀ pre post t i begun B ks done, cfg.shared.trace = pre ++ post →
    Iteration t i pre begun B ks done → ks.Pairwise Precedes ∧ (done = true →
      ∀ key, .insertReturn key ∈ pre.take begun → key ∈ B → key ∈ ks)
  prev : ∀ pre post t i since a,
    cfg.shared.trace = pre ++ .ret t (.move i .prev) since (.position a) :: post →
    ∃ p m, positionOf pre t i = some p ∧ since < m ∧ m ≤ pre.length ∧
      Last {k ∈ linkedKeys (pre.take m) | Precedes k p} a
  defined : ∀ t o k, cfg.prog t = .step o k → Defined cfg.shared o

lemma Shape.sorted {m : Memory} {L : Nat → List Node} (h : m.Shape L) {l : Nat}
    (hl : l < kMaxHeight) : m.Sorted (L l) := by
  have hasc : (L l).Pairwise (fun x y => m.rank x < m.rank y) :=
    (List.pairwise_cons.mp (h.ascending l hl)).2
  have hkey : ∀ x ∈ L l, ∃ k : CString, m.rank x = k := fun x hx => h.key hl hx
  generalize L l = xs at hasc hkey
  induction xs with
  | nil => exact ⟨[], rfl, List.Pairwise.nil⟩
  | cons x xs ih =>
    obtain ⟨hx, hxs⟩ := List.pairwise_cons.mp hasc
    obtain ⟨ks, hks, hsorted⟩ := ih hxs (fun y hy => hkey y (List.mem_cons_of_mem x hy))
    obtain ⟨k, hk⟩ := hkey x List.mem_cons_self
    refine ⟨k :: ks, by rw [List.map_cons, List.map_cons, hks, key_of_rank hk], ?_⟩
    refine List.pairwise_cons.mpr ⟨fun k' hk' => ?_, hsorted⟩
    have hmem : some k' ∈ xs.map (fun x => (m.cell x).key) := by
      rw [hks]
      exact List.mem_map_of_mem hk'
    obtain ⟨y, hy, hyk⟩ := List.mem_map.mp hmem
    have hlt := hx y hy
    rw [hk, rank_of_key hyk] at hlt
    exact strcmp_neg.mpr (WithBot.coe_lt_coe.mp hlt)

lemma Shape.level_subset {m : Memory} {L : Nat → List Node} (h : m.Shape L) {l : Nat}
    (hl : l + 1 < kMaxHeight) {xs ys : List Node} (hxs : m.Level l xs)
    (hys : m.Level (l + 1) ys) : ys ⊆ xs := by
  rw [hxs.unique (h.linked l (Nat.lt_of_succ_lt hl)), hys.unique (h.linked (l + 1) hl)]
  exact h.below l hl

omit [DecidableEq τ] in
@[simp] lemma precedes_iff {a b : CString} : Precedes a b ↔ a < b := strcmp_neg

lemma Cooperate.sound {keys : List CString} {w : τ} {cfg : Config signature Empty (State τ) τ}
    (h : Cooperate exec (Inv keys) (interface keys w) (fun _ _ _ => True) cfg) : Sound cfg := by
  obtain ⟨L, hL⟩ := h.inv.shape
  have hf := h.inv.faithful
  have hpre : ∀ pre e post, cfg.shared.trace = pre ++ e :: post → Faithful pre := by
    intro pre e post heq
    rw [heq] at hf
    exact hf.of_append
  refine ⟨fun l hl => ⟨L l, hL.linked l hl, Shape.sorted hL hl⟩,
    fun l hl xs ys hxs hys => Shape.level_subset hL hl hxs hys, ?_, ?_, ?_, ?_, ?_, ?_, ?_⟩
  · intro pre post t c since a heq
    obtain ⟨hcall, hquiet, -⟩ := hf pre _ post heq
    exact ⟨hcall, hquiet⟩
  · intro pre post t key since b heq hk
    exact Event.Follows.contains_true (hpre pre _ post heq) (hf pre _ post heq) hk
  · intro pre post t key since b heq hk
    exact Event.Follows.contains_false (hpre pre _ post heq) (hf pre _ post heq) hk
  · intro pre post t i target since a key heq hk hle
    rw [precedes_iff, not_lt] at hle
    obtain ⟨b, hb, hbk⟩ :=
      Event.Follows.seek_le (hpre pre _ post heq) (hf pre _ post heq) hk hle
    exact ⟨b, hb, by rw [precedes_iff, not_lt]; exact hbk⟩
  · intro pre post t i begun B ks done heq hiter
    rw [heq] at hf
    have hy := hiter.yields hf.of_append
    exact ⟨hy.ascending.imp precedes_iff.mpr, fun hdone key hk hB => hy.complete key hk hB (Or.inl hdone)⟩
  · intro pre post t i since a heq
    obtain ⟨-, -, m, hm, hle, p, hp, hlast⟩ := hf pre _ post heq
    simp only [precedes_iff]
    exact ⟨p, m, hp, hm, hle, hlast⟩
  · intro t o k hprog
    have hlegal := h.legal (compatible keys w) hprog
    unfold interface at hlegal
    split at hlegal <;> exact hlegal

/-- Every interleaving of the writer with the readers is sound. -/
theorem threads_sound {rounds : Nat} {keys : List CString}
    (hrounds : keys.length + kMaxHeight ≤ rounds) (hkeys : keys.Nodup) {w : τ}
    {readers : τ → Reader} (hreaders : ∀ t, (readers t).Respects (fun _ => False))
    {cfg : Config signature Empty (State τ) τ}
    (h : Reach exec (threads rounds keys w readers) cfg) : Sound cfg :=
  Cooperate.sound ((threads_cooperate hrounds hkeys w hreaders).reach (compatible keys w) h)

/-- The string of one byte that is not the terminator. -/
def letter (n : Nat) : CString := ⟨[⟨n % 255 + 1, by omega⟩], by
  intro c hc
  rw [List.mem_singleton.mp hc]
  exact Nat.succ_ne_zero _⟩

/-- A reader that looks for a string, sets an iterator to it and steps on if that is valid. -/
def lookAround (key : CString) : Reader :=
  .contains key (fun _ => .move 0 (.seek key) (fun a =>
    if a = none then .stop else .move 0 .next (fun _ => .stop)))

lemma lookAround_respects (key : CString) : (lookAround key).Respects (fun _ => False) := by
  intro b
  refine ⟨fun h => h.elim, fun a => ?_⟩
  cases a with
  | none => trivial
  | some k =>
    refine ⟨fun _ => ?_, fun _ => trivial⟩
    rw [Function.update_self]
    exact Option.some_ne_none k

def finished : Prog Unit → Bool
  | .ret () => true
  | _ => false

lemma eq_ret_of_finished {p : Prog Unit} (h : finished p = true) : p = .ret () := by
  cases p with
  | ret a => rfl
  | throw e => cases h
  | step o k => cases h

/-- The reader that looks around begins before the first key is linked, and is in its search when
the second one is. -/
def lookingOn : List (Bool × Bool × Nat) :=
  [(false, true, 3), (true, true, 30), (false, true, 5), (true, true, 70), (false, true, 26),
    (true, true, 32)]

theorem threads_sound_letters : ∃ cfg : Config signature Empty (State Bool) Bool,
    Reach exec (threads 14 [letter 2, letter 1] true fun _ => lookAround (letter 1)) cfg ∧
      (∀ t, cfg.prog t = .ret ()) ∧ cfg.shared.trace.length = 12 ∧ Sound cfg := by
  have hplay : (playWithin exec (fun _ _ _ => True) lookingOn
      (threads 14 [letter 2, letter 1] true fun _ => lookAround (letter 1))).map (fun cfg =>
        ((finished (cfg.prog true), finished (cfg.prog false)), cfg.shared.trace.length)) =
      some ((true, true), 12) := by decide +kernel
  obtain ⟨cfg, hturns, hends⟩ := Option.map_eq_some_iff.mp hplay
  obtain ⟨hfinished, hlength⟩ := Prod.mk.inj hends
  obtain ⟨hwriter, hreader⟩ := Prod.mk.inj hfinished
  have hreach := (reach_of_playWithin hturns).reach
  refine ⟨cfg, hreach, fun t => ?_, hlength,
    threads_sound (by decide) (by decide) (fun _ => lookAround_respects _) hreach⟩
  cases t with
  | true => exact eq_ret_of_finished hwriter
  | false => exact eq_ret_of_finished hreader

end MemSafeDB.SkipList
