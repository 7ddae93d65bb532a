import MemSafeDB.Lib.Reliance
import MemSafeDB.Sequential.Descent
import MemSafeDB.Spec.Traces
import MemSafeDB.System.LatchWords

/-!
# What threads rely on

A page can be seen by a thread that has recorded its version, as long as nobody latches it
exclusively, and by its holders. What a thread knows of a page is an assertion on this sight of
the page. Every operation advances the state: it leaves the sight of the pages alone that nobody
has latched since; and it spares the latches of the other threads and the pages behind them.
-/

namespace MemSafeDB
open Lib PageState

variable {τ : Type}

/-- What a page tells a thread: its content, its height in the tree and, for the metadata page,
the root. -/
structure Sight where
  page : BTreeNode
  level : Option Nat
  root : PID

def Sys.sight (s : Sys τ) (p : PID) : Sight :=
  ⟨s.page p, s.level p, if p = metadataPageId then s.root else 0⟩

lemma Sys.root_sight (s : Sys τ) : (s.sight metadataPageId).root = s.root := by
  simp [sight]

/-- The state of a run and what has been done. -/
abbrev Point (τ : Type) := Moment signature (Sys τ) τ

namespace Point

/-! ## Assertions -/

/-- The page is still as it was when its version was recorded in the guard. -/
structure Fresh (g : GuardO) (m : Point τ) : Prop where
  unlocks : m.now.unlocks g.pid = version g.version
  free : m.now.xHolders g.pid = []

/-- The assertion holds as long as the guard is fresh. -/
structure While (g : GuardO) (A : Point τ → Prop) (m : Point τ) : Prop where
  state : getState g.version ≤ MaxShared
  unlocks : version g.version ≤ m.now.unlocks g.pid
  fresh : Fresh g m → A m

/-- As long as the guard is fresh, `F` holds of the page. -/
def Sees (g : GuardO) (F : Sight → Prop) : Point τ → Prop :=
  While g (fun m => F (m.now.sight g.pid))

/-- The page has been given out by `allocPage`. -/
def Given (p : PID) (m : Point τ) : Prop := getState (m.now.word p) ≠ Evicted

/-- Thread `t` holds a latch of the page. -/
def Holds (t : τ) (p : PID) (m : Point τ) : Prop := t ∈ m.now.xHolders p ∨ t ∈ m.now.sHolders p

/-- Every event since then is of another thread. -/
def Since (t : τ) (m m' : Point τ) : Prop :=
  ∃ es, m'.now.trace = m.now.trace ++ es ∧ Silent t es

/-- Thread `t` holds these pages exclusively and shared. -/
structure Owns [DecidableEq τ] (t : τ) (X S : List PID) (m : Point τ) : Prop where
  exclusive : ∀ p, (m.now.xHolders p).count t = X.count p
  shared : ∀ p, (m.now.sHolders p).count t = S.count p

/-! ## What operations do -/

/-- What an operation of any thread does. -/
structure Advance (m m' : Point τ) : Prop where
  past : ∀ a ∈ m.past, a ∈ m'.past
  unlocks : ∀ p, m.now.unlocks p ≤ m'.now.unlocks p
  sight : ∀ p, m'.now.unlocks p = m.now.unlocks p → m'.now.xHolders p = [] →
    m.now.xHolders p = [] ∧ m'.now.sight p = m.now.sight p
  given : ∀ p, Given p m → Given p m'
  trace : m.now.trace <+: m'.now.trace

/-- What an operation of another thread leaves to thread `t`. -/
structure Spare [DecidableEq τ] (t : τ) (m m' : Point τ) : Prop where
  exclusive : ∀ p, (m'.now.xHolders p).count t = (m.now.xHolders p).count t
  shared : ∀ p, (m'.now.sHolders p).count t = (m.now.sHolders p).count t
  sight : ∀ p, Holds t p m → m'.now.sight p = m.now.sight p
  latched : ∀ p, Latched m'.past t p → Latched m.past t p
  trace : Since t m m'

lemma Advance.refl (m : Point τ) : Advance m m :=
  ⟨fun _ h => h, fun _ => le_rfl, fun _ _ h => ⟨h, rfl⟩, fun _ h => h, List.prefix_rfl⟩

lemma Advance.trans {m m' m'' : Point τ} (h : Advance m m') (h' : Advance m' m'') :
    Advance m m'' where
  past := fun a ha => h'.past a (h.past a ha)
  unlocks := fun p => (h.unlocks p).trans (h'.unlocks p)
  sight := by
    intro p hp hx
    have hle := h.unlocks p
    have hle' := h'.unlocks p
    obtain ⟨hx', hs'⟩ := h'.sight p (by omega) hx
    obtain ⟨hx'', hs⟩ := h.sight p (by omega) hx'
    exact ⟨hx'', hs'.trans hs⟩
  given := fun p hp => h'.given p (h.given p hp)
  trace := h.trace.trans h'.trace

lemma Since.refl (t : τ) (m : Point τ) : Since t m m := ⟨[], by rw [List.append_nil], silent_nil t⟩

lemma Since.trans {t : τ} {m m' m'' : Point τ} (h : Since t m m') (h' : Since t m' m'') :
    Since t m m'' := by
  obtain ⟨es, hes, hsilent⟩ := h
  obtain ⟨fs, hfs, hsilent'⟩ := h'
  exact ⟨es ++ fs, by rw [hfs, hes, List.append_assoc], hsilent.append hsilent'⟩

variable [DecidableEq τ]

lemma Spare.refl (t : τ) (m : Point τ) : Spare t m m :=
  ⟨fun _ => rfl, fun _ => rfl, fun _ _ => rfl, fun _ h => h, Since.refl t m⟩

lemma Spare.holds {t : τ} {p : PID} {m m' : Point τ} (h : Spare t m m') :
    Holds t p m' ↔ Holds t p m := by
  unfold Holds
  rw [← List.count_pos_iff, ← List.count_pos_iff, h.exclusive, h.shared, List.count_pos_iff,
    List.count_pos_iff]

lemma Spare.trans {t : τ} {m m' m'' : Point τ} (h : Spare t m m') (h' : Spare t m' m'') :
    Spare t m m'' where
  exclusive := fun p => (h'.exclusive p).trans (h.exclusive p)
  shared := fun p => (h'.shared p).trans (h.shared p)
  sight := fun p hp => (h'.sight p (h.holds.mpr hp)).trans (h.sight p hp)
  latched := fun p hp => h.latched p (h'.latched p hp)
  trace := h.trace.trans h'.trace

/-! ## What lasts -/

omit [DecidableEq τ] in
lemma Fresh.before {g : GuardO} {m m' : Point τ} (h : Advance m m') (hf : Fresh g m')
    (hle : version g.version ≤ m.now.unlocks g.pid) :
    Fresh g m ∧ m'.now.sight g.pid = m.now.sight g.pid := by
  have hmono := h.unlocks g.pid
  have hu := hf.unlocks
  obtain ⟨hx, hs⟩ := h.sight g.pid (by omega) hf.free
  exact ⟨⟨by omega, hx⟩, hs⟩

omit [DecidableEq τ] in
lemma While.advance {g : GuardO} {A : Point τ → Prop} {m m' : Point τ} (h : Advance m m')
    (hA : m'.now.sight g.pid = m.now.sight g.pid → A m → A m') (hw : While g A m) :
    While g A m' where
  state := hw.state
  unlocks := hw.unlocks.trans (h.unlocks g.pid)
  fresh := by
    intro hf
    obtain ⟨hf', heq⟩ := hf.before h hw.unlocks
    exact hA heq (hw.fresh hf')

omit [DecidableEq τ] in
lemma Sees.fresh {g : GuardO} {F : Sight → Prop} {m : Point τ} (h : Sees g F m) (hf : Fresh g m) :
    F (m.now.sight g.pid) := While.fresh h hf

omit [DecidableEq τ] in
lemma Sees.advance {g : GuardO} {F : Sight → Prop} {m m' : Point τ} (h : Advance m m')
    (hs : Sees g F m) : Sees g F m' :=
  While.advance h (fun heq (hF : F (m.now.sight g.pid)) => by rwa [← heq] at hF) hs

omit [DecidableEq τ] in
lemma While.mono {g : GuardO} {A B : Point τ → Prop} {m : Point τ} (h : While g A m)
    (hAB : A m → B m) : While g B m := ⟨h.state, h.unlocks, fun hf => hAB (h.fresh hf)⟩

omit [DecidableEq τ] in
lemma Sees.mono {g : GuardO} {F G : Sight → Prop} {m : Point τ} (h : Sees g F m)
    (hFG : ∀ s, F s → G s) : Sees g G m := While.mono h (hFG _)

omit [DecidableEq τ] in
lemma While.and {g : GuardO} {A B : Point τ → Prop} {m : Point τ} (h : While g A m)
    (h' : While g B m) : While g (fun m => A m ∧ B m) m :=
  ⟨h.state, h.unlocks, fun hf => ⟨h.fresh hf, h'.fresh hf⟩⟩

lemma Owns.spare {t : τ} {X S : List PID} {m m' : Point τ} (h : Spare t m m')
    (ho : Owns t X S m) : Owns t X S m' :=
  ⟨fun p => (h.exclusive p).trans (ho.exclusive p), fun p => (h.shared p).trans (ho.shared p)⟩

lemma Owns.mem_xHolders {t : τ} {X S : List PID} {m : Point τ} (h : Owns t X S m) {p : PID} :
    t ∈ m.now.xHolders p ↔ p ∈ X := by
  rw [← List.count_pos_iff, h.exclusive, List.count_pos_iff]

lemma Owns.mem_sHolders {t : τ} {X S : List PID} {m : Point τ} (h : Owns t X S m) {p : PID} :
    t ∈ m.now.sHolders p ↔ p ∈ S := by
  rw [← List.count_pos_iff, h.shared, List.count_pos_iff]

lemma Owns.holds {t : τ} {X S : List PID} {m : Point τ} (h : Owns t X S m) {p : PID} :
    Holds t p m ↔ p ∈ X ∨ p ∈ S := by
  unfold Holds
  rw [h.mem_xHolders, h.mem_sHolders]

lemma Owns.perm {t : τ} {X X' S : List PID} {m : Point τ} (h : Owns t X S m) (hX : X.Perm X') :
    Owns t X' S m := ⟨fun p => (h.exclusive p).trans (hX.count_eq p), h.shared⟩

end Point

end MemSafeDB
