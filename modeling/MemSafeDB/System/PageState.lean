import Mathlib.Data.Nat.Bitwise
import Mathlib.Tactic.Common

/-!
# The latch word of a page

`stateAndVersion` packs the state of a page into its upper byte and a version of 56 bits into
the rest. The functions work on the 64 bits as the code does; `nextVersion` adds one to the
version before the new state is put on top, so a version that runs over carries into the state.
-/

namespace MemSafeDB

/-- The 64 bits of `stateAndVersion`. -/
abbrev Word := Nat

namespace PageState

abbrev Unlocked : Nat := 0
abbrev MaxShared : Nat := 252
abbrev Locked : Nat := 253
abbrev Marked : Nat := 254
abbrev Evicted : Nat := 255

def getState (v : Word) : Nat := v >>> 56

def sameVersion (oldStateAndVersion newState : Nat) : Word :=
  ((oldStateAndVersion <<< 8) % 2 ^ 64) >>> 8 ||| (newState <<< 56) % 2 ^ 64

def nextVersion (oldStateAndVersion newState : Nat) : Word :=
  (((oldStateAndVersion <<< 8) % 2 ^ 64) >>> 8 + 1) ||| (newState <<< 56) % 2 ^ 64

/-- `(v<<8) == (w<<8)` -/
def versionEq (v w : Word) : Bool := (v <<< 8) % 2 ^ 64 == (w <<< 8) % 2 ^ 64

/-- The 56 bits below the state. -/
def version (v : Word) : Nat := v % 2 ^ 56

/-- A state on top of a version. -/
def pack (state ver : Nat) : Word := state * 2 ^ 56 + ver

lemma shift_version (v : Word) : ((v <<< 8) % 2 ^ 64) >>> 8 = version v := by
  rw [Nat.shiftLeft_eq, Nat.shiftRight_eq_div_pow, version]
  change (v * 2 ^ 8 % 2 ^ 64 / 2 ^ 8 : Nat) = v % 2 ^ 56
  omega

lemma shift_state {s : Nat} (hs : s < 256) : (s <<< 56) % 2 ^ 64 = s <<< 56 := by
  rw [Nat.shiftLeft_eq]
  omega

lemma getState_eq (v : Word) : getState v = v / 2 ^ 56 := Nat.shiftRight_eq_div_pow v 56

lemma version_lt (v : Word) : version v < 2 ^ 56 := Nat.mod_lt _ (Nat.two_pow_pos 56)

lemma sameVersion_eq (v : Word) {s : Nat} (hs : s < 256) :
    sameVersion v s = pack s (version v) := by
  rw [sameVersion, shift_version, shift_state hs, Nat.or_comm,
    ← Nat.shiftLeft_add_eq_or_of_lt (version_lt v), Nat.shiftLeft_eq]
  rfl

/-- Below the last version the next version is one higher. -/
lemma nextVersion_eq {v : Word} (hv : version v + 1 < 2 ^ 56) {s : Nat} (hs : s < 256) :
    nextVersion v s = pack s (version v + 1) := by
  rw [nextVersion, shift_version, shift_state hs, Nat.or_comm,
    ← Nat.shiftLeft_add_eq_or_of_lt hv, Nat.shiftLeft_eq]
  rfl

/-- After the last version the carry stands for a shared latch. -/
lemma nextVersion_last {v : Word} (hv : version v + 1 = 2 ^ 56) :
    nextVersion v Unlocked = pack 1 0 := by
  rw [nextVersion, shift_version, hv]
  rfl

@[simp] lemma getState_pack {s ver : Nat} (hv : ver < 2 ^ 56) : getState (pack s ver) = s := by
  rw [getState_eq, pack]
  omega

@[simp] lemma version_pack {s ver : Nat} (hv : ver < 2 ^ 56) : version (pack s ver) = ver := by
  rw [version, pack]
  omega

lemma versionEq_iff {v w : Word} : versionEq v w = true ↔ version v = version w := by
  rw [versionEq, beq_iff_eq, Nat.shiftLeft_eq, Nat.shiftLeft_eq, version, version]
  change (v * 2 ^ 8 % 2 ^ 64 : Nat) = w * 2 ^ 8 % 2 ^ 64 ↔ (v % 2 ^ 56 : Nat) = w % 2 ^ 56
  omega

lemma getState_sameVersion (v : Word) {s : Nat} (hs : s < 256) :
    getState (sameVersion v s) = s := by
  rw [sameVersion_eq v hs, getState_pack (version_lt v)]

lemma version_sameVersion (v : Word) {s : Nat} (hs : s < 256) :
    version (sameVersion v s) = version v := by
  rw [sameVersion_eq v hs, version_pack (version_lt v)]

end PageState

end MemSafeDB
