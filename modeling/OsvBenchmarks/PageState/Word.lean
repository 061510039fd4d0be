import Mathlib.Data.Nat.Bitwise
import Mathlib.Tactic.NormNum

/-!
The 64-bit word of a page: the state in the top byte, the version in the low
56 bits. Each compare-and-exchange is the function from the word in memory and
the expected word to the new word, `none` when the exchange fails.
-/
namespace PageState

abbrev Word := BitVec 64

def Unlocked : Word := 0
def MaxShared : Word := 252
def Locked : Word := 253
def Marked : Word := 254
def Evicted : Word := 255

def sameVersion (oldStateAndVersion newState : Word) : Word :=
  ((oldStateAndVersion <<< 8) >>> 8) ||| (newState <<< 56)

def nextVersion (oldStateAndVersion newState : Word) : Word :=
  (((oldStateAndVersion <<< 8) >>> 8) + 1#64) ||| (newState <<< 56)

def getState (v : Word) : Word := v >>> 56

def init : Word := sameVersion 0 Evicted

def tryLockX (word oldStateAndVersion : Word) : Option Word :=
  if word = oldStateAndVersion then some (sameVersion oldStateAndVersion Locked) else none

def tryLockS (word oldStateAndVersion : Word) : Option Word :=
  let s := getState oldStateAndVersion
  if s < MaxShared then
    if word = oldStateAndVersion then some (sameVersion oldStateAndVersion (s + 1)) else none
  else if s = Marked then
    if word = oldStateAndVersion then some (sameVersion oldStateAndVersion 1) else none
  else none

def tryMark (word oldStateAndVersion : Word) : Option Word :=
  if word = oldStateAndVersion then some (sameVersion oldStateAndVersion Marked) else none

/-- The exchange in the loop of unlockS; `oldStateAndVersion` was loaded before. -/
def unlockSOnce (word oldStateAndVersion : Word) : Option Word :=
  if word = oldStateAndVersion then
    some (sameVersion oldStateAndVersion (getState oldStateAndVersion - 1))
  else none

@[simp] theorem unlocked_toNat : Unlocked.toNat = 0 := rfl
@[simp] theorem locked_toNat : Locked.toNat = 253 := rfl
@[simp] theorem marked_toNat : Marked.toNat = 254 := rfl
@[simp] theorem evicted_toNat : Evicted.toNat = 255 := rfl

def version (v : Word) : ℕ := v.toNat % 2 ^ 56

def byte (v : Word) : ℕ := v.toNat / 2 ^ 56

theorem version_lt (v : Word) : version v < 2 ^ 56 := Nat.mod_lt _ (by norm_num)

theorem byte_lt (v : Word) : byte v < 256 := by
  have := v.isLt
  unfold byte
  omega

theorem getState_toNat (v : Word) : (getState v).toNat = byte v := by
  simp [getState, byte, Nat.shiftRight_eq_div_pow]

theorem clear_state_toNat (v : Word) : ((v <<< 8) >>> 8).toNat = version v := by
  have := v.isLt
  simp only [BitVec.toNat_ushiftRight, BitVec.toNat_shiftLeft, Nat.shiftRight_eq_div_pow,
    Nat.shiftLeft_eq, version]
  omega

theorem pack_toNat {low state : Word} (hl : low.toNat < 2 ^ 56) :
    (low ||| (state <<< 56)).toNat = low.toNat + state.toNat % 256 * 2 ^ 56 := by
  have hs : (state <<< 56).toNat = 2 ^ 56 * (state.toNat % 256) := by
    simp only [BitVec.toNat_shiftLeft, Nat.shiftLeft_eq]
    omega
  rw [BitVec.toNat_or, hs, Nat.or_comm, ← Nat.two_pow_add_eq_or_of_lt hl]
  omega

theorem sameVersion_toNat (v s : Word) :
    (sameVersion v s).toNat = version v + s.toNat % 256 * 2 ^ 56 := by
  have hv := clear_state_toNat v
  rw [sameVersion, pack_toNat (by rw [hv]; exact version_lt v), hv]

@[simp] theorem version_sameVersion (v s : Word) : version (sameVersion v s) = version v := by
  have := version_lt v
  rw [version, sameVersion_toNat]
  omega

@[simp] theorem byte_sameVersion (v s : Word) : byte (sameVersion v s) = s.toNat % 256 := by
  have := version_lt v
  rw [byte, sameVersion_toNat]
  omega

theorem nextVersion_toNat {v : Word} (room : version v + 1 < 2 ^ 56) (s : Word) :
    (nextVersion v s).toNat = version v + 1 + s.toNat % 256 * 2 ^ 56 := by
  have hv := clear_state_toNat v
  have h1 : ((v <<< 8) >>> 8 + 1#64).toNat = version v + 1 := by
    rw [BitVec.toNat_add, hv]
    change (version v + 1) % 2 ^ 64 = _
    omega
  rw [nextVersion, pack_toNat (by rw [h1]; exact room), h1]

theorem version_nextVersion {v : Word} (room : version v + 1 < 2 ^ 56) (s : Word) :
    version (nextVersion v s) = version v + 1 := by
  rw [version, nextVersion_toNat room]
  omega

theorem byte_nextVersion {v : Word} (room : version v + 1 < 2 ^ 56) (s : Word) :
    byte (nextVersion v s) = s.toNat % 256 := by
  rw [byte, nextVersion_toNat room]
  omega

theorem nextVersion_overflow {v : Word} (full : version v + 1 = 2 ^ 56) (s : Word) :
    nextVersion v s = (1#64 <<< 56) ||| (s <<< 56) := by
  have low : (v <<< 8) >>> 8 = (1#64 <<< 56) - 1#64 := by
    rw [← BitVec.toNat_inj, clear_state_toNat]
    change version v = 2 ^ 56 - 1
    omega
  unfold nextVersion
  rw [low]
  rfl

theorem getState_eq_iff {v s : Word} : getState v = s ↔ byte v = s.toNat := by
  rw [← getState_toNat, BitVec.toNat_inj]

theorem shift_eq_iff {v w : Word} : v <<< 8 = w <<< 8 ↔ version v = version w := by
  rw [← BitVec.toNat_inj]
  simp only [BitVec.toNat_shiftLeft, Nat.shiftLeft_eq, version]
  omega

end PageState
