import Mathlib.Data.Int.Init
import Mathlib.Tactic

/-!
# Numbers of 32 bits
-/
namespace NexgileIde.Base

/-- `value | 0` -/
def toInt32 (value : ℤ) : ℤ := (value + 2 ^ 31) % 2 ^ 32 - 2 ^ 31

/-- What does not fit is cut off, but what is not an `int32` comes back negative. -/
def toUint32 (v : ℤ) : ℤ :=
  if v < 0 then 0
  else if v > 4294967295 then 4294967295
  else toInt32 v

theorem toInt32_eq {value : ℤ} (h : -2 ^ 31 ≤ value) (h' : value < 2 ^ 31) :
    toInt32 value = value := by
  unfold toInt32
  omega

theorem toUint32_eq {v : ℤ} (h : 0 ≤ v) (h' : v < 2 ^ 31) : toUint32 v = v := by
  unfold toUint32
  rw [toInt32_eq (by omega) h']
  split_ifs <;> omega

/-- A `uint32` is stored as it is. -/
theorem toUint32_emod {v : ℤ} (h : 0 ≤ v) (h' : v < 2 ^ 32) : toUint32 v % 2 ^ 32 = v := by
  unfold toUint32 toInt32
  split_ifs <;> omega

end NexgileIde.Base
