import NexgileIde.Library.ByteFormat

/-!
# Numbers in a byte buffer

Writes outside a buffer are dropped, and reads outside it give nothing.
-/
namespace NexgileIde.Text

open Library

abbrev Bytes := List UInt8

/-- The value that a byte takes from a number. -/
def toUint8 (value : ℤ) : UInt8 := UInt8.ofNat (value % 2 ^ 8).toNat

/-- `value >>> shift` -/
def unsignedShiftRight (value : ℤ) (shift : ℕ) : ℤ := (value % 2 ^ 32) / 2 ^ shift

def writeUInt8 (destination : Bytes) (value : ℤ) (offset : ℕ) : Bytes :=
  destination.set offset (toUint8 value)

def readUInt8 (source : Bytes) (offset : ℕ) : Option ℕ := do
  let byte ← source[offset]?
  return byte.toNat

def writeUInt32BE (destination : Bytes) (value : ℤ) (offset : ℕ) : Bytes :=
  let destination := destination.set (offset + 3) (toUint8 value)
  let value := unsignedShiftRight value 8
  let destination := destination.set (offset + 2) (toUint8 value)
  let value := unsignedShiftRight value 8
  let destination := destination.set (offset + 1) (toUint8 value)
  let value := unsignedShiftRight value 8
  destination.set offset (toUint8 value)

def readUInt32BE (source : Bytes) (offset : ℕ) : Option ℕ := do
  let b0 ← source[offset]?
  let b1 ← source[offset + 1]?
  let b2 ← source[offset + 2]?
  let b3 ← source[offset + 3]?
  return b0.toNat * 2 ^ 24 + b1.toNat * 2 ^ 16 + b2.toNat * 2 ^ 8 + b3.toNat

def writeUInt16LE (destination : Bytes) (value : UInt16) (offset : ℕ) : Bytes :=
  let destination := destination.set offset (value &&& 0xFF).toUInt8
  let value := value >>> 8
  destination.set (offset + 1) (value &&& 0xFF).toUInt8

def readUInt16LE (source : Bytes) (offset : ℕ) : Option ℕ := do
  let b0 ← source[offset]?
  let b1 ← source[offset + 1]?
  return b0.toNat ||| (b1.toNat <<< 8)

/-! ## What they write -/

def bytesUInt32BE (value : ℤ) : Bytes :=
  [toUint8 (value / 2 ^ 24), toUint8 (value / 2 ^ 16), toUint8 (value / 2 ^ 8), toUint8 value]

def bytesUInt16LE (value : UInt16) : Bytes := [value.toUInt8, (value >>> 8).toUInt8]

@[simp] theorem length_bytesUInt32BE (value : ℤ) : (bytesUInt32BE value).length = 4 := rfl

@[simp] theorem length_bytesUInt16LE (value : UInt16) : (bytesUInt16LE value).length = 2 := rfl

/-- Writers as the code uses them: the offset moves behind what was written. -/
def uint8 (value : ℤ) : Writer UInt8 := fun b offset => (writeUInt8 b value offset, offset + 1)

def uint32BE (value : ℤ) : Writer UInt8 := fun b offset =>
  (writeUInt32BE b value offset, offset + 4)

def uint16LE (value : UInt16) : Writer UInt8 := fun b offset =>
  (writeUInt16LE b value offset, offset + 2)

theorem writes_uint8 (value : ℤ) : Writes (uint8 value) [toUint8 value] := writes_set _

theorem toUint8_congr {a b : ℤ} (h : a % 256 = b % 256) : toUint8 a = toUint8 b := by
  unfold toUint8
  norm_num
  rw [h]

theorem writes_uint32BE (value : ℤ) : Writes (uint32BE value) (bytesUInt32BE value) := by
  intro before old after hlength
  obtain ⟨a, b, c, d, rfl⟩ : ∃ a b c d, old = [a, b, c, d] := by
    match old, hlength with
    | [a, b, c, d], _ => exact ⟨a, b, c, d, rfl⟩
  have hsecond : toUint8 (unsignedShiftRight value 8) = toUint8 (value / 2 ^ 8) := by
    apply toUint8_congr
    unfold unsignedShiftRight
    omega
  have hthird : toUint8 (unsignedShiftRight (unsignedShiftRight value 8) 8) =
      toUint8 (value / 2 ^ 16) := by
    apply toUint8_congr
    unfold unsignedShiftRight
    omega
  have hfourth : toUint8 (unsignedShiftRight (unsignedShiftRight (unsignedShiftRight value 8) 8)
      8) = toUint8 (value / 2 ^ 24) := by
    apply toUint8_congr
    unfold unsignedShiftRight
    omega
  simp [uint32BE, writeUInt32BE, bytesUInt32BE, hsecond, hthird, hfourth]

theorem and_255 (byte : UInt8) : byte &&& 255 = byte := by
  apply UInt8.toNat_inj.mp
  rw [UInt8.toNat_and, show (255 : UInt8).toNat = 2 ^ 8 - 1 from rfl,
    Nat.and_two_pow_sub_one_eq_mod]
  exact Nat.mod_eq_of_lt byte.toNat_lt

theorem writes_uint16LE (value : UInt16) : Writes (uint16LE value) (bytesUInt16LE value) := by
  intro before old after hlength
  obtain ⟨a, b, rfl⟩ : ∃ a b, old = [a, b] := by
    match old, hlength with
    | [a, b], _ => exact ⟨a, b, rfl⟩
  simp [uint16LE, writeUInt16LE, bytesUInt16LE, and_255]

/-! ## What they read -/

theorem readUInt8_of_drop {b rest : Bytes} {offset : ℕ} {value : ℤ} (hvalue : 0 ≤ value)
    (hfits : value < 2 ^ 8) (h : b.drop offset = [toUint8 value] ++ rest) :
    readUInt8 b offset = some value.toNat := by
  have hbyte : b[offset + 0]? = some (toUint8 value) := getElem?_of_drop h (by simp)
  have hnat : (toUint8 value).toNat = value.toNat := by
    unfold toUint8
    rw [UInt8.toNat_ofNat']
    omega
  rw [Nat.add_zero] at hbyte
  simp [readUInt8, hbyte, hnat]

theorem toNat_toUint8 (value : ℤ) : ((toUint8 value).toNat : ℤ) = value % 256 := by
  unfold toUint8
  rw [UInt8.toNat_ofNat']
  omega

theorem readUInt32BE_of_drop {b rest : Bytes} {offset : ℕ} {value : ℤ} (hvalue : 0 ≤ value)
    (hfits : value < 2 ^ 32) (h : b.drop offset = bytesUInt32BE value ++ rest) :
    readUInt32BE b offset = some value.toNat := by
  have hbyte : ∀ i < 4, b[offset + i]? = (bytesUInt32BE value)[i]? :=
    fun i hi => getElem?_of_drop h hi
  have h0 := hbyte 0 (by decide)
  have h1 := hbyte 1 (by decide)
  have h2 := hbyte 2 (by decide)
  have h3 := hbyte 3 (by decide)
  simp only [bytesUInt32BE, Nat.add_zero, List.getElem?_cons_zero, List.getElem?_cons_succ]
    at h0 h1 h2 h3
  simp only [readUInt32BE, h0, h1, h2, h3, Option.bind_eq_bind, Option.bind_some]
  have hsum0 := toNat_toUint8 (value / 2 ^ 24)
  have hsum1 := toNat_toUint8 (value / 2 ^ 16)
  have hsum2 := toNat_toUint8 (value / 2 ^ 8)
  have hsum3 := toNat_toUint8 value
  refine congrArg some ?_
  omega

/-- Two bytes give back the code unit. -/
theorem readUInt16LE_of_drop {b rest : Bytes} {offset : ℕ} {value : UInt16}
    (h : b.drop offset = bytesUInt16LE value ++ rest) :
    readUInt16LE b offset = some value.toNat := by
  have hbyte : ∀ i < 2, b[offset + i]? = (bytesUInt16LE value)[i]? :=
    fun i hi => getElem?_of_drop h hi
  have h0 := hbyte 0 (by decide)
  have h1 := hbyte 1 (by decide)
  simp only [bytesUInt16LE, Nat.add_zero, List.getElem?_cons_zero, List.getElem?_cons_succ] at h0 h1
  simp only [readUInt16LE, h0, h1, Option.bind_eq_bind, Option.bind_some]
  refine congrArg some ?_
  have hlt := value.toNat_lt
  have hlow : value.toUInt8.toNat < 2 ^ 8 := value.toUInt8.toNat_lt
  rw [Nat.or_comm, ← Nat.shiftLeft_add_eq_or_of_lt hlow, Nat.shiftLeft_eq, UInt16.toNat_toUInt8,
    UInt16.toNat_toUInt8, UInt16.toNat_shiftRight, show (8 : UInt16).toNat % 16 = 8 from rfl,
    Nat.shiftRight_eq_div_pow]
  omega

end NexgileIde.Text
