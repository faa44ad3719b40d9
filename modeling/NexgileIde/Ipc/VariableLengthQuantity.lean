import NexgileIde.Text.Buffer

/-!
# Variable length quantities

A number is written in groups of seven bits, the lowest group first, with a
continuation bit on every byte but the last. It is written with unsigned shifts
and read with signed ones.
-/
namespace NexgileIde.Ipc

open Text

/-! ## Bit operations on numbers -/

/-- The bits that an operator takes from its operand. -/
abbrev toBits (value : ℤ) : BitVec 32 := BitVec.ofInt 32 value

def bitAnd (a b : ℤ) : ℤ := (toBits a &&& toBits b).toInt

def bitOr (a b : ℤ) : ℤ := (toBits a ||| toBits b).toInt

def shiftLeft (value : ℤ) (shift : ℕ) : ℤ := (toBits value <<< (shift % 32)).toInt

/-! ## Readers -/

/-- `subarray` counts a negative index from the end and moves the others inside. -/
def relativeIndex (length : ℕ) (index : ℤ) : ℕ :=
  if index < 0 then (length + index).toNat else min index.toNat length

def subarray (b : Bytes) (start stop : ℤ) : Bytes :=
  (b.take (relativeIndex b.length stop)).drop (relativeIndex b.length start)

structure BufferReader where
  buffer : Bytes
  pos : ℕ
  deriving DecidableEq, Repr

namespace BufferReader

def read (reader : BufferReader) (bytes : ℤ) : Bytes × BufferReader :=
  let result := subarray reader.buffer reader.pos (reader.pos + bytes)
  (result, { reader with pos := reader.pos + result.length })

/-- The bytes that are still to be read. -/
def remaining (reader : BufferReader) : Bytes := reader.buffer.drop reader.pos

/-- The reader behind the next `n` bytes. -/
def skip (reader : BufferReader) (n : ℕ) : BufferReader := { reader with pos := reader.pos + n }

@[simp] theorem skip_skip (reader : BufferReader) (m n : ℕ) :
    (reader.skip m).skip n = reader.skip (m + n) := by
  simp [skip, Nat.add_assoc]

theorem remaining_skip {reader : BufferReader} {bytes rest : Bytes}
    (h : reader.remaining = bytes ++ rest) : (reader.skip bytes.length).remaining = rest :=
  Library.drop_add_length h

theorem remaining_skip_one {reader : BufferReader} {byte : UInt8} {rest : Bytes}
    (h : reader.remaining = byte :: rest) : (reader.skip 1).remaining = rest :=
  remaining_skip (show reader.remaining = [byte] ++ rest from h)

/-- What is left is read when it is less than what was asked for. -/
theorem read_natCast (reader : BufferReader) (n : ℕ) :
    reader.read n =
      (reader.remaining.take n, reader.skip (reader.remaining.take n).length) := by
  have hstop : relativeIndex reader.buffer.length (reader.pos + n) =
      min (reader.pos + n) reader.buffer.length := by
    unfold relativeIndex
    rw [if_neg (by omega)]
    omega
  have hstart : relativeIndex reader.buffer.length reader.pos =
      min reader.pos reader.buffer.length := by
    unfold relativeIndex
    rw [if_neg (by omega)]
    omega
  have hresult : subarray reader.buffer reader.pos (reader.pos + n) =
      reader.remaining.take n := by
    unfold subarray remaining
    rw [hstop, hstart]
    by_cases hpos : reader.pos ≤ reader.buffer.length
    · rw [Nat.min_eq_left hpos, ← List.take_take, List.take_length, List.drop_take,
        Nat.add_sub_cancel_left]
    · rw [Nat.min_eq_right (by omega), Nat.min_eq_right (by omega), List.take_length,
        List.drop_length, List.drop_eq_nil_of_le (by omega), List.take_nil]
  simp only [read, hresult, skip]

/-- Bytes that are there are read. -/
theorem read_of_remaining {reader : BufferReader} {bytes rest : Bytes}
    (h : reader.remaining = bytes ++ rest) :
    reader.read bytes.length = (bytes, reader.skip bytes.length) := by
  rw [read_natCast, h, List.take_left]

theorem read_one_cons {reader : BufferReader} {byte : UInt8} {rest : Bytes}
    (h : reader.remaining = byte :: rest) : reader.read 1 = ([byte], reader.skip 1) :=
  read_of_remaining (show reader.remaining = [byte] ++ rest from h)

theorem read_one_nil {reader : BufferReader} (h : reader.remaining = []) :
    reader.read 1 = ([], reader) :=
  (read_natCast reader 1).trans (by rw [h]; rfl)

end BufferReader

/-! ## The functions of the source -/

/-- A byte that is missing counts as zero. -/
def readIntVQLFrom (reader : BufferReader) (n : ℕ) (value : ℤ) : ℤ × BufferReader :=
  match hread : reader.read 1 with
  | ([], reader) => (bitOr value (shiftLeft (bitAnd 0 0b01111111) n), reader)
  | (next :: _, reader') =>
    let value := bitOr value (shiftLeft (bitAnd next.toNat 0b01111111) n)
    if bitAnd next.toNat 0b10000000 = 0 then (value, reader')
    else readIntVQLFrom reader' (n + 7) value
termination_by reader.remaining.length
decreasing_by
  cases hremaining : reader.remaining with
  | nil => simp [BufferReader.read_one_nil hremaining] at hread
  | cons byte rest =>
    have hskip := BufferReader.remaining_skip_one hremaining
    have hreader : reader.skip 1 = reader' := by
      rw [BufferReader.read_one_cons hremaining] at hread
      exact (Prod.mk.inj hread).2
    rw [← hreader, hskip, List.length_cons]
    exact Nat.lt_succ_self _

def readIntVQL (reader : BufferReader) : ℤ × BufferReader := readIntVQLFrom reader 0 0

/-- The first loop counts the groups. -/
def vqlLength (value : ℤ) : ℕ :=
  if value = 0 then 0 else vqlLength (unsignedShiftRight value 7) + 1
termination_by if value < 0 then 2 ^ 32 else value.toNat
decreasing_by
  unfold unsignedShiftRight
  split_ifs <;> omega

/-- The second loop writes them. -/
def fillVQL (scratch : Bytes) (i : ℕ) (value : ℤ) : Bytes :=
  if value = 0 then scratch
  else
    let scratch := scratch.set i (toUint8 (bitAnd value 0b01111111))
    let value := unsignedShiftRight value 7
    let scratch :=
      if value > 0 then scratch.set i ((scratch[i]?).getD 0 ||| 0b10000000) else scratch
    fillVQL scratch (i + 1) value
termination_by if value < 0 then 2 ^ 32 else value.toNat
decreasing_by
  unfold unsignedShiftRight
  split_ifs <;> omega

def writeInt32VQL (value : ℤ) : Bytes :=
  if value = 0 then [0]
  else fillVQL (List.replicate (vqlLength value) 0) 0 value

/-! ## Groups of seven bits -/

theorem toNat_toBits (value : ℤ) : ((toBits value).toNat : ℤ) = value % 2 ^ 32 := by
  rw [BitVec.toNat_ofInt]
  omega

theorem bitAnd_127 (value : ℤ) : bitAnd value 0b01111111 = value % 2 ^ 7 := by
  have hmask : (toBits 0b01111111).toNat = 2 ^ 7 - 1 := by decide
  have hand : (toBits value &&& toBits 0b01111111).toNat = (toBits value).toNat % 2 ^ 7 := by
    rw [BitVec.toNat_and, hmask, Nat.and_two_pow_sub_one_eq_mod]
  have hvalue := toNat_toBits value
  unfold bitAnd
  rw [BitVec.toInt_eq_toNat_of_lt (by omega), hand]
  omega

theorem bitAnd_128 : ∀ byte < 256, bitAnd ((byte : ℕ) : ℤ) 0b10000000 = 0 ↔ byte < 128 := by
  decide +kernel

/-- The bytes of a number: every group but the last has the continuation bit. -/
def vqlGroups (u : ℕ) : Bytes :=
  if u < 128 then [UInt8.ofNat u] else UInt8.ofNat (u % 128 + 128) :: vqlGroups (u / 128)

theorem or_128 : ∀ group < 128, UInt8.ofNat group ||| 0b10000000 = UInt8.ofNat (group + 128) := by
  decide +kernel

/-! ### What is written -/

/-- The byte that one round of the second loop leaves in its place. -/
def groupByte (u : ℕ) : UInt8 :=
  if u < 128 then UInt8.ofNat u else UInt8.ofNat (u % 128 + 128)

theorem vqlGroups_eq (u : ℕ) :
    vqlGroups u = groupByte u :: (if u / 128 = 0 then [] else vqlGroups (u / 128)) := by
  rw [vqlGroups]
  unfold groupByte
  split_ifs <;> first | rfl | omega

theorem fillVQL_set (before after : Bytes) (old : UInt8) (value : ℤ) (h : value ≠ 0) :
    fillVQL (before ++ old :: after) before.length value =
      fillVQL (before ++ groupByte (value % 2 ^ 32).toNat :: after) (before.length + 1)
        (unsignedShiftRight value 7) := by
  have hgroup : toUint8 (bitAnd value 0b01111111) =
      UInt8.ofNat ((value % 2 ^ 32).toNat % 128) := by
    rw [bitAnd_127]
    unfold toUint8
    congr 1
    omega
  have hlow : (value % 2 ^ 32).toNat % 128 < 128 := Nat.mod_lt _ (by decide)
  rw [fillVQL, if_neg h]
  simp only [hgroup, List.set_append_right _ _ (Nat.le_refl _), Nat.sub_self, List.set_cons_zero,
    List.getElem?_append_right (Nat.le_refl _), List.getElem?_cons_zero, Option.getD_some,
    or_128 _ hlow]
  unfold groupByte unsignedShiftRight
  split_ifs with hmore hsmall hsmall
  · omega
  · rfl
  · rw [Nat.mod_eq_of_lt hsmall]
  · omega

theorem fillVQL_replicate (value : ℤ) (before : Bytes) :
    fillVQL (before ++ List.replicate (vqlLength value) 0) before.length value =
      before ++ (if value = 0 then [] else vqlGroups (value % 2 ^ 32).toNat) := by
  induction value using vqlLength.induct generalizing before with
  | case1 =>
    rw [vqlLength, fillVQL]
    simp
  | case2 value h ih =>
    have hshift : (unsignedShiftRight value 7 % 2 ^ 32).toNat = (value % 2 ^ 32).toNat / 128 := by
      unfold unsignedShiftRight
      omega
    have hzero : unsignedShiftRight value 7 = 0 ↔ (value % 2 ^ 32).toNat / 128 = 0 := by
      unfold unsignedShiftRight
      omega
    have hrest := ih (before ++ [groupByte (value % 2 ^ 32).toNat])
    rw [vqlLength, if_neg h, List.replicate_succ, fillVQL_set before _ _ value h, if_neg h,
      vqlGroups_eq]
    simp only [hshift, hzero, List.append_assoc, List.singleton_append, List.length_append,
      List.length_singleton] at hrest
    exact hrest

theorem writeInt32VQL_eq (value : ℤ) :
    writeInt32VQL value = vqlGroups (value % 2 ^ 32).toNat := by
  unfold writeInt32VQL
  split_ifs with h
  · subst h
    rw [vqlGroups]
    rfl
  · have hfill := fillVQL_replicate value []
    rwa [if_neg h] at hfill

/-! ### What is read -/

theorem bitAnd_byte (byte : UInt8) : bitAnd byte.toNat 0b01111111 = (byte.toNat % 128 : ℕ) := by
  rw [bitAnd_127]
  omega

theorem readIntVQLFrom_cons {reader : BufferReader} {byte : UInt8} {rest : Bytes}
    (h : reader.remaining = byte :: rest) (n : ℕ) (value : ℤ) :
    readIntVQLFrom reader n value =
      if byte.toNat < 128 then
        (bitOr value (shiftLeft (byte.toNat % 128 : ℕ) n), reader.skip 1)
      else
        readIntVQLFrom (reader.skip 1) (n + 7)
          (bitOr value (shiftLeft (byte.toNat % 128 : ℕ) n)) := by
  rw [readIntVQLFrom]
  split
  · next hread =>
    rw [BufferReader.read_one_cons h] at hread
    cases hread
  · next next _ reader' hread =>
    rw [BufferReader.read_one_cons h] at hread
    cases hread
    simp only [bitAnd_byte, bitAnd_128 _ byte.toNat_lt]

/-- A group that is read at its place. -/
theorem bitOr_shiftLeft (value : ℤ) (group n : ℕ) (hn : n < 32) :
    bitOr value (shiftLeft group n) =
      (toBits value ||| BitVec.ofNat 32 (group * 2 ^ n)).toInt := by
  unfold bitOr shiftLeft
  simp only [toBits, Nat.mod_eq_of_lt hn, BitVec.ofInt_toInt, BitVec.ofInt_natCast]
  congr 2
  apply BitVec.eq_of_toNat_eq
  rw [BitVec.toNat_shiftLeft, BitVec.toNat_ofNat, BitVec.toNat_ofNat, Nat.shiftLeft_eq]
  exact Nat.mod_mul_mod _ _ _

theorem groups_or (u n : ℕ) :
    BitVec.ofNat 32 (u % 128 * 2 ^ n) ||| BitVec.ofNat 32 (u / 128 * 2 ^ (n + 7)) =
      BitVec.ofNat 32 (u * 2 ^ n) := by
  have hlow : u % 128 * 2 ^ n < 2 ^ (n + 7) := by
    rw [pow_add, mul_comm (2 ^ n)]
    exact Nat.mul_lt_mul_of_pos_right (Nat.mod_lt _ (by decide)) (by positivity)
  have hsum : u * 2 ^ n = 2 ^ (n + 7) * (u / 128) + u % 128 * 2 ^ n := by
    conv_lhs => rw [← Nat.div_add_mod u 128]
    ring
  rw [hsum, Nat.two_pow_add_eq_or_of_lt hlow, BitVec.ofNat_or, BitVec.or_comm,
    mul_comm (u / 128)]

/-- The groups are read back above the bits that were read before them. -/
theorem readIntVQLFrom_vqlGroups (u n : ℕ) (value : ℤ) (reader : BufferReader) (rest : Bytes)
    (hn : n < 32) (hu : u * 2 ^ n < 2 ^ 32) (h : reader.remaining = vqlGroups u ++ rest) :
    readIntVQLFrom reader n value =
      ((toBits value ||| BitVec.ofNat 32 (u * 2 ^ n)).toInt,
        reader.skip (vqlGroups u).length) := by
  induction u using Nat.strong_induction_on generalizing n value reader with
  | _ u ih =>
    rw [vqlGroups] at h ⊢
    split_ifs at h ⊢ with hsmall
    · have hbyte : (UInt8.ofNat u).toNat = u := by
        rw [UInt8.toNat_ofNat']
        omega
      rw [readIntVQLFrom_cons h, hbyte, if_pos hsmall, Nat.mod_eq_of_lt hsmall,
        bitOr_shiftLeft _ _ _ hn]
      rfl
    · have hbyte : (UInt8.ofNat (u % 128 + 128)).toNat = u % 128 + 128 := by
        rw [UInt8.toNat_ofNat']
        omega
      have hgroup : (u % 128 + 128) % 128 = u % 128 := by omega
      have hnext : u / 128 * 2 ^ (n + 7) ≤ u * 2 ^ n := by
        have hdiv := Nat.div_mul_le_self u 128
        calc u / 128 * 2 ^ (n + 7) = u / 128 * 128 * 2 ^ n := by ring
          _ ≤ u * 2 ^ n := Nat.mul_le_mul_right _ hdiv
      have hn' : n + 7 < 32 := by
        by_contra hlarge
        have hpow : 2 ^ 32 ≤ 2 ^ (n + 7) := Nat.pow_le_pow_right (by decide) (by omega)
        have hone : 1 ≤ u / 128 := by omega
        have hmul := Nat.mul_le_mul_right (2 ^ (n + 7)) hone
        omega
      have hremaining := BufferReader.remaining_skip_one h
      rw [readIntVQLFrom_cons h, hbyte, if_neg (by omega), hgroup,
        ih (u / 128) (by omega) (n + 7) _ _ hn' (by omega) hremaining, bitOr_shiftLeft _ _ _ hn,
        toBits, BitVec.ofInt_toInt, BitVec.or_assoc, groups_or, BufferReader.skip_skip,
        List.length_cons, Nat.add_comm 1]

/-- A 32-bit signed integer is read back, whatever its sign. -/
theorem readIntVQL_writeInt32VQL {reader : BufferReader} {value : ℤ} {rest : Bytes}
    (hlow : -2 ^ 31 ≤ value) (hhigh : value < 2 ^ 31)
    (h : reader.remaining = writeInt32VQL value ++ rest) :
    readIntVQL reader = (value, reader.skip (writeInt32VQL value).length) := by
  rw [writeInt32VQL_eq] at h ⊢
  unfold readIntVQL
  rw [readIntVQLFrom_vqlGroups _ 0 0 reader rest (by decide) (by omega) h]
  have hbits : BitVec.ofNat 32 ((value % 2 ^ 32).toNat * 2 ^ 0) = BitVec.ofInt 32 value := by
    apply BitVec.eq_of_toNat_eq
    rw [BitVec.toNat_ofNat, BitVec.toNat_ofInt]
    omega
  rw [hbits, show toBits 0 = 0#32 from rfl, BitVec.zero_or, BitVec.toInt_ofInt]
  congr 1
  exact Int.bmod_eq_of_le_mul_two (by omega) (by omega)

end NexgileIde.Ipc
