import NexgileIde.Text.Buffer
import NexgileIde.Text.CodeUnits

/-!
# Decoding UTF-16LE

The platform's decoder follows the Encoding Standard: it drops a byte order mark at
the start and replaces every unpaired surrogate. The manual decoder keeps all code
units, and is used where the text starts with a byte order mark.
-/
namespace NexgileIde.Text

open Library

def isLead (u : CodeUnit) : Bool := 0xD800 ≤ u && u ≤ 0xDBFF

def isTrail (u : CodeUnit) : Bool := 0xDC00 ≤ u && u ≤ 0xDFFF

/-- U+FEFF, the byte order mark. -/
def byteOrderMark : CodeUnit := 0xFEFF

/-- U+FFFE, the byte order mark with its bytes swapped. -/
def swappedByteOrderMark : CodeUnit := 0xFFFE

/-- U+FFFD -/
def replacementCharacter : CodeUnit := 0xFFFD

/-- The shared UTF-16 decoder of the Encoding Standard, in code units: a pair of
surrogates stays, an unpaired one is an error. -/
def replaceUnpaired : Str → Str
  | [] => []
  | [u] => if isLead u || isTrail u then [replacementCharacter] else [u]
  | u :: v :: rest =>
    if isLead u then
      if isTrail v then u :: v :: replaceUnpaired rest
      else replacementCharacter :: replaceUnpaired (v :: rest)
    else if isTrail u then replacementCharacter :: replaceUnpaired (v :: rest)
    else u :: replaceUnpaired (v :: rest)

/-- The code units of a buffer in little endian order. -/
def codeUnitsLE (source : Bytes) (offset : ℕ) : ℕ → Option Str
  | 0 => some []
  | len + 1 => do
    let charCode ← readUInt16LE source offset
    let rest ← codeUnitsLE source (offset + 2) len
    return UInt16.ofNat charCode :: rest

/-- `new TextDecoder('UTF-16LE').decode(view)`: the decoder reads the bytes of the view. -/
def textDecoderDecode (source : Bytes) (offset len : ℕ) : Option Str := do
  let units ← codeUnitsLE source offset len
  let units := if units.head? = some byteOrderMark then units.tail else units
  return replaceUnpaired units

def compatDecodeUTF16LE (source : Bytes) (offset len : ℕ) : Option Str :=
  codeUnitsLE source offset len

/-- The first element of `new Uint16Array(source.buffer, offset, len)`, in the byte
order of the platform. A view at an odd offset or beyond the buffer throws. -/
def viewHead (littleEndian : Bool) (source : Bytes) (offset len : ℕ) :
    Option (Option CodeUnit) :=
  if offset % 2 = 0 ∧ offset + 2 * len ≤ source.length then
    if len = 0 then some none
    else do
      let b0 ← source[offset]?
      let b1 ← source[offset + 1]?
      return some (if littleEndian then UInt16.ofNat (b0.toNat + 256 * b1.toNat)
        else UInt16.ofNat (b1.toNat + 256 * b0.toNat))
  else none

def decodeUTF16LE (littleEndian : Bool) (source : Bytes) (offset len : ℕ) : Option Str := do
  let head ← viewHead littleEndian source offset len
  if head = some byteOrderMark ∨ head = some swappedByteOrderMark then
    compatDecodeUTF16LE source offset len
  else textDecoderDecode source offset len

/-! ## Well-formed text -/

/-- Every surrogate of the text is one of a pair. -/
inductive WellFormed : Str → Prop
  | nil : WellFormed []
  | unit {u : CodeUnit} {rest : Str} : isLead u = false → isTrail u = false → WellFormed rest →
      WellFormed (u :: rest)
  | pair {u v : CodeUnit} {rest : Str} : isLead u = true → isTrail v = true → WellFormed rest →
      WellFormed (u :: v :: rest)

theorem isLead_replacementCharacter : isLead replacementCharacter = false := by decide

theorem isTrail_replacementCharacter : isTrail replacementCharacter = false := by decide

theorem length_replaceUnpaired (t : Str) : (replaceUnpaired t).length = t.length := by
  induction t using replaceUnpaired.induct with
  | case1 => rfl
  | case2 u h =>
    rw [replaceUnpaired, if_pos h]
    rfl
  | case3 u h => rw [replaceUnpaired, if_neg h]
  | case4 u v rest hlead htrail ih => simp [replaceUnpaired, hlead, htrail, ih]
  | case5 u v rest hlead htrail ih => simp [replaceUnpaired, hlead, htrail, ih]
  | case6 u v rest hlead htrail ih => simp [replaceUnpaired, hlead, htrail, ih]
  | case7 u v rest hlead htrail ih => simp [replaceUnpaired, hlead, htrail, ih]

theorem wellFormed_replaceUnpaired (t : Str) : WellFormed (replaceUnpaired t) := by
  have hreplaced : ∀ {rest : Str}, WellFormed rest → WellFormed (replacementCharacter :: rest) :=
    WellFormed.unit isLead_replacementCharacter isTrail_replacementCharacter
  induction t using replaceUnpaired.induct with
  | case1 => exact .nil
  | case2 u h =>
    rw [replaceUnpaired, if_pos h]
    exact hreplaced .nil
  | case3 u h =>
    rw [replaceUnpaired, if_neg h]
    simp only [Bool.or_eq_true, not_or, Bool.not_eq_true] at h
    exact .unit h.1 h.2 .nil
  | case4 u v rest hlead htrail ih =>
    rw [replaceUnpaired, if_pos hlead, if_pos htrail]
    exact .pair hlead htrail ih
  | case5 u v rest hlead htrail ih =>
    rw [replaceUnpaired, if_pos hlead, if_neg htrail]
    exact hreplaced ih
  | case6 u v rest hlead htrail ih =>
    rw [replaceUnpaired, if_neg hlead, if_pos htrail]
    exact hreplaced ih
  | case7 u v rest hlead htrail ih =>
    rw [replaceUnpaired, if_neg hlead, if_neg htrail]
    exact .unit (by simpa using hlead) (by simpa using htrail) ih

theorem WellFormed.replaceUnpaired {t : Str} (h : WellFormed t) : replaceUnpaired t = t := by
  induction h with
  | nil => rfl
  | @unit u rest hlead htrail hrest ih =>
    cases rest with
    | nil => simp [Text.replaceUnpaired, hlead, htrail]
    | cons v rest => simp [Text.replaceUnpaired, hlead, htrail, ih]
  | @pair u v rest hlead htrail hrest ih => simp [Text.replaceUnpaired, hlead, htrail, ih]

/-- The decoder keeps exactly the well-formed texts. -/
theorem replaceUnpaired_eq_self_iff {t : Str} : replaceUnpaired t = t ↔ WellFormed t := by
  constructor
  · intro h
    rw [← h]
    exact wellFormed_replaceUnpaired t
  · exact WellFormed.replaceUnpaired

/-! ## What is decoded -/

/-- The text starts with a byte order mark, in one of the two byte orders. -/
def StartsWithMark (t : Str) : Prop :=
  t.head? = some byteOrderMark ∨ t.head? = some swappedByteOrderMark

instance (t : Str) : Decidable (StartsWithMark t) := inferInstanceAs (Decidable (_ ∨ _))

/-- What becomes of a text that is written and read back. -/
def decoded (t : Str) : Str := if StartsWithMark t then t else replaceUnpaired t

theorem length_decoded (t : Str) : (decoded t).length = t.length := by
  unfold decoded
  split_ifs
  · rfl
  · exact length_replaceUnpaired t

/-- The texts that are read back as they were written. -/
theorem decoded_eq_self_iff {t : Str} : decoded t = t ↔ StartsWithMark t ∨ WellFormed t := by
  unfold decoded
  split_ifs with hmark
  · simp [hmark]
  · rw [replaceUnpaired_eq_self_iff]
    simp [hmark]

def bytesOfText (t : Str) : Bytes := t.flatMap bytesUInt16LE

@[simp] theorem length_bytesOfText (t : Str) : (bytesOfText t).length = 2 * t.length := by
  induction t with
  | nil => rfl
  | cons u t ih =>
    rw [bytesOfText, List.flatMap_cons, List.length_append, ← bytesOfText, ih,
      length_bytesUInt16LE, List.length_cons]
    omega

section Decoding

variable {b rest : Bytes} {offset : ℕ} {t : Str}

theorem codeUnitsLE_of_drop (h : b.drop offset = bytesOfText t ++ rest) :
    codeUnitsLE b offset t.length = some t := by
  induction t generalizing offset with
  | nil => rfl
  | cons u t ih =>
    rw [bytesOfText, List.flatMap_cons, List.append_assoc, ← bytesOfText] at h
    have hrest := drop_add_length h
    rw [length_bytesUInt16LE] at hrest
    simp only [List.length_cons, codeUnitsLE, readUInt16LE_of_drop h, ih hrest,
      Option.bind_eq_bind, Option.bind_some]
    rw [UInt16.ofNat_toNat]
    rfl

/-- The code unit as the view shows it. -/
def viewUnit (littleEndian : Bool) (u : CodeUnit) : CodeUnit :=
  if littleEndian then u else UInt16.ofNat (u.toNat / 256 + 256 * (u.toNat % 256))

/-- Both byte orders of the mark are looked for, so the platform's does not matter. -/
theorem viewUnit_isMark (littleEndian : Bool) (u : CodeUnit) :
    viewUnit littleEndian u = byteOrderMark ∨ viewUnit littleEndian u = swappedByteOrderMark ↔
      u = byteOrderMark ∨ u = swappedByteOrderMark := by
  cases littleEndian with
  | true => rfl
  | false =>
    have hlt := u.toNat_lt
    have hmark : byteOrderMark.toNat = 65279 := by decide
    have hswapped : swappedByteOrderMark.toNat = 65534 := by decide
    have hsplit := Nat.div_add_mod u.toNat 256
    have hlow : u.toNat % 256 < 256 := Nat.mod_lt _ (by decide)
    have hhigh : u.toNat / 256 < 256 := by omega
    simp only [viewUnit, Bool.false_eq_true, if_false, ← UInt16.toNat_inj, hmark, hswapped,
      UInt16.toNat_ofNat']
    generalize u.toNat / 256 = high at *
    generalize u.toNat % 256 = low at *
    rw [Nat.mod_eq_of_lt (by omega), ← hsplit]
    omega

theorem viewHead_of_drop (littleEndian : Bool) (heven : offset % 2 = 0)
    (hle : offset ≤ b.length) (h : b.drop offset = bytesOfText t ++ rest) :
    viewHead littleEndian b offset t.length = some (t.head?.map (viewUnit littleEndian)) := by
  have hlength := congrArg List.length h
  rw [List.length_drop, List.length_append, length_bytesOfText] at hlength
  unfold viewHead
  rw [if_pos ⟨heven, by omega⟩]
  cases t with
  | nil => rfl
  | cons u t =>
    rw [bytesOfText, List.flatMap_cons, List.append_assoc] at h
    have hbyte : ∀ i < 2, b[offset + i]? = (bytesUInt16LE u)[i]? :=
      fun i hi => getElem?_of_drop h hi
    have h0 := hbyte 0 (by decide)
    have h1 := hbyte 1 (by decide)
    simp only [bytesUInt16LE, Nat.add_zero, List.getElem?_cons_zero, List.getElem?_cons_succ]
      at h0 h1
    have hlow : u.toUInt8.toNat = u.toNat % 256 := by simp
    have hhigh : (u >>> 8).toUInt8.toNat = u.toNat / 256 := by
      have hlt := u.toNat_lt
      rw [UInt16.toNat_toUInt8, UInt16.toNat_shiftRight, show (8 : UInt16).toNat % 16 = 8 from rfl,
        Nat.shiftRight_eq_div_pow]
      omega
    rw [if_neg (by simp)]
    simp only [h0, h1, Option.bind_eq_bind, Option.bind_some, List.head?_cons, Option.map_some,
      hlow, hhigh, viewUnit]
    refine congrArg (some ∘ some) ?_
    cases littleEndian with
    | true =>
      simp only [if_true]
      apply UInt16.toNat_inj.mp
      have hlt := u.toNat_lt
      rw [UInt16.toNat_ofNat']
      omega
    | false => rfl

theorem decodeUTF16LE_of_drop (littleEndian : Bool) (heven : offset % 2 = 0)
    (hle : offset ≤ b.length) (h : b.drop offset = bytesOfText t ++ rest) :
    decodeUTF16LE littleEndian b offset t.length = some (decoded t) := by
  have hunits := codeUnitsLE_of_drop h
  have hmark : t.head?.map (viewUnit littleEndian) = some byteOrderMark ∨
      t.head?.map (viewUnit littleEndian) = some swappedByteOrderMark ↔ StartsWithMark t := by
    unfold StartsWithMark
    cases t with
    | nil => simp
    | cons u t => simpa using viewUnit_isMark littleEndian u
  simp only [decodeUTF16LE, viewHead_of_drop littleEndian heven hle h, Option.bind_eq_bind,
    Option.bind_some, hmark, decoded]
  split_ifs with hstarts
  · exact hunits
  · have hhead : t.head? ≠ some byteOrderMark := fun hhead => hstarts (.inl hhead)
    simp only [textDecoderDecode, hunits, Option.bind_eq_bind, Option.bind_some, if_neg hhead]
    rfl

end Decoding

end NexgileIde.Text
