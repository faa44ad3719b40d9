import NexgileIde.Edits.TextChange
import NexgileIde.Text.Utf16

/-!
# Serialised undo elements

An undo element is written to a buffer whose size is computed beforehand. The reader
finds its way with the sizes of the strings that it has decoded.
-/
namespace NexgileIde.Edits

open Text Library

inductive EndOfLineSequence
  | LF
  | CRLF
  deriving DecidableEq, Repr

namespace EndOfLineSequence

/-- The value of the enumeration. -/
def toNat : EndOfLineSequence → ℕ
  | LF => 0
  | CRLF => 1

def ofNat? : ℕ → Option EndOfLineSequence
  | 0 => some LF
  | 1 => some CRLF
  | _ => none

end EndOfLineSequence

structure Selection where
  selectionStartLineNumber : ℕ
  selectionStartColumn : ℕ
  positionLineNumber : ℕ
  positionColumn : ℕ
  deriving DecidableEq, Repr

namespace TextChange

def writeStringSize (str : Str) : ℕ := 4 + 2 * str.length

def writeString (str : Str) : Writer UInt8 :=
  (uint32BE str.length).andThen (Writer.forEach uint16LE str)

def readString (littleEndian : Bool) (b : Bytes) (offset : ℕ) : Option Str := do
  let len ← readUInt32BE b offset
  decodeUTF16LE littleEndian b (offset + 4) len

def writeSize (c : TextChange) : ℕ :=
  4 + 4 + writeStringSize c.oldText + writeStringSize c.newText

def write (c : TextChange) : Writer UInt8 :=
  (uint32BE c.oldPosition).andThen <| (uint32BE c.newPosition).andThen <|
    (writeString c.oldText).andThen (writeString c.newText)

def read (littleEndian : Bool) (b : Bytes) (offset : ℕ) : Option (TextChange × ℕ) := do
  let oldPosition ← readUInt32BE b offset
  let offset := offset + 4
  let newPosition ← readUInt32BE b offset
  let offset := offset + 4
  let oldText ← readString littleEndian b offset
  let offset := offset + writeStringSize oldText
  let newText ← readString littleEndian b offset
  let offset := offset + writeStringSize newText
  return (⟨oldPosition, oldText, newPosition, newText⟩, offset)

end TextChange

structure SingleModelEditStackData where
  beforeVersionId : ℕ
  afterVersionId : ℕ
  beforeEOL : EndOfLineSequence
  afterEOL : EndOfLineSequence
  beforeCursorState : Option (List Selection)
  afterCursorState : Option (List Selection)
  changes : List TextChange
  deriving DecidableEq, Repr

namespace SingleModelEditStackData

def writeSelectionsSize (selections : Option (List Selection)) : ℕ :=
  4 + 4 * 4 * (selections.map List.length).getD 0

def writeSelection (s : Selection) : Writer UInt8 :=
  (uint32BE s.selectionStartLineNumber).andThen <| (uint32BE s.selectionStartColumn).andThen <|
    (uint32BE s.positionLineNumber).andThen (uint32BE s.positionColumn)

def writeSelections (selections : Option (List Selection)) : Writer UInt8 :=
  (uint32BE ((selections.map List.length).getD 0)).andThen
    (Writer.forEach writeSelection (selections.getD []))

def readSelection (b : Bytes) (offset : ℕ) : Option (Selection × ℕ) := do
  let selectionStartLineNumber ← readUInt32BE b offset
  let offset := offset + 4
  let selectionStartColumn ← readUInt32BE b offset
  let offset := offset + 4
  let positionLineNumber ← readUInt32BE b offset
  let offset := offset + 4
  let positionColumn ← readUInt32BE b offset
  let offset := offset + 4
  return (⟨selectionStartLineNumber, selectionStartColumn, positionLineNumber, positionColumn⟩,
    offset)

def readSelections (b : Bytes) (offset : ℕ) : Option (List Selection × ℕ) := do
  let count ← readUInt32BE b offset
  readMany readSelection b (offset + 4) count

def necessarySize (d : SingleModelEditStackData) : ℕ :=
  d.changes.foldl (fun size change => size + change.writeSize)
    (4 + 4 + 1 + 1 + writeSelectionsSize d.beforeCursorState +
      writeSelectionsSize d.afterCursorState + 4)

/-- All writes of `serialize`, which return the offset behind the last one. -/
def writeAll (d : SingleModelEditStackData) : Writer UInt8 :=
  (uint32BE d.beforeVersionId).andThen <| (uint32BE d.afterVersionId).andThen <|
    (uint8 d.beforeEOL.toNat).andThen <| (uint8 d.afterEOL.toNat).andThen <|
      (writeSelections d.beforeCursorState).andThen <|
        (writeSelections d.afterCursorState).andThen <|
          (uint32BE d.changes.length).andThen (Writer.forEach TextChange.write d.changes)

def serialize (d : SingleModelEditStackData) : Bytes :=
  (d.writeAll (List.replicate d.necessarySize 0) 0).1

def deserialize (littleEndian : Bool) (b : Bytes) : Option SingleModelEditStackData := do
  let offset := 0
  let beforeVersionId ← readUInt32BE b offset
  let offset := offset + 4
  let afterVersionId ← readUInt32BE b offset
  let offset := offset + 4
  let beforeEOL ← (readUInt8 b offset).bind EndOfLineSequence.ofNat?
  let offset := offset + 1
  let afterEOL ← (readUInt8 b offset).bind EndOfLineSequence.ofNat?
  let offset := offset + 1
  let (beforeCursorState, offset) ← readSelections b offset
  let (afterCursorState, offset) ← readSelections b offset
  let changeCount ← readUInt32BE b offset
  let offset := offset + 4
  let (changes, _) ← readMany (TextChange.read littleEndian) b offset changeCount
  return ⟨beforeVersionId, afterVersionId, beforeEOL, afterEOL, some beforeCursorState,
    some afterCursorState, changes⟩

end SingleModelEditStackData

end NexgileIde.Edits

/-!
## Undo elements are read back as they were written

All numbers, selections and positions survive, and the buffer is filled to its last
byte. A text survives when it is well formed or starts with a byte order mark.
-/
namespace NexgileIde.Edits

open Text Library

/-! ## What is written -/

def TextChange.bytesOfString (str : Str) : Bytes := bytesUInt32BE str.length ++ bytesOfText str

def TextChange.bytes (c : TextChange) : Bytes :=
  bytesUInt32BE c.oldPosition ++ (bytesUInt32BE c.newPosition ++
    (bytesOfString c.oldText ++ bytesOfString c.newText))

theorem TextChange.writes_writeString (str : Str) :
    Writes (writeString str) (bytesOfString str) :=
  (writes_uint32BE _).andThen (Writes.forEach fun u _ => writes_uint16LE u)

theorem TextChange.writes_write (c : TextChange) : Writes c.write c.bytes :=
  (writes_uint32BE _).andThen <| (writes_uint32BE _).andThen <|
    (writes_writeString c.oldText).andThen (writes_writeString c.newText)

theorem TextChange.length_bytesOfString (str : Str) :
    (bytesOfString str).length = writeStringSize str := by
  simp [bytesOfString, writeStringSize]

theorem TextChange.length_bytes (c : TextChange) : c.bytes.length = c.writeSize := by
  simp only [bytes, List.length_append, length_bytesUInt32BE, length_bytesOfString, writeSize]
  omega

namespace SingleModelEditStackData

def bytesOfSelection (s : Selection) : Bytes :=
  bytesUInt32BE s.selectionStartLineNumber ++ (bytesUInt32BE s.selectionStartColumn ++
    (bytesUInt32BE s.positionLineNumber ++ bytesUInt32BE s.positionColumn))

@[simp] theorem length_bytesOfSelection (s : Selection) : (bytesOfSelection s).length = 16 := rfl

def bytesOfSelections (selections : List Selection) : Bytes :=
  bytesUInt32BE selections.length ++ selections.flatMap bytesOfSelection

theorem writes_writeSelection (s : Selection) : Writes (writeSelection s) (bytesOfSelection s) :=
  (writes_uint32BE _).andThen <| (writes_uint32BE _).andThen <|
    (writes_uint32BE _).andThen (writes_uint32BE _)

theorem writes_writeSelections (selections : Option (List Selection)) :
    Writes (writeSelections selections) (bytesOfSelections (selections.getD [])) := by
  have hcount : (selections.map List.length).getD 0 = (selections.getD []).length := by
    cases selections <;> rfl
  unfold writeSelections bytesOfSelections
  rw [hcount]
  exact (writes_uint32BE _).andThen (Writes.forEach fun s _ => writes_writeSelection s)

theorem length_bytesOfSelections (selections : Option (List Selection)) :
    (bytesOfSelections (selections.getD [])).length = writeSelectionsSize selections := by
  have hsum : ∀ l : List Selection, (l.flatMap bytesOfSelection).length = 16 * l.length := by
    intro l
    simp [List.length_flatMap, Nat.mul_comm]
  unfold bytesOfSelections writeSelectionsSize
  rw [List.length_append, length_bytesUInt32BE, hsum]
  cases selections <;> rfl

variable (d : SingleModelEditStackData)

/-- The content of the buffer. -/
def bytes : Bytes :=
  bytesUInt32BE d.beforeVersionId ++ (bytesUInt32BE d.afterVersionId ++
    ([toUint8 d.beforeEOL.toNat] ++ ([toUint8 d.afterEOL.toNat] ++
      (bytesOfSelections (d.beforeCursorState.getD []) ++
        (bytesOfSelections (d.afterCursorState.getD []) ++
          (bytesUInt32BE d.changes.length ++ d.changes.flatMap TextChange.bytes))))))

theorem writes_writeAll : Writes d.writeAll d.bytes :=
  (writes_uint32BE _).andThen <| (writes_uint32BE _).andThen <| (writes_uint8 _).andThen <|
    (writes_uint8 _).andThen <| (writes_writeSelections _).andThen <|
      (writes_writeSelections _).andThen <|
        (writes_uint32BE _).andThen (Writes.forEach fun c _ => c.writes_write)

theorem length_bytes : d.bytes.length = d.necessarySize := by
  have hsum : ∀ (changes : List TextChange) (size : ℕ),
      changes.foldl (fun size change => size + change.writeSize) size =
        size + (changes.flatMap TextChange.bytes).length := by
    intro changes
    induction changes with
    | nil => intro size; rfl
    | cons c changes ih =>
      intro size
      rw [List.foldl_cons, ih, List.flatMap_cons, List.length_append, c.length_bytes]
      omega
  unfold bytes necessarySize
  rw [hsum]
  simp only [List.length_append, length_bytesUInt32BE, length_bytesOfSelections,
    List.length_singleton]
  omega

/-- The writes fill every buffer of the computed size, and no more. -/
def WritesExactly : Prop :=
  ∀ b : Bytes, b.length = d.necessarySize → d.writeAll b 0 = (d.serialize, d.necessarySize)

theorem writeAll_eq {b : Bytes} (hlength : b.length = d.necessarySize) :
    d.writeAll b 0 = (d.bytes, d.necessarySize) := by
  rw [← d.length_bytes] at hlength ⊢
  exact d.writes_writeAll.full hlength

theorem serialize_eq : d.serialize = d.bytes := by
  unfold serialize
  rw [d.writeAll_eq List.length_replicate]

theorem writesExactly : d.WritesExactly := by
  intro b hlength
  rw [d.writeAll_eq hlength, d.serialize_eq]

end SingleModelEditStackData

/-! ## What is read -/

theorem EndOfLineSequence.ofNat?_toNat (e : EndOfLineSequence) : ofNat? e.toNat = some e := by
  cases e <;> rfl

/-- The offset is even and within the buffer, as the view of 16-bit units needs it. -/
def Aligned (b : Bytes) (offset : ℕ) : Prop := offset % 2 = 0 ∧ offset ≤ b.length

theorem Aligned.add {b x rest : Bytes} {offset : ℕ} (haligned : Aligned b offset)
    (heven : x.length % 2 = 0) (h : b.drop offset = x ++ rest) :
    Aligned b (offset + x.length) := by
  obtain ⟨hoffset, hle⟩ := haligned
  have hlength := congrArg List.length h
  rw [List.length_drop, List.length_append] at hlength
  unfold Aligned
  omega

/-- The number is one that 32 bits hold. -/
def FitsUInt32 (value : ℤ) : Prop := 0 ≤ value ∧ value < 2 ^ 32

instance (value : ℤ) : Decidable (FitsUInt32 value) := inferInstanceAs (Decidable (_ ∧ _))

theorem FitsUInt32.read {value : ℤ} (hfits : FitsUInt32 value) {b rest : Bytes} {offset : ℕ}
    (h : b.drop offset = bytesUInt32BE value ++ rest) :
    readUInt32BE b offset = some value.toNat :=
  readUInt32BE_of_drop hfits.1 hfits.2 h

/-- Positions and lengths of the change fit in 32 bits. -/
structure TextChange.Fits (c : TextChange) : Prop where
  oldPosition : FitsUInt32 c.oldPosition
  newPosition : FitsUInt32 c.newPosition
  oldText : FitsUInt32 c.oldText.length
  newText : FitsUInt32 c.newText.length

/-- The change as it is read back. -/
def TextChange.decoded (c : TextChange) : TextChange :=
  { c with oldText := Text.decoded c.oldText, newText := Text.decoded c.newText }

section TextChangeRead

variable {b rest : Bytes} {offset : ℕ}

theorem TextChange.readString_of_drop (littleEndian : Bool) {str : Str}
    (hfits : FitsUInt32 str.length) (haligned : Aligned b offset)
    (h : b.drop offset = bytesOfString str ++ rest) :
    readString littleEndian b offset = some (Text.decoded str) := by
  unfold bytesOfString at h
  rw [List.append_assoc] at h
  have hlen := hfits.read h
  have htext := drop_add_length h
  have haligned' : Aligned b (offset + 4) := haligned.add (by simp) h
  rw [length_bytesUInt32BE] at htext
  unfold readString
  rw [hlen]
  exact decodeUTF16LE_of_drop littleEndian haligned'.1 haligned'.2 htext

theorem TextChange.read_of_drop (littleEndian : Bool) {c : TextChange} (hfits : c.Fits)
    (haligned : Aligned b offset) (h : b.drop offset = c.bytes ++ rest) :
    read littleEndian b offset = some (c.decoded, offset + c.bytes.length) ∧
      Aligned b (offset + c.bytes.length) := by
  have heven : c.bytes.length % 2 = 0 := by
    rw [c.length_bytes]
    unfold writeSize writeStringSize
    omega
  have hend := haligned.add heven h
  have hevenText : ∀ str : Str, (bytesOfString str).length % 2 = 0 := by
    intro str
    rw [length_bytesOfString]
    unfold writeStringSize
    omega
  simp only [bytes, List.append_assoc] at h
  have h1 := drop_add_length h
  have h2 := drop_add_length h1
  have h3 := drop_add_length h2
  have haligned1 := haligned.add (by simp) h
  have haligned2 := haligned1.add (by simp) h1
  have haligned3 := haligned2.add (hevenText _) h2
  have hold := readString_of_drop littleEndian hfits.oldText haligned2 h2
  have hnew := readString_of_drop littleEndian hfits.newText haligned3 h3
  have hsize : ∀ str, writeStringSize (Text.decoded str) = writeStringSize str := by
    intro str
    unfold writeStringSize
    rw [length_decoded]
  have hposition := hfits.oldPosition.read h
  have hposition' := hfits.newPosition.read h1
  rw [length_bytesOfString] at hnew
  simp only [length_bytesUInt32BE] at hposition' hold hnew
  refine ⟨?_, hend⟩
  unfold read
  simp only [hposition, hposition', hold, hnew, hsize, Option.bind_eq_bind, Option.bind_some,
    Int.toNat_of_nonneg hfits.oldPosition.1, Int.toNat_of_nonneg hfits.newPosition.1,
    c.length_bytes]
  have hoffset : offset + 4 + 4 + writeStringSize c.oldText + writeStringSize c.newText =
      offset + c.writeSize := by
    unfold writeSize
    omega
  rw [hoffset]
  rfl

end TextChangeRead

namespace SingleModelEditStackData

/-- The numbers of the selection fit in 32 bits. -/
structure SelectionFits (s : Selection) : Prop where
  selectionStartLineNumber : FitsUInt32 s.selectionStartLineNumber
  selectionStartColumn : FitsUInt32 s.selectionStartColumn
  positionLineNumber : FitsUInt32 s.positionLineNumber
  positionColumn : FitsUInt32 s.positionColumn

structure SelectionsFit (selections : Option (List Selection)) : Prop where
  count : FitsUInt32 (selections.getD []).length
  selection : ∀ s ∈ selections.getD [], SelectionFits s

section SelectionsRead

variable {b rest : Bytes} {offset : ℕ}

theorem readSelection_of_drop {s : Selection} (hfits : SelectionFits s)
    (haligned : Aligned b offset) (h : b.drop offset = bytesOfSelection s ++ rest) :
    readSelection b offset = some (s, offset + (bytesOfSelection s).length) ∧
      Aligned b (offset + (bytesOfSelection s).length) := by
  have hend := haligned.add (by simp) h
  simp only [bytesOfSelection, List.append_assoc] at h
  have h1 := drop_add_length h
  have h2 := drop_add_length h1
  have h3 := drop_add_length h2
  have hread := hfits.selectionStartLineNumber.read h
  have hread1 := hfits.selectionStartColumn.read h1
  have hread2 := hfits.positionLineNumber.read h2
  have hread3 := hfits.positionColumn.read h3
  simp only [length_bytesUInt32BE, Int.toNat_natCast] at hread hread1 hread2 hread3
  refine ⟨?_, hend⟩
  unfold readSelection
  simp only [hread, hread1, hread2, hread3, Option.bind_eq_bind, Option.bind_some,
    length_bytesOfSelection]
  rfl

theorem readSelections_of_drop {selections : Option (List Selection)}
    (hfits : SelectionsFit selections) (haligned : Aligned b offset)
    (h : b.drop offset = bytesOfSelections (selections.getD []) ++ rest) :
    readSelections b offset = some (selections.getD [],
        offset + (bytesOfSelections (selections.getD [])).length) ∧
      Aligned b (offset + (bytesOfSelections (selections.getD [])).length) := by
  unfold bytesOfSelections at h ⊢
  rw [List.append_assoc] at h
  have hcount := hfits.count.read h
  have haligned' := haligned.add (by simp) h
  have hone : ∀ s ∈ selections.getD [], ∀ offset rest, Aligned b offset →
      b.drop offset = bytesOfSelection s ++ rest →
      readSelection b offset = some (id s, offset + (bytesOfSelection s).length) ∧
        Aligned b (offset + (bytesOfSelection s).length) :=
    fun s hs _ _ hok hdrop => readSelection_of_drop (hfits.selection s hs) hok hdrop
  obtain ⟨hread, hend⟩ := readMany_flatMap hone haligned' (drop_add_length h)
  rw [List.map_id, Nat.add_assoc, ← List.length_append] at hread
  rw [Nat.add_assoc, ← List.length_append] at hend
  refine ⟨?_, hend⟩
  unfold readSelections
  rw [hcount]
  exact hread

end SelectionsRead

theorem readUInt8_eol {b rest : Bytes} {offset : ℕ} {eol : EndOfLineSequence}
    (h : b.drop offset = [toUint8 eol.toNat] ++ rest) :
    (readUInt8 b offset).bind EndOfLineSequence.ofNat? = some eol := by
  have hfits : (eol.toNat : ℤ) < 2 ^ 8 := by cases eol <;> decide
  rw [readUInt8_of_drop (Int.natCast_nonneg _) hfits h, Option.bind_some, Int.toNat_natCast]
  exact eol.ofNat?_toNat

/-- Version ids, positions and lengths fit in 32 bits. -/
structure Fits (d : SingleModelEditStackData) : Prop where
  beforeVersionId : FitsUInt32 d.beforeVersionId
  afterVersionId : FitsUInt32 d.afterVersionId
  beforeCursorState : SelectionsFit d.beforeCursorState
  afterCursorState : SelectionsFit d.afterCursorState
  count : FitsUInt32 d.changes.length
  change : ∀ c ∈ d.changes, c.Fits

/-- The element with an empty list in place of no selections. -/
def withoutNull (d : SingleModelEditStackData) : SingleModelEditStackData :=
  { d with
    beforeCursorState := some (d.beforeCursorState.getD [])
    afterCursorState := some (d.afterCursorState.getD []) }

/-- The element as it is read back. -/
def decoded (d : SingleModelEditStackData) : SingleModelEditStackData :=
  { d.withoutNull with changes := d.changes.map TextChange.decoded }

theorem deserialize_of_drop (littleEndian : Bool) {d : SingleModelEditStackData} (hfits : d.Fits)
    {b rest : Bytes} (h : b.drop 0 = d.bytes ++ rest) :
    deserialize littleEndian b = some d.decoded := by
  have haligned : Aligned b (0 + 4 + 4 + 1 + 1) := by
    have hlength := congrArg List.length h
    simp only [bytes, List.drop_zero, List.length_append, length_bytesUInt32BE,
      List.length_singleton] at hlength
    unfold Aligned
    omega
  simp only [bytes, List.append_assoc] at h
  have h1 := drop_add_length h
  have h2 := drop_add_length h1
  have h3 := drop_add_length h2
  have h4 := drop_add_length h3
  simp only [length_bytesUInt32BE, List.length_singleton] at h1 h2 h3 h4
  have hversion := hfits.beforeVersionId.read h
  have hversion' := hfits.afterVersionId.read h1
  have heol := readUInt8_eol h2
  have heol' := readUInt8_eol h3
  obtain ⟨hbefore, haligned1⟩ := readSelections_of_drop hfits.beforeCursorState haligned h4
  have h5 := drop_add_length h4
  obtain ⟨hafter, haligned2⟩ := readSelections_of_drop hfits.afterCursorState haligned1 h5
  have h6 := drop_add_length h5
  have hcount := hfits.count.read h6
  have haligned3 := haligned2.add (by simp) h6
  have h7 := drop_add_length h6
  have hone : ∀ c ∈ d.changes, ∀ offset rest, Aligned b offset →
      b.drop offset = c.bytes ++ rest →
      TextChange.read littleEndian b offset = some (c.decoded, offset + c.bytes.length) ∧
        Aligned b (offset + c.bytes.length) :=
    fun c hc _ _ hok hdrop => TextChange.read_of_drop littleEndian (hfits.change c hc) hok hdrop
  obtain ⟨hchanges, -⟩ := readMany_flatMap hone haligned3 h7
  simp only [Int.toNat_natCast] at hversion hversion' hcount
  simp only [length_bytesUInt32BE] at hchanges
  unfold deserialize
  simp only [hversion, hversion', heol, heol', hbefore, hafter, hcount, hchanges,
    Option.bind_eq_bind, Option.bind_some]
  rfl

theorem deserialize_serialize (littleEndian : Bool) {d : SingleModelEditStackData}
    (hfits : d.Fits) : deserialize littleEndian d.serialize = some d.decoded := by
  have h : d.serialize.drop 0 = d.bytes ++ [] := by
    rw [d.serialize_eq, List.drop_zero, List.append_nil]
  exact deserialize_of_drop littleEndian hfits h

theorem withoutNull_eq_decoded_iff {d : SingleModelEditStackData} :
    d.decoded = d.withoutNull ↔ ∀ c ∈ d.changes,
      Text.decoded c.oldText = c.oldText ∧ Text.decoded c.newText = c.newText := by
  have hchanges : d.decoded = d.withoutNull ↔ d.changes.map TextChange.decoded = d.changes := by
    constructor
    · intro h
      exact congrArg changes h
    · intro h
      unfold decoded
      rw [h]
      rfl
  have hchange : ∀ c : TextChange, c.decoded = c ↔
      Text.decoded c.oldText = c.oldText ∧ Text.decoded c.newText = c.newText := by
    intro c
    constructor
    · intro h
      exact ⟨congrArg TextChange.oldText h, congrArg TextChange.newText h⟩
    · rintro ⟨hold, hnew⟩
      unfold TextChange.decoded
      rw [hold, hnew]
  rw [hchanges]
  calc d.changes.map TextChange.decoded = d.changes
      ↔ d.changes.map TextChange.decoded = d.changes.map id := by rw [List.map_id]
    _ ↔ ∀ c ∈ d.changes, c.decoded = c := List.map_inj_left
    _ ↔ _ := forall₂_congr fun c _ => hchange c

/-- The text is read back as it was written. -/
def Survives (t : Str) : Prop := StartsWithMark t ∨ WellFormed t

/-- The round trip keeps an undo element exactly if it keeps all of its texts. -/
theorem serialize_roundTrip_iff (littleEndian : Bool) {d : SingleModelEditStackData}
    (hfits : d.Fits) :
    d.WritesExactly ∧ deserialize littleEndian d.serialize = some d.withoutNull ↔
      ∀ c ∈ d.changes, Survives c.oldText ∧ Survives c.newText := by
  have htexts : (∀ c ∈ d.changes,
      Text.decoded c.oldText = c.oldText ∧ Text.decoded c.newText = c.newText) ↔
      ∀ c ∈ d.changes, Survives c.oldText ∧ Survives c.newText :=
    forall₂_congr fun c _ => and_congr decoded_eq_self_iff decoded_eq_self_iff
  rw [deserialize_serialize littleEndian hfits, Option.some_inj, withoutNull_eq_decoded_iff,
    htexts]
  exact and_iff_right d.writesExactly

/-- The insertion of a text at the start of an empty model. -/
def insertion (newText : Str) : SingleModelEditStackData where
  beforeVersionId := 1
  afterVersionId := 2
  beforeEOL := .LF
  afterEOL := .LF
  beforeCursorState := some [⟨1, 1, 1, 1⟩]
  afterCursorState := none
  changes := [⟨0, [], 0, newText⟩]

theorem fits_insertion {newText : Str} (h : FitsUInt32 newText.length) :
    (insertion newText).Fits where
  beforeVersionId := by norm_num [insertion, FitsUInt32]
  afterVersionId := by norm_num [insertion, FitsUInt32]
  beforeCursorState := by
    constructor
    · norm_num [insertion, FitsUInt32]
    · intro s hs
      obtain rfl : s = ⟨1, 1, 1, 1⟩ := by simpa [insertion] using hs
      constructor <;> decide
  afterCursorState := by
    constructor
    · norm_num [insertion, FitsUInt32]
    · intro s hs
      simp [insertion] at hs
  count := by norm_num [insertion, FitsUInt32]
  change := by
    intro c hc
    obtain rfl : c = ⟨0, [], 0, newText⟩ := by simpa [insertion] using hc
    constructor
    · norm_num [FitsUInt32]
    · norm_num [FitsUInt32]
    · norm_num [FitsUInt32]
    · exact h

/-- A pair of surrogates survives. -/
theorem serialize_roundTrip_surrogatePair :
    (insertion [0xD83D, 0xDE00]).WritesExactly ∧
      deserialize true (insertion [0xD83D, 0xDE00]).serialize =
        some (insertion [0xD83D, 0xDE00]).withoutNull := by
  refine (serialize_roundTrip_iff true (fits_insertion (by decide))).mpr fun c hc => ?_
  obtain rfl : c = ⟨0, [], 0, [0xD83D, 0xDE00]⟩ := by simpa [insertion] using hc
  exact ⟨.inr .nil, .inr (.pair rfl rfl .nil)⟩

/-- A lone surrogate comes back as the replacement character. -/
theorem serialize_roundTrip_loneSurrogate :
    deserialize true (insertion [0xD800]).serialize =
        some (insertion [replacementCharacter]).withoutNull ∧
      ¬ ∀ d : SingleModelEditStackData, d.Fits →
        d.WritesExactly ∧ deserialize true d.serialize = some d.withoutNull := by
  have hread : deserialize true (insertion [0xD800]).serialize =
      some (insertion [replacementCharacter]).withoutNull := by decide
  refine ⟨hread, fun h => ?_⟩
  have hkept := (h (insertion [0xD800]) (fits_insertion (by decide))).2
  rw [hread] at hkept
  revert hkept
  decide

end SingleModelEditStackData

end NexgileIde.Edits
