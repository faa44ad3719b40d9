import NexgileIde.Ipc.VariableLengthQuantity

/-!
# Values on the wire

A value is written behind a byte for its type. Arrays are written element by element,
and what has no type of its own is written as JSON.
-/
namespace NexgileIde.Ipc

open Text

inductive Value
  | undefined
  | null
  | boolean (b : Bool)
  | number (x : ℚ)
  | string (s : String)
  | nativeBuffer (b : Bytes)
  | vsBuffer (b : Bytes)
  | array (elements : List Value)
  | object (entries : List (String × Value))

/-- What the platform gives: text encoders and JSON. `JSON.parse` throws on what is no
JSON. -/
structure Platform where
  encode : String → Bytes
  decode : Bytes → String
  stringify : Value → String
  parse : String → Option Value

def trunc (x : ℚ) : ℤ := if x < 0 then ⌈x⌉ else ⌊x⌋

/-- `data | 0` -/
def toInt32 (x : ℚ) : ℤ := bitOr (trunc x) 0

structure BufferWriter where
  buffers : List Bytes
  deriving DecidableEq, Repr

namespace BufferWriter

/-- Each buffer is set behind those before it. -/
def buffer (writer : BufferWriter) : Bytes := writer.buffers.flatten

def write (writer : BufferWriter) (b : Bytes) : BufferWriter := ⟨writer.buffers ++ [b]⟩

@[simp] theorem buffer_write (writer : BufferWriter) (b : Bytes) :
    (writer.write b).buffer = writer.buffer ++ b := by
  simp [buffer, write]

end BufferWriter

inductive DataType
  | Undefined
  | String
  | Buffer
  | VSBuffer
  | Array
  | Object
  | Int
  deriving DecidableEq, Repr

namespace DataType

def code : DataType → UInt8
  | Undefined => 0
  | String => 1
  | Buffer => 2
  | VSBuffer => 3
  | Array => 4
  | Object => 5
  | Int => 6

def ofCode : ℕ → Option DataType
  | 0 => some Undefined
  | 1 => some String
  | 2 => some Buffer
  | 3 => some VSBuffer
  | 4 => some Array
  | 5 => some Object
  | 6 => some Int
  | _ => none

@[simp] theorem ofCode_code (type : DataType) : ofCode type.code.toNat = some type := by
  cases type <;> rfl

end DataType

/-! ## Writing -/

/-- The type, the length and the bytes. -/
def writeBlob (writer : BufferWriter) (type : DataType) (b : Bytes) : BufferWriter :=
  ((writer.write [type.code]).write (writeInt32VQL b.length)).write b

mutual

def serialize (P : Platform) (writer : BufferWriter) : Value → BufferWriter
  | .undefined => writer.write [DataType.Undefined.code]
  | .string s => writeBlob writer .String (P.encode s)
  | .nativeBuffer b => writeBlob writer .Buffer b
  | .vsBuffer b => writeBlob writer .VSBuffer b
  | .array elements =>
    serializeElements P ((writer.write [DataType.Array.code]).write
      (writeInt32VQL elements.length)) elements
  | .number x =>
    if toInt32 x = x then
      (writer.write [DataType.Int.code]).write (writeInt32VQL (toInt32 x))
    else writeBlob writer .Object (P.encode (P.stringify (.number x)))
  | .null => writeBlob writer .Object (P.encode (P.stringify .null))
  | .boolean b => writeBlob writer .Object (P.encode (P.stringify (.boolean b)))
  | .object entries => writeBlob writer .Object (P.encode (P.stringify (.object entries)))

def serializeElements (P : Platform) (writer : BufferWriter) : List Value → BufferWriter
  | [] => writer
  | el :: elements => serializeElements P (serialize P writer el) elements

end

/-! ## Reading -/

inductive DeserializeError
  | syntaxError
  | outOfFuel
  deriving DecidableEq, Repr

def readBlob (reader : BufferReader) : Bytes × BufferReader :=
  let (length, reader) := readIntVQL reader
  reader.read length

def readElements (read : BufferReader → Except DeserializeError (Value × BufferReader)) :
    ℕ → BufferReader → Except DeserializeError (List Value × BufferReader)
  | 0, reader => .ok ([], reader)
  | count + 1, reader => do
    let (el, reader) ← read reader
    let (elements, reader) ← readElements read count reader
    return (el :: elements, reader)

/-- The fuel is a bound for the depth of the value. A type that is not known gives
`undefined`, and so does the end of the buffer. -/
def deserializeFuel (P : Platform) : ℕ → BufferReader → Except DeserializeError (Value × BufferReader)
  | 0, _ => .error .outOfFuel
  | fuel + 1, reader =>
    let (b, reader) := reader.read 1
    match (readUInt8 b 0).bind DataType.ofCode with
    | none | some .Undefined => .ok (.undefined, reader)
    | some .String =>
      let (b, reader) := readBlob reader
      .ok (.string (P.decode b), reader)
    | some .Buffer =>
      let (b, reader) := readBlob reader
      .ok (.nativeBuffer b, reader)
    | some .VSBuffer =>
      let (b, reader) := readBlob reader
      .ok (.vsBuffer b, reader)
    | some .Array => do
      let (length, reader) := readIntVQL reader
      let (elements, reader) ← readElements (deserializeFuel P fuel) length.toNat reader
      return (.array elements, reader)
    | some .Object =>
      let (b, reader) := readBlob reader
      match P.parse (P.decode b) with
      | some value => .ok (value, reader)
      | none => .error .syntaxError
    | some .Int =>
      let (value, reader) := readIntVQL reader
      .ok (.number value, reader)

/-- An array takes a byte of its own, so that no value is deeper than its bytes. -/
def deserialize (P : Platform) (reader : BufferReader) :
    Except DeserializeError (Value × BufferReader) :=
  deserializeFuel P (reader.remaining.length + 1) reader

/-! ## The bytes of a value -/

def blobBytes (type : DataType) (b : Bytes) : Bytes :=
  type.code :: (writeInt32VQL b.length ++ b)

mutual

def valueBytes (P : Platform) : Value → Bytes
  | .undefined => [DataType.Undefined.code]
  | .string s => blobBytes .String (P.encode s)
  | .nativeBuffer b => blobBytes .Buffer b
  | .vsBuffer b => blobBytes .VSBuffer b
  | .array elements =>
    DataType.Array.code :: (writeInt32VQL elements.length ++ elementsBytes P elements)
  | .number x =>
    if toInt32 x = x then DataType.Int.code :: writeInt32VQL (toInt32 x)
    else blobBytes .Object (P.encode (P.stringify (.number x)))
  | .null => blobBytes .Object (P.encode (P.stringify .null))
  | .boolean b => blobBytes .Object (P.encode (P.stringify (.boolean b)))
  | .object entries => blobBytes .Object (P.encode (P.stringify (.object entries)))

def elementsBytes (P : Platform) : List Value → Bytes
  | [] => []
  | el :: elements => valueBytes P el ++ elementsBytes P elements

end

theorem buffer_writeBlob (writer : BufferWriter) (type : DataType) (b : Bytes) :
    (writeBlob writer type b).buffer = writer.buffer ++ blobBytes type b := by
  simp [writeBlob, blobBytes]

mutual

theorem buffer_serialize (P : Platform) (writer : BufferWriter) :
    ∀ v : Value, (serialize P writer v).buffer = writer.buffer ++ valueBytes P v
  | .undefined => by simp [serialize, valueBytes]
  | .string s => by simp only [serialize, valueBytes, buffer_writeBlob]
  | .nativeBuffer b => by simp only [serialize, valueBytes, buffer_writeBlob]
  | .vsBuffer b => by simp only [serialize, valueBytes, buffer_writeBlob]
  | .array elements => by
    simp [serialize, valueBytes, buffer_serializeElements P _ elements]
  | .number x => by
    unfold serialize valueBytes
    split_ifs
    · simp
    · exact buffer_writeBlob _ _ _
  | .null => by simp only [serialize, valueBytes, buffer_writeBlob]
  | .boolean b => by simp only [serialize, valueBytes, buffer_writeBlob]
  | .object entries => by simp only [serialize, valueBytes, buffer_writeBlob]

theorem buffer_serializeElements (P : Platform) (writer : BufferWriter) :
    ∀ elements : List Value,
      (serializeElements P writer elements).buffer = writer.buffer ++ elementsBytes P elements
  | [] => by simp [serializeElements, elementsBytes]
  | el :: elements => by
    simp [serializeElements, elementsBytes, buffer_serializeElements P _ elements,
      buffer_serialize P writer el]

end

/-! ## Values that are read back -/

/-- The values that have no type of their own. -/
def Value.IsJson : Value → Prop
  | .null | .boolean _ | .object _ => True
  | .number x => toInt32 x ≠ x
  | _ => False

/-- The values that survive: every length fits, and JSON loses nothing. -/
inductive Wire (P : Platform) : Value → Prop
  | undefined : Wire P .undefined
  | string (s : String) (hlength : (P.encode s).length < 2 ^ 31) : Wire P (.string s)
  | nativeBuffer (b : Bytes) (hlength : b.length < 2 ^ 31) : Wire P (.nativeBuffer b)
  | vsBuffer (b : Bytes) (hlength : b.length < 2 ^ 31) : Wire P (.vsBuffer b)
  | int (x : ℚ) (hint : toInt32 x = x) : Wire P (.number x)
  | json (v : Value) (hjson : v.IsJson) (hparse : P.parse (P.stringify v) = some v)
      (hlength : (P.encode (P.stringify v)).length < 2 ^ 31) : Wire P v
  | array (elements : List Value) (hlength : elements.length < 2 ^ 31)
      (helements : ∀ v ∈ elements, Wire P v) : Wire P (.array elements)

theorem valueBytes_json {P : Platform} {v : Value} (hjson : v.IsJson) :
    valueBytes P v = blobBytes .Object (P.encode (P.stringify v)) := by
  cases v with
  | number x =>
    unfold valueBytes
    exact if_neg hjson
  | null | boolean | object => simp only [valueBytes]
  | undefined | string | nativeBuffer | vsBuffer | array => exact hjson.elim

theorem readBlob_of_remaining {reader : BufferReader} {b rest : Bytes} (hlength : b.length < 2 ^ 31)
    (h : reader.remaining = writeInt32VQL b.length ++ (b ++ rest)) :
    readBlob reader = (b, reader.skip ((writeInt32VQL b.length).length + b.length)) := by
  unfold readBlob
  rw [readIntVQL_writeInt32VQL (by omega) (by omega) h]
  have hrest := BufferReader.remaining_skip h
  simp only [BufferReader.read_of_remaining hrest, BufferReader.skip_skip]

theorem readElements_of_remaining {P : Platform}
    {read : BufferReader → Except DeserializeError (Value × BufferReader)} {elements : List Value}
    (hread : ∀ el ∈ elements, ∀ reader rest, reader.remaining = valueBytes P el ++ rest →
      read reader = .ok (el, reader.skip (valueBytes P el).length))
    {reader : BufferReader} {rest : Bytes}
    (h : reader.remaining = elementsBytes P elements ++ rest) :
    readElements read elements.length reader =
      .ok (elements, reader.skip (elementsBytes P elements).length) := by
  induction elements generalizing reader with
  | nil => rfl
  | cons el elements ih =>
    rw [elementsBytes, List.append_assoc] at h
    have hfirst := hread el List.mem_cons_self _ _ h
    have hrest := ih (fun el hel => hread el (List.mem_cons_of_mem _ hel))
      (BufferReader.remaining_skip h)
    simp only [List.length_cons, readElements, hfirst, elementsBytes, List.length_append]
    show (readElements read elements.length (reader.skip (valueBytes P el).length) >>= fun p =>
      Except.ok (el :: p.1, p.2)) = _
    rw [hrest, BufferReader.skip_skip]
    rfl

theorem length_valueBytes_le {P : Platform} {elements : List Value} {el : Value}
    (h : el ∈ elements) : (valueBytes P el).length ≤ (elementsBytes P elements).length := by
  induction elements with
  | nil => cases h
  | cons first elements ih =>
    rw [elementsBytes, List.length_append]
    rcases List.mem_cons.mp h with rfl | hmem
    · omega
    · have hle := ih hmem
      omega

/-- The first byte decides what is read. -/
theorem deserializeFuel_cons {P : Platform} {fuel : ℕ} {reader : BufferReader} {type : DataType}
    {rest : Bytes} (h : reader.remaining = type.code :: rest) :
    deserializeFuel P (fuel + 1) reader =
      match type with
      | .Undefined => .ok (.undefined, reader.skip 1)
      | .String =>
        let (b, reader) := readBlob (reader.skip 1)
        .ok (.string (P.decode b), reader)
      | .Buffer =>
        let (b, reader) := readBlob (reader.skip 1)
        .ok (.nativeBuffer b, reader)
      | .VSBuffer =>
        let (b, reader) := readBlob (reader.skip 1)
        .ok (.vsBuffer b, reader)
      | .Array => do
        let (length, reader) := readIntVQL (reader.skip 1)
        let (elements, reader) ← readElements (deserializeFuel P fuel) length.toNat reader
        return (.array elements, reader)
      | .Object =>
        let (b, reader) := readBlob (reader.skip 1)
        match P.parse (P.decode b) with
        | some value => .ok (value, reader)
        | none => .error .syntaxError
      | .Int =>
        let (value, reader) := readIntVQL (reader.skip 1)
        .ok (.number value, reader) := by
  have hcode : (readUInt8 [type.code] 0).bind DataType.ofCode = some type :=
    DataType.ofCode_code type
  rw [deserializeFuel, BufferReader.read_one_cons h]
  simp only [hcode]
  cases type <;> rfl

theorem readBlob_blobBytes {reader : BufferReader} {type : DataType} {b rest : Bytes}
    (hlength : b.length < 2 ^ 31) (h : reader.remaining = blobBytes type b ++ rest) :
    readBlob (reader.skip 1) = (b, reader.skip (blobBytes type b).length) := by
  have hrest : (reader.skip 1).remaining = writeInt32VQL b.length ++ (b ++ rest) :=
    (BufferReader.remaining_skip_one h).trans (List.append_assoc _ _ _)
  rw [readBlob_of_remaining hlength hrest, BufferReader.skip_skip]
  simp [blobBytes, Nat.add_comm]

/-- What is read as an integer is one of 32 bits. -/
theorem toInt32_bounds (x : ℚ) : -2 ^ 31 ≤ toInt32 x ∧ toInt32 x < 2 ^ 31 :=
  ⟨BitVec.le_toInt _, BitVec.toInt_lt⟩

theorem valueBytes_ne_nil (P : Platform) (v : Value) : valueBytes P v ≠ [] := by
  cases v with
  | number x =>
    unfold valueBytes
    split_ifs <;> exact List.cons_ne_nil _ _
  | undefined | null | boolean | string | nativeBuffer | vsBuffer | array | object =>
    unfold valueBytes
    exact List.cons_ne_nil _ _

theorem deserializeFuel_valueBytes {P : Platform} (hText : ∀ s, P.decode (P.encode s) = s)
    {v : Value} (hwire : Wire P v) {fuel : ℕ} {reader : BufferReader} {rest : Bytes}
    (hfuel : (valueBytes P v).length ≤ fuel + 1) (h : reader.remaining = valueBytes P v ++ rest) :
    deserializeFuel P (fuel + 1) reader = .ok (v, reader.skip (valueBytes P v).length) := by
  -- by induction on the value: an element has fewer bytes than the array
  induction hwire generalizing fuel reader rest with
  | undefined =>
    rw [valueBytes] at h ⊢
    rw [deserializeFuel_cons h]
    rfl
  | string s hlength =>
    rw [valueBytes] at h ⊢
    rw [deserializeFuel_cons h]
    simp only [readBlob_blobBytes hlength h, hText]
  | nativeBuffer b hlength =>
    rw [valueBytes] at h ⊢
    rw [deserializeFuel_cons h]
    simp only [readBlob_blobBytes hlength h]
  | vsBuffer b hlength =>
    rw [valueBytes] at h ⊢
    rw [deserializeFuel_cons h]
    simp only [readBlob_blobBytes hlength h]
  | int x hint =>
    rw [valueBytes, if_pos hint] at h ⊢
    obtain ⟨hlow, hhigh⟩ := toInt32_bounds x
    have hrest := BufferReader.remaining_skip_one h
    rw [deserializeFuel_cons h]
    simp only [readIntVQL_writeInt32VQL hlow hhigh hrest, hint, BufferReader.skip_skip,
      List.length_cons, Nat.add_comm]
  | json v hjson hparse hlength =>
    rw [valueBytes_json hjson] at h ⊢
    rw [deserializeFuel_cons h]
    simp only [readBlob_blobBytes hlength h, hText, hparse]
  | array elements hlength _ ih =>
    rw [valueBytes] at h hfuel ⊢
    rw [List.length_cons, List.length_append] at hfuel
    have hrest : (reader.skip 1).remaining =
        writeInt32VQL elements.length ++ (elementsBytes P elements ++ rest) :=
      (BufferReader.remaining_skip_one h).trans (List.append_assoc _ _ _)
    have hel : ∀ el ∈ elements, ∀ reader rest, reader.remaining = valueBytes P el ++ rest →
        deserializeFuel P fuel reader = .ok (el, reader.skip (valueBytes P el).length) := by
      intro el hmem reader rest h
      have hle := length_valueBytes_le (P := P) hmem
      have hpos := List.length_pos_iff.mpr (valueBytes_ne_nil P el)
      obtain ⟨fuel', rfl⟩ : ∃ fuel', fuel = fuel' + 1 := ⟨fuel - 1, by omega⟩
      exact ih el hmem (by omega) h
    rw [deserializeFuel_cons h]
    simp only [readIntVQL_writeInt32VQL (by omega) (by omega) hrest, Int.toNat_natCast,
      readElements_of_remaining hel (BufferReader.remaining_skip hrest)]
    simp only [BufferReader.skip_skip, List.length_cons, List.length_append]
    show Except.ok _ = _
    rw [Nat.add_comm 1, Nat.add_right_comm]

/-- What `serialize` writes, whatever was written before and whatever follows, is read back
as the value that it was, and the reader stops where the writer did. -/
theorem deserialize_value (P : Platform) (hText : ∀ s, P.decode (P.encode s) = s) (v : Value)
    (hwire : Wire P v) (writer : BufferWriter) (rest : Bytes) :
    deserialize P ⟨(serialize P writer v).buffer ++ rest, writer.buffer.length⟩ =
      .ok (v, ⟨(serialize P writer v).buffer ++ rest, (serialize P writer v).buffer.length⟩) := by
  rw [buffer_serialize]
  have hremaining : BufferReader.remaining
      ⟨writer.buffer ++ valueBytes P v ++ rest, writer.buffer.length⟩ = valueBytes P v ++ rest := by
    simp [BufferReader.remaining]
  unfold deserialize
  rw [deserializeFuel_valueBytes hText hwire _ hremaining]
  · simp [BufferReader.skip]
  · rw [hremaining, List.length_append]
    omega

section Witness

/-- UTF-8, and JSON for the values without a structure. -/
def utf8 : Platform where
  encode s := s.toUTF8.data.toList
  decode b := (String.fromUTF8? ⟨b.toArray⟩).getD ""
  stringify
    | .null => "null"
    | .boolean true => "true"
    | .boolean false => "false"
    | _ => ""
  parse text :=
    if text = "null" then some .null
    else if text = "true" then some (.boolean true)
    else if text = "false" then some (.boolean false)
    else none

theorem utf8_decode_encode (s : String) : utf8.decode (utf8.encode s) = s := by
  simp [utf8, String.fromUTF8?, s.isValidUTF8, String.fromUTF8]

def nestedValue : Value :=
  .array [.undefined, .string "on", .number (-300), .null, .array [.vsBuffer [0, 255]]]

theorem deserialize_value_nested :
    deserialize utf8 ⟨(serialize utf8 ⟨[[7]]⟩ nestedValue).buffer ++ [9], 1⟩ =
      .ok (nestedValue, ⟨(serialize utf8 ⟨[[7]]⟩ nestedValue).buffer ++ [9],
        (serialize utf8 ⟨[[7]]⟩ nestedValue).buffer.length⟩) := by
  refine deserialize_value utf8 utf8_decode_encode nestedValue ?_ ⟨[[7]]⟩ [9]
  have hint : toInt32 (-300) = -300 := by
    unfold toInt32 trunc
    norm_num
    decide
  refine .array _ (by decide) fun v hv => ?_
  simp only [List.mem_cons, List.not_mem_nil, or_false] at hv
  rcases hv with rfl | rfl | rfl | rfl | rfl
  · exact .undefined
  · exact .string _ (by decide)
  · exact .int _ (by rw [hint]; norm_num)
  · exact .json _ trivial rfl (by decide)
  · refine .array _ (by decide) fun v hv => ?_
    rw [List.mem_singleton] at hv
    subst hv
    exact .vsBuffer _ (by decide)

end Witness

end NexgileIde.Ipc
