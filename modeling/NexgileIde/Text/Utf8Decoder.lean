import NexgileIde.Text.Utf16

/-!
# Decoding UTF-8 in pieces

The decoder keeps the bytes of an unfinished character between two calls, and strips
one byte order mark from every text it decodes. A byte that cannot continue the
character ends it with a replacement character and is then read as a first byte.
-/
namespace NexgileIde.Text

/-- The UTF-8 decoder between two bytes. -/
structure Utf8State where
  codePoint : ℕ
  bytesSeen : ℕ
  bytesNeeded : ℕ
  lowerBoundary : UInt8
  upperBoundary : UInt8
deriving DecidableEq, Repr

namespace Utf8State

def initial : Utf8State := ⟨0, 0, 0, 0x80, 0xBF⟩

/-- A byte outside any character, with the code points it gives. -/
def first (byte : UInt8) : Utf8State × List ℕ :=
  if byte ≤ 0x7F then (initial, [byte.toNat])
  else if 0xC2 ≤ byte ∧ byte ≤ 0xDF then
    ({ initial with bytesNeeded := 1, codePoint := (byte &&& 0x1F).toNat }, [])
  else if 0xE0 ≤ byte ∧ byte ≤ 0xEF then
    ({ initial with
        lowerBoundary := if byte = 0xE0 then 0xA0 else 0x80
        upperBoundary := if byte = 0xED then 0x9F else 0xBF
        bytesNeeded := 2
        codePoint := (byte &&& 0xF).toNat }, [])
  else if 0xF0 ≤ byte ∧ byte ≤ 0xF4 then
    ({ initial with
        lowerBoundary := if byte = 0xF0 then 0x90 else 0x80
        upperBoundary := if byte = 0xF4 then 0x8F else 0xBF
        bytesNeeded := 3
        codePoint := (byte &&& 0x7).toNat }, [])
  else (initial, [replacementCharacter.toNat])

/-- The decoder's handler for one byte. -/
def handle (state : Utf8State) (byte : UInt8) : Utf8State × List ℕ :=
  if state.bytesNeeded = 0 then first byte
  else if state.lowerBoundary ≤ byte ∧ byte ≤ state.upperBoundary then
    let codePoint := state.codePoint <<< 6 ||| (byte &&& 0x3F).toNat
    if state.bytesSeen + 1 = state.bytesNeeded then (initial, [codePoint])
    else
      ({ codePoint := codePoint
         bytesSeen := state.bytesSeen + 1
         bytesNeeded := state.bytesNeeded
         lowerBoundary := 0x80
         upperBoundary := 0xBF }, [])
  else
    -- the byte is restored to the queue
    let (next, output) := first byte
    (next, replacementCharacter.toNat :: output)

def handleAll (state : Utf8State) : Bytes → Utf8State × List ℕ
  | [] => (state, [])
  | byte :: rest =>
    let (next, output) := state.handle byte
    let (last, more) := next.handleAll rest
    (last, output ++ more)

/-- The handler at the end of the queue. -/
def finish (state : Utf8State) : List ℕ :=
  if state.bytesNeeded = 0 then [] else [replacementCharacter.toNat]

theorem handleAll_append (state : Utf8State) (left right : Bytes) :
    state.handleAll (left ++ right) =
      let (middle, output) := state.handleAll left
      let (last, more) := middle.handleAll right
      (last, output ++ more) := by
  induction left generalizing state with
  | nil => simp [handleAll]
  | cons byte rest ih => simp [handleAll, ih, List.append_assoc]

end Utf8State

/-- A code point in UTF-16. -/
def encodeUtf16 (codePoint : ℕ) : Str :=
  if codePoint < 0x10000 then [UInt16.ofNat codePoint]
  else
    let offset := codePoint - 0x10000
    [UInt16.ofNat (0xD800 + offset / 0x400), UInt16.ofNat (0xDC00 + offset % 0x400)]

/-- The code points that stay once a byte order mark is stripped, and whether the first
one was seen. -/
def serializeQueue (bomSeen : Bool) : List ℕ → Bool × List ℕ
  | [] => (bomSeen, [])
  | item :: rest =>
    (true, if bomSeen = false ∧ item = byteOrderMark.toNat then rest else item :: rest)

theorem serializeQueue_append (bomSeen : Bool) (left right : List ℕ) :
    serializeQueue bomSeen (left ++ right) =
      let (seen, output) := serializeQueue bomSeen left
      let (last, more) := serializeQueue seen right
      (last, output ++ more) := by
  cases left with
  | nil => cases right <;> rfl
  | cons item rest =>
    cases right with
    | nil => simp [serializeQueue]
    | cons next more =>
      simp only [List.cons_append, serializeQueue, Bool.true_eq_false, false_and, if_false]
      split <;> rfl

/-- `new TextDecoder('utf-8')` -/
structure TextDecoder where
  state : Utf8State
  bomSeen : Bool
  doNotFlush : Bool
deriving DecidableEq, Repr

namespace TextDecoder

def new : TextDecoder := ⟨.initial, false, false⟩

/-- `decoder.decode(input, { stream })` -/
def decode (decoder : TextDecoder) (input : Bytes) (stream : Bool) : TextDecoder × Str :=
  let (state, bomSeen) :=
    if decoder.doNotFlush then (decoder.state, decoder.bomSeen)
    else (Utf8State.initial, false)
  let (state, output) := state.handleAll input
  let output := if stream then output else output ++ state.finish
  let (bomSeen, output) := serializeQueue bomSeen output
  (⟨state, bomSeen, stream⟩, output.flatMap encodeUtf16)

/-- What a decoder that starts anew makes of a whole text. -/
def decodeWhole (input : Bytes) : Str := (new.decode input false).2

/-- A decoder that flushes before it starts. -/
theorem decode_fresh {decoder : TextDecoder} (h : decoder.doNotFlush = false) (input : Bytes)
    (stream : Bool) : decoder.decode input stream = new.decode input stream := by
  simp [decode, new, h]

/-- Decoding a piece in streaming mode and then the rest is decoding both at once. -/
theorem decode_stream (decoder : TextDecoder) (left right : Bytes) (stream : Bool) :
    decoder.decode (left ++ right) stream =
      let (middle, output) := decoder.decode left true
      let (last, more) := middle.decode right stream
      (last, output ++ more) := by
  simp only [decode, Utf8State.handleAll_append, if_true]
  cases stream <;> simp [serializeQueue_append, List.append_assoc]

/-- One turn of a loop that decodes a text piece by piece: `str += decode(piece, stream)`. -/
def decodeInto (acc : TextDecoder × Str) (piece : Bytes) : TextDecoder × Str :=
  let (decoder, text) := acc.1.decode piece true
  (decoder, acc.2 ++ text)

theorem decode_pieces (acc : TextDecoder × Str) (pieces : List Bytes) (last : Bytes) :
    ((pieces.foldl decodeInto acc).1.decode last false).1 =
        (acc.1.decode (pieces.flatten ++ last) false).1 ∧
      (pieces.foldl decodeInto acc).2 ++ ((pieces.foldl decodeInto acc).1.decode last false).2 =
        acc.2 ++ (acc.1.decode (pieces.flatten ++ last) false).2 := by
  induction pieces generalizing acc with
  | nil => simp
  | cons piece rest ih =>
    have hstep := decode_stream acc.1 piece (rest.flatten ++ last) false
    obtain ⟨hdecoder, htext⟩ := ih (decodeInto acc piece)
    simp only [List.foldl_cons, List.flatten_cons, List.append_assoc, hstep]
    exact ⟨hdecoder, by rw [htext]; simp [decodeInto]⟩

/-- A decoder that flushed decodes a text in pieces as a whole text, and has flushed. -/
theorem decode_pieces_fresh {decoder : TextDecoder} (h : decoder.doNotFlush = false)
    (pieces : List Bytes) (last : Bytes) :
    ((pieces.foldl decodeInto (decoder, [])).1.decode last false).1.doNotFlush = false ∧
      (pieces.foldl decodeInto (decoder, [])).2 ++
          ((pieces.foldl decodeInto (decoder, [])).1.decode last false).2 =
        decodeWhole (pieces.flatten ++ last) := by
  obtain ⟨hdecoder, htext⟩ := decode_pieces (decoder, []) pieces last
  rw [hdecoder, htext, decode_fresh h]
  exact ⟨rfl, rfl⟩

end TextDecoder

end NexgileIde.Text
