import NexgileIde.Text.Buffer

/-!
# A stream of chunks

Bytes arrive in chunks and are read in other portions. A read takes the first chunk, a
part of it, or parts of several chunks.
-/
namespace NexgileIde.Ipc

open Text

/-! ## Buffers -/

def alloc (byteLength : ℕ) : Bytes := List.replicate byteLength 0

/-- `set` throws when the bytes do not fit. -/
def setBytes (b element : Bytes) (offset : ℕ) : Option Bytes :=
  if offset + element.length ≤ b.length then
    some (b.take offset ++ (element ++ b.drop (offset + element.length)))
  else none

def concatFrom : List Bytes → Bytes → ℕ → Option Bytes
  | [], ret, _ => some ret
  | element :: buffers, ret, offset => do
    let ret ← setBytes ret element offset
    concatFrom buffers ret (offset + element.length)

def concat (buffers : List Bytes) (totalLength : ℕ) : Option Bytes :=
  concatFrom buffers (alloc totalLength) 0

theorem alloc_add (m n : ℕ) : alloc (m + n) = alloc m ++ alloc n :=
  List.replicate_add m n 0

@[simp] theorem length_alloc (n : ℕ) : (alloc n).length = n := List.length_replicate

/-- What is still unset after the bytes that were set is one shorter by the element. -/
theorem setBytes_alloc (done element : Bytes) (n : ℕ) :
    setBytes (done ++ alloc (element.length + n)) element done.length =
      some ((done ++ element) ++ alloc n) := by
  unfold setBytes
  rw [if_pos (by simp), List.take_left, alloc_add, ← List.append_assoc, ← List.drop_drop,
    List.append_assoc, List.drop_left]
  simp [List.drop_left']

theorem concatFrom_alloc (buffers : List Bytes) (done : Bytes) :
    concatFrom buffers (done ++ alloc buffers.flatten.length) done.length =
      some (done ++ buffers.flatten) := by
  induction buffers generalizing done with
  | nil => simp [concatFrom, alloc]
  | cons element buffers ih =>
    have hrest := ih (done ++ element)
    rw [List.length_append] at hrest
    rw [List.flatten_cons, List.length_append, concatFrom, setBytes_alloc, ← List.append_assoc]
    exact hrest

theorem concat_eq (buffers : List Bytes) :
    concat buffers buffers.flatten.length = some buffers.flatten :=
  concatFrom_alloc buffers []

/-! ## The functions of the source -/

structure ChunkStream where
  chunks : List Bytes
  totalLength : ℕ
  deriving DecidableEq, Repr

namespace ChunkStream

def empty : ChunkStream := ⟨[], 0⟩

def byteLength (stream : ChunkStream) : ℕ := stream.totalLength

def acceptChunk (stream : ChunkStream) (buff : Bytes) : ChunkStream :=
  ⟨stream.chunks ++ [buff], stream.totalLength + buff.length⟩

/-- The loop over the chunks. It throws when there is no chunk left. -/
def readLoop (advance : Bool) (stream : ChunkStream) (result : Bytes)
    (resultOffset chunkIndex byteCount : ℕ) : Option (Bytes × ChunkStream) :=
  if byteCount = 0 then some (result, stream)
  else
    match _hchunk : stream.chunks[chunkIndex]? with
    | none => none
    | some chunk =>
      if chunk.length > byteCount then do
        -- this chunk will survive, and `byteCount` becomes zero
        let result ← setBytes result (chunk.take byteCount) resultOffset
        let stream := if advance then
            ⟨stream.chunks.set chunkIndex (chunk.drop byteCount), stream.totalLength - byteCount⟩
          else stream
        return (result, stream)
      else
        -- this chunk will be entirely read
        match setBytes result chunk resultOffset with
        | none => none
        | some result =>
          if advance then
            readLoop advance ⟨stream.chunks.tail, stream.totalLength - chunk.length⟩ result
              (resultOffset + chunk.length) chunkIndex (byteCount - chunk.length)
          else
            readLoop advance stream result (resultOffset + chunk.length) (chunkIndex + 1)
              (byteCount - chunk.length)
termination_by stream.chunks.length - chunkIndex
decreasing_by
  · obtain ⟨hlt, _⟩ := List.getElem?_eq_some_iff.mp _hchunk
    simp only [List.length_tail]
    omega
  · obtain ⟨hlt, _⟩ := List.getElem?_eq_some_iff.mp _hchunk
    omega

/-- `none` where the source throws. -/
def readWith (stream : ChunkStream) (byteCount : ℕ) (advance : Bool) :
    Option (Bytes × ChunkStream) :=
  if byteCount = 0 then some ([], stream)
  else if byteCount > stream.totalLength then none
  else
    match stream.chunks with
    | [] => none
    | first :: chunks =>
      if first.length = byteCount then
        -- super fast path, precisely first chunk must be returned
        some (first, if advance then ⟨chunks, stream.totalLength - byteCount⟩ else stream)
      else if first.length > byteCount then
        -- fast path, the reading is entirely within the first chunk
        some (first.take byteCount,
          if advance then ⟨first.drop byteCount :: chunks, stream.totalLength - byteCount⟩
          else stream)
      else readLoop advance stream (alloc byteCount) 0 0 byteCount

def read (stream : ChunkStream) (byteCount : ℕ) : Option (Bytes × ChunkStream) :=
  stream.readWith byteCount true

/-! ## Reads do not see the chunks -/

/-- The bytes of a stream, whatever its chunks. -/
def bytes (stream : ChunkStream) : Bytes := stream.chunks.flatten

/-- The length that is kept is that of the chunks. -/
def Counted (stream : ChunkStream) : Prop := stream.totalLength = stream.bytes.length

theorem counted_empty : empty.Counted := rfl

@[simp] theorem bytes_acceptChunk (stream : ChunkStream) (buff : Bytes) :
    (stream.acceptChunk buff).bytes = stream.bytes ++ buff := by
  simp [bytes, acceptChunk]

theorem Counted.acceptChunk {stream : ChunkStream} (h : stream.Counted) (buff : Bytes) :
    (stream.acceptChunk buff).Counted := by
  unfold Counted at h ⊢
  rw [bytes_acceptChunk, List.length_append, ← h]
  rfl

/-- A step of the loop that reads the whole chunk. -/
theorem readLoop_cons (first : Bytes) (chunks : List Bytes) (total : ℕ) (done : Bytes) (n : ℕ)
    (hpos : first.length + n ≠ 0) :
    readLoop true ⟨first :: chunks, total⟩ (done ++ alloc (first.length + n)) done.length 0
        (first.length + n) =
      readLoop true ⟨chunks, total - first.length⟩ ((done ++ first) ++ alloc n)
        (done ++ first).length 0 n := by
  rw [readLoop, if_neg hpos]
  split
  · next h => cases h
  · next chunk h =>
    cases h
    rw [if_neg (by omega), setBytes_alloc, List.length_append]
    simp

/-- The loop reads as many bytes as it was asked for and leaves the rest. -/
theorem readLoop_spec (chunks : List Bytes) (total : ℕ) (done : Bytes) (n : ℕ)
    (hn : n ≤ chunks.flatten.length) :
    ∃ chunks', readLoop true ⟨chunks, total⟩ (done ++ alloc n) done.length 0 n =
        some (done ++ chunks.flatten.take n, ⟨chunks', total - n⟩) ∧
      chunks'.flatten = chunks.flatten.drop n := by
  induction chunks generalizing total done n with
  | nil =>
    obtain rfl : n = 0 := by simpa using hn
    refine ⟨[], ?_, rfl⟩
    rw [readLoop, if_pos rfl]
    simp [alloc]
  | cons first chunks ih =>
    rw [List.flatten_cons, List.length_append] at hn
    by_cases hzero : n = 0
    · subst hzero
      refine ⟨first :: chunks, ?_, by simp⟩
      rw [readLoop, if_pos rfl]
      simp [alloc]
    · by_cases hlong : first.length > n
      · refine ⟨first.drop n :: chunks, ?_, ?_⟩
        · have hset := setBytes_alloc done (first.take n) 0
          rw [List.length_take, Nat.min_eq_left (Nat.le_of_lt hlong), Nat.add_zero] at hset
          rw [readLoop, if_neg hzero]
          split
          · next h => cases h
          · next chunk h =>
            cases h
            rw [if_pos hlong, hset]
            simp [alloc, List.take_append_of_le_length (Nat.le_of_lt hlong)]
        · rw [List.flatten_cons, List.flatten_cons,
            List.drop_append_of_le_length (Nat.le_of_lt hlong)]
      · obtain ⟨n, rfl⟩ : ∃ m, n = first.length + m := ⟨n - first.length, by omega⟩
        obtain ⟨chunks', hread, hflatten⟩ := ih (total - first.length) (done ++ first) n (by omega)
        refine ⟨chunks', ?_, ?_⟩
        · rw [readLoop_cons first chunks total done n hzero, hread, List.flatten_cons,
            List.take_length_add_append, List.append_assoc, Nat.sub_sub]
        · rw [hflatten, List.flatten_cons, List.drop_length_add_append]

theorem counted_of_drop {before chunks : List Bytes} {n : ℕ}
    (h : chunks.flatten = before.flatten.drop n) :
    Counted ⟨chunks, before.flatten.length - n⟩ := by
  unfold Counted bytes
  rw [h, List.length_drop]

/-- A read takes bytes from the front of the stream. -/
theorem read_eq {stream : ChunkStream} (h : stream.Counted) {n : ℕ}
    (hn : n ≤ stream.bytes.length) :
    ∃ stream', stream.read n = some (stream.bytes.take n, stream') ∧ stream'.Counted ∧
      stream'.bytes = stream.bytes.drop n := by
  obtain ⟨chunks, total⟩ := stream
  obtain rfl : total = chunks.flatten.length := h
  unfold bytes at hn ⊢
  unfold read readWith
  by_cases hzero : n = 0
  · subst hzero
    exact ⟨⟨chunks, _⟩, rfl, rfl, rfl⟩
  rw [if_neg hzero, if_neg (Nat.not_lt.mpr hn)]
  match chunks with
  | [] => exact absurd (Nat.le_zero.mp hn) hzero
  | first :: chunks =>
    by_cases hexact : first.length = n
    · subst hexact
      have hdrop : chunks.flatten = (first :: chunks).flatten.drop first.length := by
        rw [List.flatten_cons, List.drop_left]
      refine ⟨_, ?_, counted_of_drop hdrop, hdrop⟩
      dsimp only
      rw [if_pos rfl, if_pos rfl, List.flatten_cons, List.take_left]
    by_cases hlong : first.length > n
    · have hdrop : (first.drop n :: chunks).flatten = (first :: chunks).flatten.drop n := by
        rw [List.flatten_cons, List.flatten_cons,
          List.drop_append_of_le_length (Nat.le_of_lt hlong)]
      refine ⟨_, ?_, counted_of_drop hdrop, hdrop⟩
      dsimp only
      rw [if_neg hexact, if_pos hlong, if_pos rfl, List.flatten_cons,
        List.take_append_of_le_length (Nat.le_of_lt hlong)]
    · obtain ⟨chunks', hread, hdrop⟩ := readLoop_spec (first :: chunks) _ [] n hn
      refine ⟨_, ?_, counted_of_drop hdrop, hdrop⟩
      dsimp only
      rw [if_neg hexact, if_neg hlong]
      exact hread

/-- Reading everything empties the stream. -/
theorem read_byteLength {stream : ChunkStream} (h : stream.Counted) :
    ∃ stream', stream.read stream.byteLength = some (stream.bytes, stream') := by
  have hlength : stream.byteLength = stream.bytes.length := h
  obtain ⟨stream', hread, -, -⟩ := read_eq h (Nat.le_refl _)
  rw [List.take_length] at hread
  exact ⟨stream', by rw [hlength, hread]⟩

end ChunkStream

end NexgileIde.Ipc
