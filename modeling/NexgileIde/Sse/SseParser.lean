import NexgileIde.Text.Utf8Decoder

/-!
# The server-sent events parser

Chunks are kept as bytes until their line is complete: a line ends with CR, LF or CR LF,
and a chunk that ends with CR swallows an LF at the start of the next one. The numbers of
the platform are left open, with the `parseInt` that makes them.
-/
namespace NexgileIde.Sse

open Text

namespace Chr

def CR : UInt8 := 13

def LF : UInt8 := 10

end Chr

structure ISSEEvent (N : Type*) where
  type : Str
  data : Str
  id : Option Str := none
  retry : Option N := none
deriving DecidableEq

/-- The parser, with the events that its handler was called with so far. -/
structure SSEParser (N : Type*) where
  dataBuffer : Str := []
  eventTypeBuffer : Str := []
  currentEventId : Option Str := none
  lastEventIdBuffer : Option Str := none
  reconnectionTime : Option N := none
  buffer : List Bytes := []
  endedOnCR : Bool := false
  decoder : TextDecoder := .new
  events : List (ISSEEvent N) := []
deriving DecidableEq

/-- `/^\d+$/.test(value)` -/
def isDigits (value : Str) : Bool := value ≠ [] && value.all fun unit => 48 ≤ unit && unit ≤ 57

/-- `chunk.indexOf(byte, offset)`, where `-1` is `none`. -/
def indexOf (chunk : Bytes) (byte : UInt8) (offset : ℕ) : Option ℕ :=
  ((chunk.drop offset).idxOf? byte).map (offset + ·)

/-- The index of the next line terminator. -/
def lineEnd (chunk : Bytes) (offset : ℕ) : Option ℕ :=
  match indexOf chunk Chr.CR offset, indexOf chunk Chr.LF offset with
  | none, indexLF => indexLF
  | some indexCR, none => some indexCR
  | some indexCR, some indexLF => some (min indexCR indexLF)

theorem le_of_indexOf {chunk : Bytes} {byte : UInt8} {offset index : ℕ}
    (h : indexOf chunk byte offset = some index) : offset ≤ index := by
  obtain ⟨i, -, rfl⟩ := Option.map_eq_some_iff.mp h
  exact Nat.le_add_right offset i

theorem le_of_lineEnd {chunk : Bytes} {offset index : ℕ} (h : lineEnd chunk offset = some index) :
    offset ≤ index := by
  unfold lineEnd at h
  split at h
  case h_1 => exact le_of_indexOf h
  case h_2 hcr _ =>
    cases h
    exact le_of_indexOf hcr
  case h_3 hcr hlf =>
    cases h
    exact le_min (le_of_indexOf hcr) (le_of_indexOf hlf)

/-- Where the line after a terminator starts. -/
def nextLine (chunk : Bytes) (index : ℕ) : ℕ :=
  index + if chunk[index]? = some Chr.CR ∧ chunk[index + 1]? = some Chr.LF then 2 else 1

theorem lt_nextLine (chunk : Bytes) (index : ℕ) : index < nextLine chunk index := by
  unfold nextLine
  split <;> omega

namespace SSEParser

variable {N : Type*}

def new : SSEParser N := {}

def getLastEventId (self : SSEParser N) : Option Str := self.lastEventIdBuffer

def reset (self : SSEParser N) : SSEParser N :=
  { self with dataBuffer := [], eventTypeBuffer := [], currentEventId := none }

def dispatchEvent (self : SSEParser N) : SSEParser N :=
  if self.dataBuffer = [] then { self with dataBuffer := [], eventTypeBuffer := [] }
  else
    let dataBuffer :=
      if self.dataBuffer.getLast? = some LineFeed then self.dataBuffer.dropLast
      else self.dataBuffer
    let event : ISSEEvent N :=
      { type := if self.eventTypeBuffer = [] then ascii "message" else self.eventTypeBuffer
        data := dataBuffer
        id := self.currentEventId
        retry := self.reconnectionTime }
    { self with dataBuffer, events := self.events ++ [event] }.reset

variable (parseInt : Str → N)

def processField (self : SSEParser N) (field value : Str) : SSEParser N :=
  if field = ascii "event" then { self with eventTypeBuffer := value }
  else if field = ascii "data" then
    { self with dataBuffer := self.dataBuffer ++ value ++ [LineFeed] }
  else if field = ascii "id" then
    if ¬value.contains 0 then
      { self with currentEventId := some value, lastEventIdBuffer := some value }
    else { self with currentEventId := none }
  else if field = ascii "retry" then
    if isDigits value then { self with reconnectionTime := some (parseInt value) } else self
  else self

def processLine (self : SSEParser N) (line : Str) : SSEParser N :=
  if line = [] then self.dispatchEvent
  else if line.head? = some 58 then self
  else
    match line.idxOf? 58 with
    | none => self.processField parseInt line []
    | some colonIndex =>
      let field := substring line 0 colonIndex
      let value := substringFrom line (colonIndex + 1)
      let value := if value.head? = some 32 then substringFrom value 1 else value
      self.processField parseInt field value

/-- The loop over the complete lines of a chunk, with the offset where it stops. -/
def feedLoop (chunk : Bytes) (self : SSEParser N) (offset : ℕ) : SSEParser N × ℕ :=
  if offset < chunk.length then
    match h : lineEnd chunk offset with
    | none => (self, offset)
    | some index =>
      let (decoder, str) := self.buffer.foldl TextDecoder.decodeInto (self.decoder, [])
      let (decoder, text) := decoder.decode (chunk.extract offset index) false
      let self := { self with decoder }.processLine parseInt (str ++ text)
      feedLoop chunk { self with buffer := [] } (nextLine chunk index)
  else (self, offset)
termination_by chunk.length - offset
decreasing_by
  have hle := le_of_lineEnd h
  have hlt := lt_nextLine chunk index
  omega

def feed (self : SSEParser N) (chunk : Bytes) : SSEParser N :=
  if chunk.length = 0 then self
  else
    let offset := if self.endedOnCR ∧ chunk[0]? = some Chr.LF then 1 else 0
    let (self, offset) := feedLoop parseInt chunk { self with endedOnCR := false } offset
    if offset < chunk.length then { self with buffer := self.buffer ++ [chunk.drop offset] }
    else { self with endedOnCR := chunk.getLast? = some Chr.CR }

end SSEParser

end NexgileIde.Sse

/-!
## Events do not depend on the chunks

Without its chunks the parser reads one byte after the other: it collects the bytes of a
line, and a terminator hands the decoded line on, unless it is the LF of a CR LF. Every
call of `feed` is a run of this machine over the chunk.
-/
namespace NexgileIde.Sse

open Text

variable {N : Type*}

def isTerminator (byte : UInt8) : Bool := byte = Chr.CR || byte = Chr.LF

/-- The parser that reads single bytes. The parser inside keeps no chunks. -/
structure Scan (N : Type*) where
  parser : SSEParser N
  line : Bytes
  afterCR : Bool

/-- One byte of the stream. -/
def scanByte (parseInt : Str → N) (self : Scan N) (byte : UInt8) : Scan N :=
  if self.afterCR ∧ byte = Chr.LF then { self with afterCR := false }
  else if isTerminator byte then
    { parser := self.parser.processLine parseInt (TextDecoder.decodeWhole self.line)
      line := []
      afterCR := byte = Chr.CR }
  else { self with line := self.line ++ [byte], afterCR := false }

/-! ## Lines and terminators -/

theorem findIdx_terminator (xs : Bytes) :
    (match xs.idxOf? Chr.CR, xs.idxOf? Chr.LF with
      | none, indexLF => indexLF
      | some indexCR, none => some indexCR
      | some indexCR, some indexLF => some (min indexCR indexLF)) = xs.findIdx? isTerminator := by
  induction xs with
  | nil => rfl
  | cons x xs ih =>
    simp only [List.idxOf?_cons, List.findIdx?_cons, ← ih]
    by_cases hcr : x = Chr.CR
    · subst hcr
      rcases xs.idxOf? Chr.LF with _ | i <;> simp [isTerminator, Chr.CR, Chr.LF]
    by_cases hlf : x = Chr.LF
    · subst hlf
      rcases xs.idxOf? Chr.CR with _ | i <;> simp [isTerminator, Chr.CR, Chr.LF]
    have hnot : isTerminator x = false := by simp [isTerminator, hcr, hlf]
    rcases xs.idxOf? Chr.CR with _ | i <;> rcases xs.idxOf? Chr.LF with _ | j <;>
      simp [hcr, hlf, hnot]

theorem lineEnd_eq (chunk : Bytes) (offset : ℕ) :
    lineEnd chunk offset = ((chunk.drop offset).findIdx? isTerminator).map (offset + ·) := by
  rw [← findIdx_terminator]
  unfold lineEnd indexOf
  rcases (chunk.drop offset).idxOf? Chr.CR with _ | i <;>
    rcases (chunk.drop offset).idxOf? Chr.LF with _ | j <;> simp

/-- A line ends at the first terminator. -/
theorem split_of_lineEnd {chunk : Bytes} {offset index : ℕ}
    (h : lineEnd chunk offset = some index) :
    ∃ text byte rest, chunk.drop offset = text ++ byte :: rest ∧ index = offset + text.length ∧
      isTerminator byte ∧ ∀ x ∈ text, isTerminator x = false := by
  rw [lineEnd_eq] at h
  obtain ⟨i, hi, rfl⟩ := Option.map_eq_some_iff.mp h
  obtain ⟨hlt, hbyte, hbefore⟩ := List.findIdx?_eq_some_iff_getElem.mp hi
  refine ⟨(chunk.drop offset).take i, (chunk.drop offset)[i], (chunk.drop offset).drop (i + 1),
    ?_, ?_, hbyte, ?_⟩
  · rw [← List.drop_eq_getElem_cons, List.take_append_drop]
  · rw [List.length_take]
    omega
  · intro x hx
    obtain ⟨j, hj, rfl⟩ := List.mem_take_iff_getElem.mp hx
    simpa using hbefore j (by omega)

theorem not_terminator_of_lineEnd {chunk : Bytes} {offset : ℕ}
    (h : lineEnd chunk offset = none) : ∀ x ∈ chunk.drop offset, isTerminator x = false := by
  rw [lineEnd_eq, Option.map_eq_none_iff, List.findIdx?_eq_none_iff] at h
  exact h

section

variable (parseInt : Str → N)

/-- The bytes of a line are collected. -/
theorem scan_text (self : Scan N) {text : Bytes} (htext : ∀ x ∈ text, isTerminator x = false) :
    text.foldl (scanByte parseInt) self =
      { self with line := self.line ++ text, afterCR := text = [] && self.afterCR } := by
  induction text generalizing self with
  | nil => simp
  | cons x xs ih =>
    have hx := htext x List.mem_cons_self
    have hlf : x ≠ Chr.LF := by
      rintro rfl
      simp [isTerminator] at hx
    rw [List.foldl_cons, ih _ fun y hy => htext y (List.mem_cons_of_mem x hy)]
    simp [scanByte, hx, hlf]

/-! ## The parser without its chunks -/

namespace SSEParser

/-- The parser as it is between two lines. -/
def core (self : SSEParser N) : SSEParser N :=
  { self with buffer := [], endedOnCR := false, decoder := .new }

def toScan (self : SSEParser N) : Scan N := ⟨self.core, self.buffer.flatten, self.endedOnCR⟩

/-- A line leaves the chunks alone and does not depend on them. -/
theorem processLine_frame (self : SSEParser N) (line : Str) (buffer : List Bytes)
    (endedOnCR : Bool) (decoder : TextDecoder) :
    { self with buffer, endedOnCR, decoder }.processLine parseInt line =
      { self.processLine parseInt line with buffer, endedOnCR, decoder } := by
  have hdispatch : { self with buffer, endedOnCR, decoder }.dispatchEvent =
      { self.dispatchEvent with buffer, endedOnCR, decoder } := by
    unfold dispatchEvent
    split <;> rfl
  have hfield : ∀ field value,
      { self with buffer, endedOnCR, decoder }.processField parseInt field value =
        { self.processField parseInt field value with buffer, endedOnCR, decoder } := by
    intro field value
    unfold processField
    split_ifs <;> rfl
  unfold processLine
  split_ifs
  · exact hdispatch
  · rfl
  · split <;> exact hfield _ _

theorem core_processLine (self : SSEParser N) (line : Str) :
    (self.processLine parseInt line).core = self.core.processLine parseInt line := by
  simp only [core, processLine_frame]

/-! ## One call of `feed` -/

/-- What holds at an offset of the chunk, where `afterCR` tells whether a CR precedes it. -/
structure AtOffset (chunk : Bytes) (parser : SSEParser N) (offset : ℕ) (afterCR : Bool) :
    Prop where
  le : offset ≤ chunk.length
  flushed : parser.decoder.doNotFlush = false
  notEnded : parser.endedOnCR = false
  before : 0 < offset → (afterCR = true ↔ chunk[offset - 1]? = some Chr.CR)
  after : afterCR = true → chunk[offset]? ≠ some Chr.LF

/-- The machine that stands where the loop does. -/
def scanAt (self : SSEParser N) (afterCR : Bool) : Scan N :=
  ⟨self.core, self.buffer.flatten, afterCR⟩

/-- The rest of the chunk, read byte by byte. -/
def scanRest (chunk : Bytes) (self : SSEParser N) (offset : ℕ) (afterCR : Bool) : Scan N :=
  (chunk.drop offset).foldl (scanByte parseInt) (scanAt self afterCR)

/-- The parser after a complete line of the loop. -/
def afterLine (self : SSEParser N) (text : Bytes) : SSEParser N :=
  let (decoder, str) := self.buffer.foldl TextDecoder.decodeInto (self.decoder, [])
  let (decoder, last) := decoder.decode text false
  let self := { self with decoder }.processLine parseInt (str ++ last)
  { self with buffer := [] }

theorem afterLine_spec {self : SSEParser N} (h : self.decoder.doNotFlush = false) (text : Bytes) :
    (afterLine parseInt self text).decoder.doNotFlush = false ∧
      (afterLine parseInt self text).buffer = [] ∧
      (afterLine parseInt self text).endedOnCR = self.endedOnCR ∧
      (afterLine parseInt self text).core =
        self.core.processLine parseInt (TextDecoder.decodeWhole (self.buffer.flatten ++ text)) := by
  obtain ⟨hflushed, htext⟩ := TextDecoder.decode_pieces_fresh h self.buffer text
  unfold afterLine
  simp only [htext]
  generalize (self.buffer.foldl TextDecoder.decodeInto (self.decoder, [])).1.decode text false = r
    at hflushed
  generalize TextDecoder.decodeWhole (self.buffer.flatten ++ text) = line
  have hframe := processLine_frame parseInt self line self.buffer self.endedOnCR r.1
  have hcore := core_processLine parseInt self line
  simp only at hframe
  rw [hframe]
  exact ⟨hflushed, trivial, rfl, hcore⟩

/-- The bytes at an offset, once the rest of the chunk is split. -/
theorem getElem?_of_drop {chunk text rest : Bytes} {offset : ℕ}
    (h : chunk.drop offset = text ++ rest) (i : ℕ) : chunk[offset + text.length + i]? = rest[i]? := by
  rw [Nat.add_assoc, ← List.getElem?_drop, h, List.getElem?_append_right (Nat.le_add_right _ _),
    Nat.add_sub_cancel_left]

/-- The machine reads a complete line. -/
theorem scan_line {self : SSEParser N} (hflushed : self.decoder.doNotFlush = false)
    {text : Bytes} {byte : UInt8} (afterCR : Bool) (htext : ∀ x ∈ text, isTerminator x = false)
    (hbyte : isTerminator byte) (hskip : afterCR = true → text = [] → byte ≠ Chr.LF) :
    (text ++ [byte]).foldl (scanByte parseInt) (scanAt self afterCR) =
      scanAt (afterLine parseInt self text) (byte = Chr.CR) := by
  obtain ⟨-, hbuffer, -, hcore⟩ := afterLine_spec parseInt hflushed text
  have hread : ¬((decide (text = []) && afterCR) = true ∧ byte = Chr.LF) := by
    rintro ⟨hempty, rfl⟩
    simp only [Bool.and_eq_true, decide_eq_true_eq] at hempty
    exact hskip hempty.2 hempty.1 rfl
  simp only [List.foldl_append, scan_text parseInt _ htext, List.foldl_cons, List.foldl_nil,
    scanByte, scanAt, if_neg hread, if_pos hbyte, hcore, hbuffer, List.flatten_nil]

/-- One turn of the loop. -/
theorem loop_step {chunk : Bytes} {self : SSEParser N} {offset index : ℕ} {afterCR : Bool}
    (h : AtOffset chunk self offset afterCR) (hend : lineEnd chunk offset = some index) :
    ∃ afterCR', AtOffset chunk (afterLine parseInt self (chunk.extract offset index))
        (nextLine chunk index) afterCR' ∧
      scanRest parseInt chunk self offset afterCR =
        scanRest parseInt chunk (afterLine parseInt self (chunk.extract offset index))
          (nextLine chunk index) afterCR' := by
  obtain ⟨text, byte, rest, hdrop, rfl, hbyte, htext⟩ := split_of_lineEnd hend
  have hextract : chunk.extract offset (offset + text.length) = text := by
    simp [List.extract_eq_take_drop, hdrop]
  rw [hextract]
  obtain ⟨hflushed, -, hended, -⟩ := afterLine_spec parseInt h.flushed text
  have hat : ∀ i, chunk[offset + text.length + i]? = (byte :: rest)[i]? := getElem?_of_drop hdrop
  have hhead : chunk[offset + text.length]? = some byte := hat 0
  have hnext : chunk[offset + text.length + 1]? = rest[0]? := hat 1
  have hlength : chunk.length = offset + text.length + 1 + rest.length := by
    have hlen := congrArg List.length hdrop
    have hlt := (List.getElem?_eq_some_iff.mp hhead).1
    simp only [List.length_drop, List.length_append, List.length_cons] at hlen
    omega
  have hscan := scan_line parseInt h.flushed afterCR htext hbyte (by
    rintro hcr rfl rfl
    exact h.after hcr (by simpa using hhead))
  have hrest : scanRest parseInt chunk self offset afterCR =
      rest.foldl (scanByte parseInt) (scanAt (afterLine parseInt self text) (byte = Chr.CR)) := by
    rw [← hscan, ← List.foldl_append, List.append_assoc, List.singleton_append, ← hdrop]
    rfl
  have hdropNext : chunk.drop (offset + text.length + 1) = rest := by
    rw [Nat.add_assoc, ← List.drop_drop, hdrop]
    simp
  by_cases hcrlf : byte = Chr.CR ∧ rest[0]? = some Chr.LF
  · obtain ⟨rfl, hlf⟩ := hcrlf
    obtain ⟨rest, rfl⟩ : ∃ tail, rest = Chr.LF :: tail := by
      cases rest with
      | nil => simp at hlf
      | cons x tail =>
        simp only [List.getElem?_cons_zero, Option.some.injEq] at hlf
        exact ⟨tail, by rw [hlf]⟩
    have hnextLine : nextLine chunk (offset + text.length) = offset + text.length + 2 := by
      simp [nextLine, hhead, hnext]
    rw [hnextLine]
    refine ⟨false, ⟨?_, hflushed, hended.trans h.notEnded, ?_, nofun⟩, ?_⟩
    · simp only [List.length_cons] at hlength
      omega
    · intro _
      simp [hnext, Chr.CR, Chr.LF]
    · have hdropLine : chunk.drop (offset + text.length + 2) = rest := by
        rw [← List.tail_drop, hdropNext, List.tail_cons]
      rw [hrest, scanRest, hdropLine]
      simp [scanByte, scanAt]
  · have hnextLine : nextLine chunk (offset + text.length) = offset + text.length + 1 := by
      simp only [nextLine, hhead, hnext, Option.some.injEq, if_neg hcrlf]
    rw [hnextLine]
    refine ⟨byte = Chr.CR, ⟨?_, hflushed, hended.trans h.notEnded, ?_, ?_⟩, ?_⟩
    · omega
    · intro _
      simp [hhead]
    · intro hcr
      rw [hnext]
      exact fun hlf => hcrlf ⟨by simpa using hcr, hlf⟩
    · rw [hrest, scanRest, hdropNext]

theorem feedLoop_complete {chunk : Bytes} {self : SSEParser N} {offset index : ℕ}
    (hlt : offset < chunk.length) (hend : lineEnd chunk offset = some index) :
    feedLoop parseInt chunk self offset =
      feedLoop parseInt chunk (afterLine parseInt self (chunk.extract offset index))
        (nextLine chunk index) := by
  rw [feedLoop, if_pos hlt]
  split
  · simp_all
  · rename_i hend'
    obtain rfl : _ = index := Option.some.inj (hend'.symm.trans hend)
    rfl

theorem feedLoop_incomplete {chunk : Bytes} {self : SSEParser N} {offset : ℕ}
    (hend : lineEnd chunk offset = none) :
    feedLoop parseInt chunk self offset = (self, offset) := by
  rw [feedLoop]
  split
  · split
    · rfl
    · simp_all
  · rfl

/-- The loop stops where no line is complete. -/
theorem feedLoop_spec {chunk : Bytes} {self : SSEParser N} {offset : ℕ} {afterCR : Bool}
    (h : AtOffset chunk self offset afterCR) :
    ∃ parser stop afterCR', feedLoop parseInt chunk self offset = (parser, stop) ∧
      AtOffset chunk parser stop afterCR' ∧ offset ≤ stop ∧
      scanRest parseInt chunk self offset afterCR =
        scanRest parseInt chunk parser stop afterCR' ∧
      ∀ x ∈ chunk.drop stop, isTerminator x = false := by
  induction hn : chunk.length - offset using Nat.strong_induction_on
    generalizing self offset afterCR with
  | _ n ih =>
    cases hend : lineEnd chunk offset with
    | none =>
      exact ⟨self, offset, afterCR, feedLoop_incomplete parseInt hend, h, le_refl offset, rfl,
        not_terminator_of_lineEnd hend⟩
    | some index =>
      have hlt : offset < chunk.length := by
        obtain ⟨text, byte, rest, hdrop, -⟩ := split_of_lineEnd hend
        by_contra hge
        rw [List.drop_eq_nil_of_le (by omega)] at hdrop
        simp at hdrop
      have hindex := le_of_lineEnd hend
      have hnext := lt_nextLine chunk index
      obtain ⟨flag, hat, hscan⟩ := loop_step parseInt h hend
      obtain ⟨parser, stop, afterCR', hloop, hat', hle, hscan', hstop⟩ :=
        ih (chunk.length - nextLine chunk index) (by omega) hat rfl
      rw [feedLoop_complete parseInt hlt hend]
      exact ⟨parser, stop, afterCR', hloop, hat', by omega, hscan.trans hscan', hstop⟩

/-- A chunk is read byte by byte. -/
theorem toScan_feed {self : SSEParser N} (hflushed : self.decoder.doNotFlush = false)
    (chunk : Bytes) :
    (self.feed parseInt chunk).decoder.doNotFlush = false ∧
      (self.feed parseInt chunk).toScan = chunk.foldl (scanByte parseInt) self.toScan := by
  by_cases hempty : chunk.length = 0
  · obtain rfl := List.length_eq_zero_iff.mp hempty
    exact ⟨hflushed, rfl⟩
  -- an LF at the start of the chunk may belong to the CR of the chunk before
  obtain ⟨offset, afterCR, hoffset, hat, hstart⟩ : ∃ offset afterCR,
      offset = (if self.endedOnCR ∧ chunk[0]? = some Chr.LF then 1 else 0) ∧
      AtOffset chunk { self with endedOnCR := false } offset afterCR ∧
      chunk.foldl (scanByte parseInt) self.toScan =
        scanRest parseInt chunk { self with endedOnCR := false } offset afterCR := by
    by_cases hskip : self.endedOnCR ∧ chunk[0]? = some Chr.LF
    · obtain ⟨byte, rest, rfl⟩ :=
        List.exists_cons_of_ne_nil (List.length_eq_zero_iff.not.mp hempty)
      obtain rfl : byte = Chr.LF := by simpa using hskip.2
      refine ⟨1, false, (if_pos hskip).symm, ⟨?_, hflushed, rfl, ?_, nofun⟩, ?_⟩
      · simp
      · simp [Chr.CR, Chr.LF]
      · simp [scanRest, scanAt, toScan, scanByte, hskip.1, core]
    · refine ⟨0, self.endedOnCR, (if_neg hskip).symm, ⟨?_, hflushed, rfl, nofun, ?_⟩, rfl⟩
      · exact Nat.zero_le _
      · exact fun hcr hlf => hskip ⟨hcr, hlf⟩
  obtain ⟨parser, stop, flag, hloop, hat', -, hscan, hstop⟩ := feedLoop_spec parseInt hat
  have hfeed : self.feed parseInt chunk =
      if stop < chunk.length then { parser with buffer := parser.buffer ++ [chunk.drop stop] }
      else { parser with endedOnCR := chunk.getLast? = some Chr.CR } := by
    rw [feed, if_neg hempty]
    simp only [← hoffset, hloop]
  rw [hstart, hscan, scanRest, scan_text parseInt _ hstop, hfeed]
  by_cases hstop' : stop < chunk.length
  · rw [if_pos hstop']
    have hrest : chunk.drop stop ≠ [] := by simpa using hstop'
    exact ⟨hat'.flushed, by simp [toScan, scanAt, core, hrest, hat'.notEnded]⟩
  · rw [if_neg hstop']
    obtain rfl : stop = chunk.length := le_antisymm hat'.le (by omega)
    have hlast := hat'.before (by omega)
    rw [← List.getLast?_eq_getElem?] at hlast
    have hflag : flag = decide (chunk.getLast? = some Chr.CR) := by
      rw [Bool.eq_iff_iff, hlast, decide_eq_true_iff]
    exact ⟨hat'.flushed, by simp [toScan, scanAt, core, hflag]⟩

/-- Chunks are read byte by byte. -/
theorem toScan_feeds {self : SSEParser N} (hflushed : self.decoder.doNotFlush = false)
    (chunks : List Bytes) :
    (chunks.foldl (feed parseInt) self).toScan =
      chunks.flatten.foldl (scanByte parseInt) self.toScan := by
  induction chunks generalizing self with
  | nil => rfl
  | cons chunk rest ih =>
    obtain ⟨hflushed', hscan⟩ := toScan_feed parseInt hflushed chunk
    rw [List.foldl_cons, ih hflushed', hscan, List.flatten_cons, List.foldl_append]

/-- The events, their fields and the last event id depend on the bytes alone. -/
theorem feed_chunks (chunks : List Bytes) :
    (chunks.foldl (feed parseInt) new).events = (new.feed parseInt chunks.flatten).events ∧
      (chunks.foldl (feed parseInt) new).getLastEventId =
        (new.feed parseInt chunks.flatten).getLastEventId := by
  have hnew : (new : SSEParser N).decoder.doNotFlush = false := rfl
  have hchunks := toScan_feeds parseInt hnew chunks
  have hwhole := (toScan_feed parseInt hnew chunks.flatten).2
  have hcore : (chunks.foldl (feed parseInt) new).core = (new.feed parseInt chunks.flatten).core :=
    congrArg Scan.parser (hchunks.trans hwhole.symm)
  constructor
  · have h := congrArg events hcore
    exact h
  · have h := congrArg lastEventIdBuffer hcore
    exact h

/-- A CR LF cut in two ends one line. -/
example : (([[100, 97, 116, 97, 58, 226], [130, 172, 13], [10, 13], [10]] : List Bytes).foldl
    (feed fun value => value) new).events = [⟨ascii "message", [0x20AC], none, none⟩] := by
  decide +kernel

end SSEParser

end

end NexgileIde.Sse
