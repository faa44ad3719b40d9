import NexgileIde.Text.TextLength

/-!
# Blocks of semantic tokens

A block keeps its tokens in one array, each with its line counted from the start of the
block. The storage changes the array in place: tokens move to the left over those that have
been deleted.
-/
namespace NexgileIde.Tokens

open Text (Range)

/-- `4*i` to `4*i + 3` of the array. The numbers stay far below `2^32`. -/
structure SparseToken where
  deltaLine : ℤ
  startCharacter : ℤ
  endCharacter : ℤ
  metadata : BitVec 32
  deriving DecidableEq, Repr

/-- A token that is not before the start of a range. -/
def SparseToken.reaches (token : SparseToken) (startDeltaLine startChar : ℤ) : Bool :=
  token.deltaLine > startDeltaLine ∨
    token.deltaLine = startDeltaLine ∧ token.endCharacter ≥ startChar

/-- A token that is not behind the end of a range. -/
def SparseToken.startsWithin (token : SparseToken) (endDeltaLine endChar : ℤ) : Bool :=
  token.deltaLine < endDeltaLine ∨
    token.deltaLine = endDeltaLine ∧ token.startCharacter ≤ endChar

/-- The tokens of a block, without the part of the array that is no longer used. -/
structure SparseMultilineTokensStorage where
  tokens : List SparseToken
  deriving DecidableEq, Repr

namespace SparseMultilineTokensStorage

def isEmpty (s : SparseMultilineTokensStorage) : Bool := s.tokens.isEmpty

def getMaxDeltaLine (s : SparseMultilineTokensStorage) : ℤ :=
  (s.tokens.getLast?).elim (-1) (·.deltaLine)

def getRange (s : SparseMultilineTokensStorage) : Option Range :=
  match s.tokens.head?, s.tokens.getLast? with
  | some first, some last =>
    some (.new 0 (first.startCharacter + 1) last.deltaLine (last.endCharacter + 1))
  | _, _ => none

/-- `while (min > low && this._getDeltaLine(min - 1) === deltaLine) { min--; }` -/
def walkDown (s : SparseMultilineTokensStorage) (deltaLine : ℤ) (low : ℕ) : ℕ → ℕ
  | 0 => 0
  | min + 1 =>
    if low < min + 1 ∧ (s.tokens[min]?).map (·.deltaLine) = some deltaLine then
      walkDown s deltaLine low min
    else min + 1

/-- `while (max < high && this._getDeltaLine(max + 1) === deltaLine) { max++; }`, where one
turn takes one unit of fuel. -/
def walkUp (s : SparseMultilineTokensStorage) (deltaLine : ℤ) (high : ℕ) : ℕ → ℕ → ℕ
  | 0, max => max
  | fuel + 1, max =>
    if max < high ∧ (s.tokens[max + 1]?).map (·.deltaLine) = some deltaLine then
      walkUp s deltaLine high fuel (max + 1)
    else max

/-- The search of `getLineTokens`, where one turn takes one unit of fuel. -/
def getLineTokensLoop (s : SparseMultilineTokensStorage) (deltaLine : ℤ) :
    ℕ → ℤ → ℤ → Option (List SparseToken)
  | 0, _, _ => none
  | fuel + 1, low, high =>
    if low < high then
      let mid := low + (high - low) / 2
      match s.tokens[mid.toNat]? with
      | none => none
      | some midToken =>
        if midToken.deltaLine < deltaLine then getLineTokensLoop s deltaLine fuel (mid + 1) high
        else if midToken.deltaLine > deltaLine then
          getLineTokensLoop s deltaLine fuel low (mid - 1)
        else
          let min := walkDown s deltaLine low.toNat mid.toNat
          let max := walkUp s deltaLine high.toNat s.tokens.length mid.toNat
          some ((s.tokens.take (max + 1)).drop min)
    else
      match s.tokens[low.toNat]? with
      | some token => if token.deltaLine = deltaLine then some [token] else none
      | none => none

def getLineTokens (s : SparseMultilineTokensStorage) (deltaLine : ℤ) : Option (List SparseToken) :=
  getLineTokensLoop s deltaLine (s.tokens.length + 1) 0 (s.tokens.length - 1)

/-- The loop of `removeTokens`. A token that stays is written with its line counted from the
first one that stays, wherever it is written to. -/
def removeTokensLoop (startDeltaLine startChar endDeltaLine endChar : ℤ) :
    List SparseToken → ℤ → List SparseToken → List SparseToken × ℤ
  | kept, firstDeltaLine, [] => (kept, firstDeltaLine)
  | kept, firstDeltaLine, token :: rest =>
    if token.reaches startDeltaLine startChar ∧ token.startsWithin endDeltaLine endChar then
      removeTokensLoop startDeltaLine startChar endDeltaLine endChar kept firstDeltaLine rest
    else
      let firstDeltaLine := if kept.isEmpty then token.deltaLine else firstDeltaLine
      removeTokensLoop startDeltaLine startChar endDeltaLine endChar
        (kept ++ [{ token with deltaLine := token.deltaLine - firstDeltaLine }]) firstDeltaLine rest

/-- The tokens that stay, and the line of the first of them. -/
def removeTokens (s : SparseMultilineTokensStorage) (startDeltaLine startChar endDeltaLine
    endChar : ℤ) : SparseMultilineTokensStorage × ℤ :=
  let (kept, firstDeltaLine) :=
    removeTokensLoop startDeltaLine startChar endDeltaLine endChar [] 0 s.tokens
  (⟨kept⟩, firstDeltaLine)

/-- The variables of the loop of `split`; `destIsB` is `destTokens === bTokens`. -/
structure Split where
  aTokens : List SparseToken
  bTokens : List SparseToken
  destIsB : Bool
  destFirstDeltaLine : ℤ

/-- One turn of the loop of `split`. -/
def splitToken (startDeltaLine startChar endDeltaLine endChar : ℤ) (st : Split)
    (token : SparseToken) : Split :=
  if token.reaches startDeltaLine startChar ∧ token.startsWithin endDeltaLine endChar then st
  else
    let st :=
      if token.reaches startDeltaLine startChar ∧ ¬ st.destIsB then
        -- the first token after the range
        { st with destIsB := true, destFirstDeltaLine := token.deltaLine }
      else st
    let written := { token with deltaLine := token.deltaLine - st.destFirstDeltaLine }
    if st.destIsB then { st with bTokens := st.bTokens ++ [written] }
    else { st with aTokens := st.aTokens ++ [written] }

def split (s : SparseMultilineTokensStorage) (startDeltaLine startChar endDeltaLine endChar : ℤ) :
    SparseMultilineTokensStorage × SparseMultilineTokensStorage × ℤ :=
  let st := s.tokens.foldl (splitToken startDeltaLine startChar endDeltaLine endChar)
    ⟨[], [], false, 0⟩
  (⟨st.aTokens⟩, ⟨st.bTokens⟩, st.destFirstDeltaLine)

end SparseMultilineTokensStorage

/-- Sparse tokens over a contiguous range of lines, the last one included. -/
structure SparseMultilineTokens where
  startLineNumber : ℤ
  endLineNumber : ℤ
  tokens : SparseMultilineTokensStorage
  deriving DecidableEq, Repr

namespace SparseMultilineTokens

def create (startLineNumber : ℤ) (tokens : SparseMultilineTokensStorage) : SparseMultilineTokens :=
  ⟨startLineNumber, startLineNumber + tokens.getMaxDeltaLine, tokens⟩

def updateEndLineNumber (s : SparseMultilineTokens) : SparseMultilineTokens :=
  { s with endLineNumber := s.startLineNumber + s.tokens.getMaxDeltaLine }

def isEmpty (s : SparseMultilineTokens) : Bool := s.tokens.isEmpty

def getLineTokens (s : SparseMultilineTokens) (lineNumber : ℤ) : Option (List SparseToken) :=
  if s.startLineNumber ≤ lineNumber ∧ lineNumber ≤ s.endLineNumber then
    s.tokens.getLineTokens (lineNumber - s.startLineNumber)
  else none

def getRange (s : SparseMultilineTokens) : Option Range :=
  s.tokens.getRange.map fun deltaRange =>
    .new (s.startLineNumber + deltaRange.startLineNumber) deltaRange.startColumn
      (s.startLineNumber + deltaRange.endLineNumber) deltaRange.endColumn

def removeTokens (s : SparseMultilineTokens) (range : Range) : SparseMultilineTokens :=
  let (tokens, firstDeltaLine) := s.tokens.removeTokens
    (range.startLineNumber - s.startLineNumber) (range.startColumn - 1)
    (range.endLineNumber - s.startLineNumber) (range.endColumn - 1)
  updateEndLineNumber ⟨s.startLineNumber + firstDeltaLine, s.endLineNumber, tokens⟩

/-- The tokens before a range, and those after it. -/
def split (s : SparseMultilineTokens) (range : Range) :
    SparseMultilineTokens × SparseMultilineTokens :=
  let (a, b, bDeltaLine) := s.tokens.split
    (range.startLineNumber - s.startLineNumber) (range.startColumn - 1)
    (range.endLineNumber - s.startLineNumber) (range.endColumn - 1)
  (create s.startLineNumber a, create (s.startLineNumber + bDeltaLine) b)

end SparseMultilineTokens

end NexgileIde.Tokens
