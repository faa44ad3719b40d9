import NexgileIde.Text.CodeUnits

/-!
# Iterators over keys

A search tree sees a key as the segments its iterator stops at. The iterators move
offsets over the key; what a walk through the tree needs of them is gathered in one list
of positions.
-/

namespace NexgileIde.SearchTree

open Text

/-- Where an iterator stands: its segment, and its comparison of a node's segment with it. -/
structure Position (S : Type) where
  value : S
  cmp : S → ℤ

/-- `remaining` bounds how often `next` can be called. A key may be falsy, which `delete`
asks. -/
structure KeyIterator (K S : Type) where
  State : Type
  reset : K → State
  next : State → State
  hasNext : State → Bool
  cmp : State → S → ℤ
  value : State → S
  truthy : K → Bool
  remaining : State → ℕ
  remaining_next : ∀ s, hasNext s = true → remaining (next s) < remaining s

namespace KeyIterator

variable {K S : Type} (iter : KeyIterator K S)

def position (s : iter.State) : Position S := ⟨iter.value s, iter.cmp s⟩

/-- The positions after `s`, at most `n` of them. -/
def positionsAfter : ℕ → iter.State → List (Position S)
  | 0, _ => []
  | n + 1, s =>
    if iter.hasNext s then iter.position (iter.next s) :: positionsAfter n (iter.next s) else []

/-- All positions of a key; the first is there for every key. -/
def positions (key : K) : Position S × List (Position S) :=
  let s := iter.reset key
  (iter.position s, iter.positionsAfter (iter.remaining s) s)

/-- The segments of a key. -/
def segments (key : K) : List S :=
  let (p, rest) := iter.positions key
  p.value :: rest.map Position.value

theorem positionsAfter_of_le {n : ℕ} {s : iter.State} (h : iter.remaining s ≤ n) :
    iter.positionsAfter n s = iter.positionsAfter (iter.remaining s) s := by
  induction hm : iter.remaining s using Nat.strong_induction_on generalizing n s with
  | _ m ih =>
    subst hm
    by_cases hn : iter.hasNext s = true
    · have hlt := iter.remaining_next s hn
      obtain ⟨n, rfl⟩ : ∃ m, n = m + 1 := ⟨n - 1, by omega⟩
      obtain ⟨m, hm⟩ : ∃ m, iter.remaining s = m + 1 := ⟨iter.remaining s - 1, by omega⟩
      rw [hm, positionsAfter, positionsAfter, if_pos hn, if_pos hn,
        ih _ hlt (n := n) (by omega) rfl, ih _ hlt (n := m) (by omega) rfl]
    · cases n <;> cases iter.remaining s <;> simp [positionsAfter, hn]

/-- Every position `next` leads to is listed, whatever `remaining` says. -/
theorem positionsAfter_remaining (s : iter.State) :
    iter.positionsAfter (iter.remaining s) s =
      if iter.hasNext s then
        iter.position (iter.next s) ::
          iter.positionsAfter (iter.remaining (iter.next s)) (iter.next s)
      else [] := by
  by_cases hn : iter.hasNext s = true
  · have hlt := iter.remaining_next s hn
    obtain ⟨m, hm⟩ : ∃ m, iter.remaining s = m + 1 := ⟨iter.remaining s - 1, by omega⟩
    rw [hm, positionsAfter, if_pos hn, if_pos hn, iter.positionsAfter_of_le (by omega)]
  · cases iter.remaining s <;> simp [positionsAfter, hn]

end KeyIterator

instance : LinearOrder CodeUnit where
  le_refl a := UInt16.le_refl a
  le_trans _ _ _ := UInt16.le_trans
  le_antisymm _ _ := UInt16.le_antisymm
  le_total := UInt16.le_total
  lt_iff_le_not_ge a b := by
    rw [UInt16.not_le]
    exact ⟨fun h => ⟨UInt16.le_of_lt h, h⟩, fun h => h.2⟩
  toDecidableLE := inferInstance

/-- `value.charCodeAt(pos)`, for an offset in the string -/
def charCodeAt (value : Str) (pos : ℕ) : CodeUnit := value.getD pos 0

/-- The comparison of two ranges by their first different unit, or else by their lengths. -/
def compareUnits : Str → Str → ℤ
  | a :: as, b :: bs => if a < b then -1 else if b < a then 1 else compareUnits as bs
  | [], [] => 0
  | [], _ :: _ => -1
  | _ :: _, [] => 1

/-- `<` on strings compares their code units. -/
def compare (a b : Str) : ℤ := if a < b then -1 else if b < a then 1 else 0

/-- Both ranges lie in their strings. -/
def compareSubstring (a b : Str) (aStart aEnd bStart bEnd : ℕ) : ℤ :=
  compareUnits (substring a aStart aEnd) (substring b bStart bEnd)

def isLowerAsciiLetter (code : CodeUnit) : Bool := 97 ≤ code && code ≤ 122

/-- lower ascii letters onto upper-case variants -/
def upperAscii (code : CodeUnit) : CodeUnit :=
  if isLowerAsciiLetter code then code - 32 else code

/-- `n` units of both ranges are left to compare. `toLowerCase` is the platform's; it is
asked as soon as different units are not both ASCII. -/
def compareIgnoreCaseFrom (toLowerCase : Str → Str) (a b : Str) (aEnd bEnd : ℕ) :
    ℕ → ℕ → ℕ → ℤ
  | 0, aStart, bStart =>
    if aEnd - aStart < bEnd - bStart then -1
    else if aEnd - aStart > bEnd - bStart then 1
    else 0
  | n + 1, aStart, bStart =>
    let codeA := charCodeAt a aStart
    let codeB := charCodeAt b bStart
    if codeA = codeB then
      compareIgnoreCaseFrom toLowerCase a b aEnd bEnd n (aStart + 1) (bStart + 1)
    else if codeA ≥ 128 ∨ codeB ≥ 128 then
      compareSubstring (toLowerCase a) (toLowerCase b) aStart aEnd bStart bEnd
    else
      let diff : ℤ := (upperAscii codeA).toNat - (upperAscii codeB).toNat
      if diff = 0 then
        compareIgnoreCaseFrom toLowerCase a b aEnd bEnd n (aStart + 1) (bStart + 1)
      else diff

def compareSubstringIgnoreCase (toLowerCase : Str → Str) (a b : Str)
    (aStart aEnd bStart bEnd : ℕ) : ℤ :=
  compareIgnoreCaseFrom toLowerCase a b aEnd bEnd (min (aEnd - aStart) (bEnd - bStart))
    aStart bStart

def compareIgnoreCase (toLowerCase : Str → Str) (a b : Str) : ℤ :=
  compareSubstringIgnoreCase toLowerCase a b 0 a.length 0 b.length

section Compare

theorem compareUnits_spec (a b : Str) :
    (compareUnits a b < 0 ↔ a < b) ∧ (0 < compareUnits a b ↔ b < a) := by
  fun_induction compareUnits a b with
  | case1 a as b bs h => simp [List.cons_lt_cons_iff, h, h.ne', h.not_gt]
  | case2 a as b bs h h' => simp [List.cons_lt_cons_iff, h', h'.ne', h'.not_gt]
  | case3 a as b bs h h' ih =>
    obtain rfl : a = b := le_antisymm (not_lt.mp h') (not_lt.mp h)
    simpa [List.cons_lt_cons_iff] using ih
  | case4 => simp
  | case5 => simp
  | case6 => simp

theorem compare_self (a : Str) : compare a a = 0 := by
  simp [compare]

theorem compareIgnoreCaseFrom_self (toLowerCase : Str → Str) (a : Str) (n start aEnd : ℕ) :
    compareIgnoreCaseFrom toLowerCase a a aEnd aEnd n start start = 0 := by
  induction n generalizing start with
  | zero => simp [compareIgnoreCaseFrom]
  | succ n ih => simp [compareIgnoreCaseFrom, ih]

theorem compareIgnoreCase_self (toLowerCase : Str → Str) (a : Str) :
    compareIgnoreCase toLowerCase a a = 0 :=
  compareIgnoreCaseFrom_self toLowerCase a _ 0 a.length

end Compare

/-- `_value[_pos]` is one code unit; `''[0]` does not occur, keys are not empty. -/
structure StringState where
  value : Str
  pos : ℕ
  deriving DecidableEq, Repr

def StringIterator : KeyIterator Str CodeUnit where
  State := StringState
  reset key := ⟨key, 0⟩
  next s := { s with pos := s.pos + 1 }
  hasNext s := s.pos + 1 < s.value.length
  cmp s a := (a.toNat : ℤ) - (charCodeAt s.value s.pos).toNat
  value s := charCodeAt s.value s.pos
  truthy key := !key.isEmpty
  remaining s := s.value.length - s.pos
  remaining_next s h := by
    simp only [decide_eq_true_eq] at h
    dsimp only
    omega

/-- The segment from `start` to `stop` of a value that is read up to `len`. -/
structure SegmentState where
  value : Str
  len : ℕ
  start : ℕ
  stop : ℕ
  deriving DecidableEq, Repr

/-- The loop of `next`, with `n` units left: leading separators are passed, and the first
separator after other units ends the segment. -/
def scanSegment (isSeparator : CodeUnit → Bool) (value : Str) :
    ℕ → ℕ → ℕ → Bool → ℕ × ℕ
  | 0, start, stop, _ => (start, stop)
  | n + 1, start, stop, justSeps =>
    if isSeparator (charCodeAt value stop) then
      if justSeps then scanSegment isSeparator value n (start + 1) (stop + 1) true
      else (start, stop)
    else scanSegment isSeparator value n start (stop + 1) false

def SegmentState.next (isSeparator : CodeUnit → Bool) (s : SegmentState) : SegmentState :=
  let (start, stop) :=
    scanSegment isSeparator s.value (s.len - s.stop) s.stop s.stop true
  { s with start := start, stop := stop }

def SegmentState.hasNext (s : SegmentState) : Bool := s.stop < s.len

def SegmentState.segment (s : SegmentState) : Str := substring s.value s.start s.stop

def SegmentState.cmp (toLowerCase : Str → Str) (caseSensitive : Bool) (s : SegmentState)
    (a : Str) : ℤ :=
  if caseSensitive then compareSubstring a s.value 0 a.length s.start s.stop
  else compareSubstringIgnoreCase toLowerCase a s.value 0 a.length s.start s.stop

theorem scanSegment_stop (isSeparator : CodeUnit → Bool) (value : Str) (n start stop : ℕ)
    (justSeps : Bool) :
    stop ≤ (scanSegment isSeparator value n start stop justSeps).2 ∧
      (scanSegment isSeparator value n start stop justSeps).2 ≤ stop + n ∧
      (justSeps = true → 0 < n →
        stop < (scanSegment isSeparator value n start stop justSeps).2) := by
  induction n generalizing start stop justSeps with
  | zero => simp [scanSegment]
  | succ n ih =>
    rw [scanSegment]
    split
    · split
      · have := ih (start + 1) (stop + 1) true
        omega
      · simp_all
    · have := ih start (stop + 1) false
      omega

theorem SegmentState.stop_next (isSeparator : CodeUnit → Bool) {s : SegmentState}
    (h : s.hasNext = true) :
    s.stop < (s.next isSeparator).stop ∧ (s.next isSeparator).stop ≤ s.len := by
  simp only [SegmentState.hasNext, decide_eq_true_eq] at h
  obtain ⟨-, hle, hlt⟩ :=
    scanSegment_stop isSeparator s.value (s.len - s.stop) s.stop s.stop true
  have := hlt rfl (by omega)
  simp only [SegmentState.next]
  omega

def Period : CodeUnit := 46

def Slash : CodeUnit := 47

def Backslash : CodeUnit := 92

def ConfigKeysIterator (toLowerCase : Str → Str) (caseSensitive : Bool) :
    KeyIterator Str Str where
  State := SegmentState
  reset key := SegmentState.next (· == Period) ⟨key, key.length, 0, 0⟩
  next := SegmentState.next (· == Period)
  hasNext := SegmentState.hasNext
  cmp := SegmentState.cmp toLowerCase caseSensitive
  value := SegmentState.segment
  truthy key := !key.isEmpty
  remaining s := s.len - s.stop
  remaining_next s h := by
    have := SegmentState.stop_next (· == Period) h
    have hlen : (s.next (· == Period)).len = s.len := rfl
    simp only [SegmentState.hasNext, decide_eq_true_eq] at h
    omega

def isPathSeparator (splitOnBackslash : Bool) (ch : CodeUnit) : Bool :=
  ch == Slash || splitOnBackslash && ch == Backslash

/-- `reset`: separators at the end are not read. -/
def PathIterator.reset (splitOnBackslash : Bool) (key : Str) : SegmentState :=
  SegmentState.next (isPathSeparator splitOnBackslash)
    ⟨key, (key.reverse.dropWhile (isPathSeparator splitOnBackslash)).length, 0, 0⟩

def PathIterator (toLowerCase : Str → Str) (splitOnBackslash caseSensitive : Bool) :
    KeyIterator Str Str where
  State := SegmentState
  reset := PathIterator.reset splitOnBackslash
  next := SegmentState.next (isPathSeparator splitOnBackslash)
  hasNext := SegmentState.hasNext
  cmp := SegmentState.cmp toLowerCase caseSensitive
  value := SegmentState.segment
  truthy key := !key.isEmpty
  remaining s := s.len - s.stop
  remaining_next s h := by
    have := SegmentState.stop_next (isPathSeparator splitOnBackslash) h
    have hlen : (s.next (isPathSeparator splitOnBackslash)).len = s.len := rfl
    simp only [SegmentState.hasNext, decide_eq_true_eq] at h
    omega

end NexgileIde.SearchTree
