import NexgileIde.Base.Uint

/-!
# Two computers of prefix sums

Both keep sums of the first values, of which those behind a valid index are out of date. The
second one also has a table from sums to indices.
-/
namespace NexgileIde.PrefixSum

open Base

structure PrefixSumIndexOfResult where
  index : ℤ
  remainder : ℤ
  deriving DecidableEq, Repr

/-! ## Typed arrays -/

/-- A `Uint32Array`, whose values are below `2 ^ 32`. -/
abbrev Uint32Array := List ℕ

namespace Uint32Array

def new (length : ℕ) : Uint32Array := List.replicate length 0

/-- `array[index]`, where there is nothing outside of the array. -/
def read (array : Uint32Array) (index : ℤ) : Option ℕ :=
  if index < 0 then none else array[index.toNat]?

/-- `array[index] = value`, which does nothing outside of the array. -/
def write (array : Uint32Array) (index value : ℤ) : Uint32Array :=
  if index < 0 then array else List.set array index.toNat (value % 2 ^ 32).toNat

/-- An index counted from the end when it is negative. -/
def relativeIndex (array : Uint32Array) (index : ℤ) : ℕ :=
  if index < 0 then (array.length + index).toNat else min index.toNat array.length

def subarrayTo (array : Uint32Array) (stop : ℤ) : Uint32Array :=
  array.take (array.relativeIndex stop)

def subarrayFrom (array : Uint32Array) (start : ℤ) : Uint32Array :=
  array.drop (array.relativeIndex start)

/-- `array.set(source, offset)`, where `none` is a `RangeError`. -/
def setAll (array source : Uint32Array) (offset : ℤ) : Option Uint32Array :=
  if offset < 0 ∨ offset + source.length > array.length then none
  else some (array.take offset.toNat ++ (source ++ array.drop (offset.toNat + source.length)))

end Uint32Array

structure PrefixSumComputer where
  values : Uint32Array
  prefixSum : Uint32Array
  /-- The one entry of an `Int32Array`. -/
  prefixSumValidIndex : ℤ

namespace PrefixSumComputer

def new (values : List ℕ) : PrefixSumComputer :=
  { values, prefixSum := .new values.length, prefixSumValidIndex := -1 }

def setValidIndex (c : PrefixSumComputer) (index : ℤ) : PrefixSumComputer :=
  { c with prefixSumValidIndex := toInt32 index }

def lowerValidIndex (c : PrefixSumComputer) (index : ℤ) : PrefixSumComputer :=
  if index < c.prefixSumValidIndex then c.setValidIndex index else c

/-- New sums, of which the valid ones are taken over. -/
def renewPrefixSum (c : PrefixSumComputer) (oldPrefixSum : Uint32Array) :
    Option PrefixSumComputer := do
  let prefixSum := Uint32Array.new c.values.length
  if c.prefixSumValidIndex ≥ 0 then
    let prefixSum ← prefixSum.setAll (oldPrefixSum.subarrayTo (c.prefixSumValidIndex + 1)) 0
    return { c with prefixSum }
  else return { c with prefixSum }

def insertValues (c : PrefixSumComputer) (insertIndex : ℤ) (insertValues : Uint32Array) :
    Option (Bool × PrefixSumComputer) := do
  let insertIndex := toUint32 insertIndex
  let oldValues := c.values
  let oldPrefixSum := c.prefixSum
  let insertValuesLen := insertValues.length
  if insertValuesLen = 0 then return (false, c)
  let values := Uint32Array.new (oldValues.length + insertValuesLen)
  let values ← values.setAll (oldValues.subarrayTo insertIndex) 0
  let values ← values.setAll (oldValues.subarrayFrom insertIndex) (insertIndex + insertValuesLen)
  let values ← values.setAll insertValues insertIndex
  let c := { c with values }.lowerValidIndex (insertIndex - 1)
  let c ← c.renewPrefixSum oldPrefixSum
  return (true, c)

def setValue (c : PrefixSumComputer) (index value : ℤ) : Bool × PrefixSumComputer :=
  let index := toUint32 index
  let value := toUint32 value
  if (c.values.read index).any fun (old : ℕ) => (old : ℤ) = value then (false, c)
  else
    let c := { c with values := c.values.write index value }
    (true, c.lowerValidIndex (index - 1))

def removeValues (c : PrefixSumComputer) (startIndex count : ℤ) :
    Option (Bool × PrefixSumComputer) := do
  let startIndex := toUint32 startIndex
  let count := toUint32 count
  let oldValues := c.values
  let oldPrefixSum := c.prefixSum
  if startIndex ≥ oldValues.length then return (false, c)
  let maxCount := oldValues.length - startIndex
  let count := if count ≥ maxCount then maxCount else count
  if count = 0 then return (false, c)
  let values := Uint32Array.new (oldValues.length - count).toNat
  let values ← values.setAll (oldValues.subarrayTo startIndex) 0
  let values ← values.setAll (oldValues.subarrayFrom (startIndex + count)) startIndex
  let c := { c with values }.lowerValidIndex (startIndex - 1)
  let c ← c.renewPrefixSum oldPrefixSum
  return (true, c)

/-- The loop of `_getPrefixSum`, with the number of its turns. -/
def sumLoop (values : Uint32Array) (prefixSum : Uint32Array) (i : ℤ) : ℕ → Uint32Array
  | 0 => prefixSum
  | turns + 1 =>
    let sum := (prefixSum.read (i - 1)).getD 0 + (values.read i).getD 0
    sumLoop values (prefixSum.write i sum) (i + 1) turns

def getPrefixSumAt (c : PrefixSumComputer) (index : ℤ) : Option ℕ × PrefixSumComputer :=
  if index ≤ c.prefixSumValidIndex then (c.prefixSum.read index, c)
  else
    let startIndex := c.prefixSumValidIndex + 1
    let (prefixSum, startIndex) :=
      if startIndex = 0 then (c.prefixSum.write 0 ((c.values.read 0).getD 0), startIndex + 1)
      else (c.prefixSum, startIndex)
    let index := if index ≥ c.values.length then (c.values.length : ℤ) - 1 else index
    let prefixSum := sumLoop c.values prefixSum startIndex (index + 1 - startIndex).toNat
    (prefixSum.read index,
      { c with prefixSum }.setValidIndex (max c.prefixSumValidIndex index))

def getTotalSum (c : PrefixSumComputer) : Option ℕ × PrefixSumComputer :=
  if c.values.length = 0 then (some 0, c)
  else c.getPrefixSumAt (c.values.length - 1)

def getPrefixSum (c : PrefixSumComputer) (index : ℤ) : Option ℕ × PrefixSumComputer :=
  if index < 0 then (some 0, c)
  else c.getPrefixSumAt (toUint32 index)

/-- The loop of `getIndexOf`, where one turn takes one unit of fuel. -/
def indexOfLoop (values prefixSum : Uint32Array) (sum : ℤ) :
    ℕ → ℤ → ℤ → ℤ → ℤ → PrefixSumIndexOfResult
  | 0, _, _, mid, midStart => ⟨mid, sum - midStart⟩
  | fuel + 1, low, high, mid, midStart =>
    if low ≤ high then
      let mid := toInt32 ((low + high) / 2)
      let midStop : ℤ := (prefixSum.read mid).getD 0
      let midStart := midStop - (values.read mid).getD 0
      if sum < midStart then indexOfLoop values prefixSum sum fuel low (mid - 1) mid midStart
      else if sum ≥ midStop then
        indexOfLoop values prefixSum sum fuel (mid + 1) high mid midStart
      else ⟨mid, sum - midStart⟩
    else ⟨mid, sum - midStart⟩

def getIndexOf (c : PrefixSumComputer) (sum : ℤ) : PrefixSumIndexOfResult × PrefixSumComputer :=
  let c := c.getTotalSum.2
  (indexOfLoop c.values c.prefixSum sum c.values.length 0 (c.values.length - 1) 0 0, c)

end PrefixSumComputer

/-! ## Arrays with holes -/

/-- `array[index] = value`, with holes in front of it when the array is too short. -/
def assignAt {T : Type} (array : List (Option T)) (index : ℕ) (value : T) : List (Option T) :=
  if index < array.length then array.set index (some value)
  else array ++ List.replicate (index - array.length) none ++ [some value]

/-- `array.length = length` -/
def setLength {T : Type} (array : List (Option T)) (length : ℕ) : List (Option T) :=
  array.take length ++ List.replicate (length - array.length) none

structure ConstantTimePrefixSumComputer where
  values : List ℕ
  isValid : Bool
  validEndIndex : ℤ
  prefixSum : List (Option ℕ)
  indexBySum : List (Option ℕ)

namespace ConstantTimePrefixSumComputer

def new (values : List ℕ) : ConstantTimePrefixSumComputer :=
  { values, isValid := false, validEndIndex := -1, prefixSum := [], indexBySum := [] }

/-- `this._prefixSum[index]` -/
def readSum (prefixSum : List (Option ℕ)) (index : ℕ) : Option ℕ := (prefixSum[index]?).join

/-- The sums from `sumAbove + j` on fall into the value at an index. -/
def indexLoop (sumAbove i : ℕ) (indexBySum : List (Option ℕ)) (j : ℕ) : ℕ → List (Option ℕ)
  | 0 => indexBySum
  | turns + 1 =>
    indexLoop sumAbove i (assignAt indexBySum (sumAbove + j) i) (j + 1) turns

/-- The loop of `_ensureValid` over the values from an index on. -/
def validateLoop (prefixSum indexBySum : List (Option ℕ)) (i : ℕ) :
    List ℕ → List (Option ℕ) × List (Option ℕ)
  | [] => (prefixSum, indexBySum)
  | value :: values =>
    let sumAbove := if i > 0 then (readSum prefixSum (i - 1)).getD 0 else 0
    validateLoop (assignAt prefixSum i (sumAbove + value)) (indexLoop sumAbove i indexBySum 0 value)
      (i + 1) values

def ensureValid (c : ConstantTimePrefixSumComputer) : ConstantTimePrefixSumComputer :=
  if c.isValid then c
  else
    let start := (c.validEndIndex + 1).toNat
    let (prefixSum, indexBySum) :=
      validateLoop c.prefixSum c.indexBySum start (c.values.drop start)
    let prefixSum := setLength prefixSum c.values.length
    let total := if c.values.length > 0 then (readSum prefixSum (c.values.length - 1)).getD 0 else 0
    { c with
      prefixSum
      indexBySum := setLength indexBySum total
      isValid := true
      validEndIndex := c.values.length - 1 }

def getTotalSum (c : ConstantTimePrefixSumComputer) : ℕ × ConstantTimePrefixSumComputer :=
  let c := c.ensureValid
  (c.indexBySum.length, c)

def getPrefixSum (c : ConstantTimePrefixSumComputer) (count : ℕ) :
    Option ℕ × ConstantTimePrefixSumComputer :=
  let c := c.ensureValid
  (if count = 0 then some 0 else readSum c.prefixSum (count - 1), c)

def getIndexOf (c : ConstantTimePrefixSumComputer) (sum : ℕ) :
    PrefixSumIndexOfResult × ConstantTimePrefixSumComputer :=
  let c := c.ensureValid
  (match (c.indexBySum[sum]?).join with
    | none =>
      let lastIdx := max 0 ((c.values.length : ℤ) - 1)
      let lastPrefixSum :=
        if lastIdx > 0 then (readSum c.prefixSum (lastIdx - 1).toNat).getD 0 else 0
      ⟨lastIdx, sum - lastPrefixSum⟩
    | some idx =>
      let viewLinesAbove := if idx > 0 then (readSum c.prefixSum (idx - 1)).getD 0 else 0
      ⟨idx, sum - viewLinesAbove⟩, c)

def invalidate (c : ConstantTimePrefixSumComputer) (index : ℤ) : ConstantTimePrefixSumComputer :=
  { c with isValid := false, validEndIndex := min c.validEndIndex (index - 1) }

def removeValues (c : ConstantTimePrefixSumComputer) (start deleteCount : ℕ) :
    ConstantTimePrefixSumComputer :=
  { c with values := c.values.take start ++ c.values.drop (start + deleteCount) }.invalidate start

def insertValues (c : ConstantTimePrefixSumComputer) (insertIndex : ℕ) (insertArr : List ℕ) :
    ConstantTimePrefixSumComputer :=
  { c with values := c.values.take insertIndex ++ (insertArr ++ c.values.drop insertIndex) }.invalidate
    insertIndex

/-- The index is that of a value. -/
def setValue (c : ConstantTimePrefixSumComputer) (index value : ℕ) :
    ConstantTimePrefixSumComputer :=
  if c.values[index]? = some value then c
  else { c with values := c.values.set index value }.invalidate index

end ConstantTimePrefixSumComputer

end NexgileIde.PrefixSum
