import Mathlib.Data.List.Sort
import NexgileIde.Library.JsValue

/-!
# The object mutation log

A log file starts with a whole object and goes on with the changes that each write
finds against the last confirmed one. Reading replays them.
-/
namespace NexgileIde.Chat

open Library JsValue

abbrev ObjectPath := List Segment

/-- `none` if the comparator throws. -/
abbrev Comparator := JsValue → JsValue → Option Bool

/-- `(a, b) => a === b`, where two extracted objects are never the same reference. -/
def strictEquals : Comparator
  | .undefined, .undefined => some true
  | .null, .null => some true
  | .bool a, .bool b => some (a = b)
  | .num a, .num b => some (a = b)
  | .infinity a, .infinity b => some (a = b)
  | .str a, .str b => some (a = b)
  | _, _ => some false

/-- What the getter of an object transform returns. -/
inductive Source (σ : Type)
  | undefined
  | null
  | present (x : σ)

/-- Transforms with the getters put in front of them, where `σ` holds all that getters
pass on. A getter that throws gives `none`, and the array getter gives `some none` for
`undefined` and `null`. -/
inductive Transform (σ : Type)
  | key (get : σ → Option JsValue) (equals : Comparator)
  | primitive (get : σ → Option JsValue) (equals : Comparator)
  | array (get : σ → Option (Option (List σ))) (itemSchema : Transform σ)
  | object (get : σ → Option (Source σ)) (children : List (String × Transform σ))
      (isSealed : Option (JsValue → Bool → Option Bool))

inductive Entry
  | initial (v : JsValue)
  | set (k : ObjectPath) (v : JsValue)
  | push (k : ObjectPath) (v : Option (List JsValue)) (i : Option ℕ)
  | delete (k : ObjectPath)

/-- The entry as it is parsed from its line. -/
def Entry.json : Entry → Entry
  | initial v => initial v.json
  | set k v => set k v.json
  | push k v i => push k (v.map jsonItems) i
  | delete k => delete k

namespace Transform

variable {σ : Type}

/-! ## Extracting

An error carries the path of the value that could not be extracted. -/

def orThrow {α : Type} (path : ObjectPath) : Option α → Except ObjectPath α
  | some a => .ok a
  | none => .error path

/-- `rethrowWithPathSegment` -/
def rethrowWithPathSegment {α : Type} (segment : Segment) :
    Except ObjectPath α → Except ObjectPath α
  | .ok a => .ok a
  | .error path => .error (segment :: path)

/-- `from?.map` with the index in the path of an error. -/
def extractItems (extract : σ → Except ObjectPath JsValue) :
    ℕ → List σ → Except ObjectPath (List JsValue)
  | _, [] => .ok []
  | i, item :: items => do
    let value ← rethrowWithPathSegment (.index i) (extract item)
    let values ← extractItems extract (i + 1) items
    return value :: values

/-- What `value()` extracts: objects are cloned through JSON. -/
def cloneObject : JsValue → JsValue
  | .arr items => (JsValue.arr items).json
  | .obj props => (JsValue.obj props).json
  | value => value

mutual

def extract : Transform σ → σ → Except ObjectPath JsValue
  | key get _, source => orThrow [] (get source)
  | primitive get _, source => (orThrow [] (get source)).map cloneObject
  | array get itemSchema, source => do
    match ← orThrow [] (get source) with
    | none => return .undefined
    | some items => return .arr (← extractItems (extract itemSchema) 0 items)
  | object get children _, source => do
    match ← orThrow [] (get source) with
    | .undefined => return .undefined
    | .null => return .null
    | .present x => return .obj (← extractChildren children x)

def extractChildren : List (String × Transform σ) → σ →
    Except ObjectPath (List (String × JsValue))
  | [], _ => .ok []
  | (name, transform) :: children, source => do
    let value ← rethrowWithPathSegment (.name name) (extract transform source)
    let props ← extractChildren children source
    return (name, value) :: props

end

/-! ## Diffing

An error carries the path at which the comparison threw. -/

/-- `value?.[name]` -/
def optionalProp (value : JsValue) (name : String) : JsValue :=
  (value.get? (.name name)).getD .undefined

/-- `_hasKeyMismatch`, also the first loop of `_diffObject`. Keys are sorted to the front. -/
def hasKeyMismatch : List (String × Transform σ) → Comparator
  | (name, key _ equals) :: children, prev, curr => do
    let value ← curr.get? (.name name)
    if ← equals (optionalProp prev name) value then hasKeyMismatch children prev curr
    else return true
  | _, _, _ => some false

def isKey : Transform σ → Bool
  | key .. => true
  | _ => false

/-- The elements of an array, where `undefined` and `null` stand for none. -/
def elements : JsValue → List JsValue
  | .arr items => items
  | _ => []

/-- Both branches of `_diffArray`: from the first mismatch on the items are written
anew, before it they are compared one by one. -/
def diffItems (mismatch : Comparator)
    (diffItem : ObjectPath → JsValue → JsValue → Except ObjectPath (List Entry))
    (path : ObjectPath) : ℕ → List JsValue → List JsValue → Except ObjectPath (List Entry)
  | _, [], [] => .ok []
  | _, [], curr :: currArr => .ok [.push path (some (curr :: currArr)) none]
  | i, _ :: _, [] => .ok [.push path none (some i)]
  | i, prev :: prevArr, curr :: currArr => do
    if ← orThrow path (mismatch prev curr) then
      return [.push path (some (curr :: currArr)) (some i)]
    else
      let entries ← diffItem (path ++ [.index i]) prev curr
      return entries ++ (← diffItems mismatch diffItem path (i + 1) prevArr currArr)

def diffValue (equals : Comparator) (path : ObjectPath) (prev curr : JsValue) :
    Except ObjectPath (List Entry) := do
  if ← orThrow path (equals prev curr) then return []
  else return [.set path curr]

/-- `_diff` when one of the values is `undefined` or `null`. -/
def diffNullish (path : ObjectPath) : JsValue → JsValue → List Entry
  | .undefined, .undefined => []
  | .null, .null => []
  | _, .undefined => [.delete path]
  | _, curr => [.set path curr]

/-- `sealed && sealed(prev, true) && sealed(curr, false)` -/
def areSealed (isSealed : Option (JsValue → Bool → Option Bool)) (prev curr : JsValue) :
    Option Bool :=
  match isSealed with
  | none => some false
  | some isSealed => do
    if ← isSealed prev true then isSealed curr false
    else return false

/-- `_diffObject`, where `diffChildren` compares the properties behind the keys. -/
def diffObject (mismatch : Comparator) (isSealed : Option (JsValue → Bool → Option Bool))
    (diffChildren : ObjectPath → JsValue → JsValue → Except ObjectPath (List Entry))
    (path : ObjectPath) (prev curr : JsValue) : Except ObjectPath (List Entry) := do
  if ← orThrow path (mismatch prev curr) then return [.set path curr]
  else if ← orThrow path (areSealed isSealed prev curr) then return []
  else diffChildren path prev curr

mutual

def diff : Transform σ → ObjectPath → JsValue → JsValue → Except ObjectPath (List Entry)
  | key _ equals, path, prev, curr => diffValue equals path prev curr
  | primitive _ equals, path, prev, curr => diffValue equals path prev curr
  | array _ (key _ equals), path, prev, curr
  | array _ (primitive _ equals), path, prev, curr =>
    if prev.isNullish || curr.isNullish then .ok (diffNullish path prev curr)
    else diffItems (fun a b => (equals a b).map not) (fun _ _ _ => .ok []) path 0
      (elements prev) (elements curr)
  | array _ (object _ children isSealed), path, prev, curr =>
    if prev.isNullish || curr.isNullish then .ok (diffNullish path prev curr)
    else diffItems (hasKeyMismatch children)
      (diffObject (hasKeyMismatch children) isSealed (diffChildren children true)) path 0
      (elements prev) (elements curr)
  | array _ (array _ _), path, prev, curr =>
    -- an array of arrays is no transform: its item schema has no comparator
    if prev.isNullish || curr.isNullish then .ok (diffNullish path prev curr)
    else diffItems (fun _ _ => none) (fun _ _ _ => .ok []) path 0 (elements prev) (elements curr)
  | object _ children isSealed, path, prev, curr =>
    if prev.isNullish || curr.isNullish then .ok (diffNullish path prev curr)
    else diffObject (hasKeyMismatch children) isSealed (diffChildren children true) path prev curr

/-- The second loop of `_diffObject`, which starts behind the keys at the front. -/
def diffChildren : List (String × Transform σ) → Bool → ObjectPath → JsValue → JsValue →
    Except ObjectPath (List Entry)
  | [], _, _, _, _ => .ok []
  | (name, transform) :: children, inKeys, path, prev, curr =>
    if inKeys && transform.isKey then diffChildren children true path prev curr
    else do
      let value ← orThrow (path ++ [.name name]) (curr.get? (.name name))
      let entries ← diff transform (path ++ [.name name]) (optionalProp prev name) value
      return entries ++ (← diffChildren children false path prev curr)

end

end Transform

/-! ## Replaying -/

/-- Applies `update` to the value at the path. It throws when the path leads through a
value without properties. -/
def updateAt (update : JsValue → Option JsValue) : JsValue → ObjectPath → Option JsValue
  | value, [] => update value
  | value, segment :: path => do
    let child ← value.get? segment
    value.set? segment (← updateAt update child path)

/-- `_applySet`, which leaves the root alone. -/
def applySet (state : JsValue) (path : ObjectPath) (value : JsValue) : Option JsValue :=
  match path with
  | [] => some state
  | path => updateAt (fun _ => some value) state path

/-- `!value` -/
def isFalsy : JsValue → Bool
  | .undefined | .null | .bool false | .nan => true
  | .num n => n = 0
  | .str s => s = ""
  | _ => false

/-- The items after `arr.length = startIndex` and `arr.push(...values)`. -/
def pushItems (values : Option (List JsValue)) (startIndex : Option ℕ) (items : List JsValue) :
    List JsValue :=
  match startIndex with
  | some startIndex => setLength items startIndex ++ values.getD []
  | none => items ++ values.getD []

/-- What `_applyPush` does to the value at the path: `arr || []` is changed. -/
def pushTo (values : Option (List JsValue)) (startIndex : Option ℕ) : JsValue → Option JsValue
  | .arr items => some (.arr (pushItems values startIndex items))
  | value => if isFalsy value then some (.arr (pushItems values startIndex [])) else none

def applyPush (state : JsValue) (path : ObjectPath) (values : Option (List JsValue))
    (startIndex : Option ℕ) : Option JsValue :=
  match path with
  | [] => updateAt (pushTo values startIndex) state [.name "undefined"]
  | path => updateAt (pushTo values startIndex) state path

inductive ReadError
  | missingInitialEntry
  | emptyLogFile
  | typeError
  deriving DecidableEq, Repr

/-- One line of the log file. -/
def applyEntry (state : JsValue) (entry : Entry) : Except ReadError JsValue :=
  match entry with
  | .initial v => .ok v
  | .set k v =>
    match state with
    | .undefined => .error .missingInitialEntry
    | state => ((applySet state k v).elim (.error .typeError) .ok)
  | .push k v i =>
    match state with
    | .undefined => .error .missingInitialEntry
    | state => ((applyPush state k v i).elim (.error .typeError) .ok)
  | .delete k =>
    match state with
    | .undefined => .error .missingInitialEntry
    | state => ((applySet state k .undefined).elim (.error .typeError) .ok)

/-! ## The log -/

inductive Op
  | append
  | replace
  deriving DecidableEq, Repr

inductive WriteError
  | extracting (path : ObjectPath)
  | diffing (path : ObjectPath)
  deriving DecidableEq, Repr

structure ObjectMutationLog (σ : Type) where
  transform : Transform σ
  compactAfterEntries : ℕ
  /-- `undefined` if there is no confirmed state. -/
  previous : JsValue
  entryCount : ℕ
  hasPendingWrite : Bool
  pendingPrevious : JsValue
  pendingEntryCount : ℕ

namespace ObjectMutationLog

variable {σ : Type}

def new (transform : Transform σ) (compactAfterEntries : ℕ) : ObjectMutationLog σ where
  transform := transform
  compactAfterEntries := compactAfterEntries
  previous := .undefined
  entryCount := 0
  hasPendingWrite := false
  pendingPrevious := .undefined
  pendingEntryCount := 0

def clearPending (log : ObjectMutationLog σ) : ObjectMutationLog σ :=
  { log with
    hasPendingWrite := false
    pendingPrevious := .undefined
    pendingEntryCount := 0 }

/-- Reads the lines of a log file. -/
def read (log : ObjectMutationLog σ) (content : List Entry) :
    Except ReadError (JsValue × ObjectMutationLog σ) := do
  let state ← content.foldlM applyEntry .undefined
  if content.isEmpty then throw .emptyLogFile
  return (state, { log with
    previous := state
    entryCount := content.length }.clearPending)

/-- A write has no confirmed state to compare with, or compacts the file. -/
def startsOver (log : ObjectMutationLog σ) : Bool :=
  isFalsy log.previous || log.compactAfterEntries < log.entryCount

def write (log : ObjectMutationLog σ) (current : σ) :
    Except WriteError ((Op × List Entry) × ObjectMutationLog σ) := do
  let currentValue ← (log.transform.extract current).mapError .extracting
  if log.startsOver then
    return ((.replace, [(Entry.initial currentValue).json]), { log with
      hasPendingWrite := true
      pendingPrevious := currentValue
      pendingEntryCount := 1 })
  else
    let entries ← (log.transform.diff [] log.previous currentValue).mapError .diffing
    if entries.isEmpty then return ((.append, []), log.clearPending)
    else
      return ((.append, entries.map Entry.json), { log with
        hasPendingWrite := true
        pendingPrevious := currentValue
        pendingEntryCount := log.entryCount + entries.length })

def confirmWrite (log : ObjectMutationLog σ) : ObjectMutationLog σ :=
  if log.hasPendingWrite then
    { log with
      previous := log.pendingPrevious
      entryCount := log.pendingEntryCount }.clearPending
  else log

end ObjectMutationLog

end NexgileIde.Chat
