import NexgileIde.ContextKey.ContextKeyExpr
import NexgileIde.Text.CodeUnits

/-!
# Context values

What a context holds for its keys, and how the language compares such values. Turning text
into a number, matching a regular expression and changing case are left to the platform.
-/

namespace NexgileIde.ContextKey

open Text

/-- Numbers as they compare: `-0` is `0`. -/
inductive Number
  | nan
  | value (x : WithBot (WithTop ℚ))
  deriving DecidableEq

namespace Number

def isNaN : Number → Bool
  | nan => true
  | value _ => false

def equals : Number → Number → Bool
  | value x, value y => x = y
  | _, _ => false

def lessThan : Number → Number → Bool
  | value x, value y => x < y
  | _, _ => false

def lessThanOrEqual : Number → Number → Bool
  | value x, value y => x ≤ y
  | _, _ => false

def ofNat (n : ℕ) : Number := value ((n : ℚ) : WithTop ℚ)

end Number

/-- Arrays and records are known by their identity. -/
inductive Value
  | undefined
  | null
  | boolean (b : Bool)
  | number (n : Number)
  | string (s : Str)
  | object (ref : ℕ)
  deriving DecidableEq

namespace Value

def isNullish : Value → Bool
  | undefined | null => true
  | _ => false

def isBoolean : Value → Bool
  | boolean _ => true
  | _ => false

/-- `!!value` -/
def truthy : Value → Bool
  | undefined | null => false
  | boolean b => b
  | number n => n ≠ .nan ∧ n ≠ .ofNat 0
  | string s => s ≠ []
  | object _ => true

/-- `===` -/
def strictEquals : Value → Value → Bool
  | undefined, undefined | null, null => true
  | boolean b, boolean c => b == c
  | number n, number m => n.equals m
  | string s, string t => s == t
  | object r, object r' => r == r'
  | _, _ => false

/-- The comparison of `includes`, for which `NaN` is itself. -/
def sameValueZero (v w : Value) : Bool :=
  v.strictEquals w || v == number .nan && w == number .nan

end Value

/-- The source of the empty pattern is `(?:)`. -/
@[ext]
structure RegExp where
  source : Str
  flags : Str
  source_ne_nil : source ≠ []

instance : DecidableEq RegExp := fun _ _ => decidable_of_iff _ RegExp.ext_iff.symm

/-- `string` is what the object is as a primitive; `items` is there for arrays. -/
structure JsObject where
  string : Str
  items : Option (List Value)
  keys : List Str

/-- What the program runs on. `test` is `regexp.test(value)`; with the flags `g` and `y`, which
the parser takes away, the answer at the index where the last match ended. -/
structure Platform where
  constantValues : Str → Option Bool
  isWindows : Bool
  objects : ℕ → JsObject
  toLowerCase : Str → Str
  stringToNumber : Str → Number
  parseFloat : Str → Number
  test : RegExp → Value → Bool

namespace Platform

variable (P : Platform)

def toPrimitive : Value → Value
  | .object r => .string (P.objects r).string
  | v => v

def toNumber (v : Value) : Number :=
  match P.toPrimitive v with
  | .undefined | .object _ => .nan
  | .null => .ofNat 0
  | .boolean b => .ofNat b.toNat
  | .number n => n
  | .string s => P.stringToNumber s

/-- `==` -/
def looseEquals (v w : Value) : Bool :=
  match v, w with
  | .object r, .object r' => r == r'
  | v, w =>
    if v.isNullish || w.isNullish then v.isNullish && w.isNullish
    else match P.toPrimitive v, P.toPrimitive w with
      | .string s, .string t => s == t
      | p, q => (P.toNumber p).equals (P.toNumber q)

/-- `<` -/
def lessThan (v w : Value) : Bool :=
  match P.toPrimitive v, P.toPrimitive w with
  | .string s, .string t => s < t
  | p, q => (P.toNumber p).lessThan (P.toNumber q)

/-- `parseFloat(value)`; the text of a number is read back as the number. -/
def parseFloatOf (v : Value) : Number :=
  match P.toPrimitive v with
  | .number n => n
  | .string s => P.parseFloat s
  | _ => .nan

end Platform

end NexgileIde.ContextKey

/-!
## Expressions over single keys

The classes of when-clauses that have no terms. Their `create` functions replace keys with
constant values and turn operands into numbers; a created leaf is what they can return.
-/

namespace NexgileIde.ContextKey

open Text

inductive ComparisonType
  | greater
  | greaterEquals
  | smaller
  | smallerEquals
  deriving DecidableEq, Repr

/-- What a number is compared with; text stays where it is not a number. -/
inductive Operand
  | number (n : Number)
  | string (s : Str)
  deriving DecidableEq

def Operand.toValue : Operand → Value
  | number n => .number n
  | string s => .string s

inductive Leaf
  | defined (key : Str)
  | not (key : Str)
  | equals (key : Str) (value : Value)
  | notEquals (key : Str) (value : Value)
  | regex (key : Str) (regexp : Option RegExp)
  | notRegex (key : Str) (regexp : Option RegExp)
  | in (key valueKey : Str)
  | notIn (key valueKey : Str)
  | comparison (type : ComparisonType) (key : Str) (value : Operand)
  deriving DecidableEq

def ComparisonType.exprType : ComparisonType → ContextKeyExprType
  | greater => .Greater
  | greaterEquals => .GreaterEquals
  | smaller => .Smaller
  | smallerEquals => .SmallerEquals

/-- The class of the negation. -/
def ComparisonType.negate : ComparisonType → ComparisonType
  | greater => smallerEquals
  | greaterEquals => smaller
  | smaller => greaterEquals
  | smallerEquals => greater

def ComparisonType.evaluate : ComparisonType → Number → Number → Bool
  | greater, x, y => y.lessThan x
  | greaterEquals, x, y => y.lessThanOrEqual x
  | smaller, x, y => x.lessThan y
  | smallerEquals, x, y => x.lessThanOrEqual y

def strLess (s t : Str) : Bool := s < t

def cmp1 (key1 key2 : Str) : ℤ :=
  if key1 < key2 then -1 else if key2 < key1 then 1 else 0

/-- `less` is `<` of the values. -/
def cmp2 {α : Type} (less : α → α → Bool) (key1 : Str) (value1 : α) (key2 : Str) (value2 : α) :
    ℤ :=
  if key1 < key2 then -1
  else if key2 < key1 then 1
  else if less value1 value2 then -1
  else if less value2 value1 then 1
  else 0

def regexpSource (regexp : Option RegExp) : Str := (regexp.map RegExp.source).getD []

namespace Leaf

def type : Leaf → ContextKeyExprType
  | defined _ => .Defined
  | not _ => .Not
  | equals _ _ => .Equals
  | notEquals _ _ => .NotEquals
  | regex _ _ => .Regex
  | notRegex _ _ => .NotRegex
  | .in _ _ => .In
  | notIn _ _ => .NotIn
  | comparison type _ _ => type.exprType

/-- `this.cmp(other)` for leaves of one type -/
def cmp (P : Platform) : Leaf → Leaf → ℤ
  | defined k, defined k' | not k, not k' => cmp1 k k'
  | equals k v, equals k' v' | notEquals k v, notEquals k' v' => cmp2 P.lessThan k v k' v'
  | regex k r, regex k' r' | notRegex k r, notRegex k' r' =>
    cmp2 strLess k (regexpSource r) k' (regexpSource r')
  | .in k v, .in k' v' | notIn k v, notIn k' v' => cmp2 strLess k v k' v'
  | comparison _ k v, comparison _ k' v' => cmp2 P.lessThan k v.toValue k' v'.toValue
  | _, _ => 0

/-- `this.equals(other)`; of regular expressions the sources are compared. -/
def equalsTo : Leaf → Leaf → Bool
  | defined k, defined k' | not k, not k' => k == k'
  | equals k v, equals k' v' | notEquals k v, notEquals k' v' => k == k' && v.strictEquals v'
  | regex k r, regex k' r' | notRegex k r, notRegex k' r' =>
    k == k' && regexpSource r == regexpSource r'
  | .in k v, .in k' v' | notIn k v, notIn k' v' => k == k' && v == v'
  | comparison type k v, comparison type' k' v' =>
    type == type' && (k == k' && v.toValue.strictEquals v'.toValue)
  | _, _ => false

/-- `ContextKeyInExpr.evaluate`; on Windows, the case of file URIs does not matter. -/
def evaluateIn (P : Platform) (source item : Value) : Bool :=
  let ignoreCase : Option Str :=
    match item with
    | .string s => if P.isWindows && fileScheme.isPrefixOf s then some (P.toLowerCase s) else none
    | _ => none
  match source with
  | .object r =>
    match (P.objects r).items with
    | some items =>
      items.any (·.sameValueZero item) ||
        ignoreCase.any fun itemLower => items.any fun
          | .string s => P.toLowerCase s == itemLower
          | _ => false
    | none =>
      match item with
      | .string s => (P.objects r).keys.contains s ||
          ignoreCase.any fun itemLower => (P.objects r).keys.any fun key =>
            P.toLowerCase key == itemLower
      | _ => false
  | _ => false
where
  /-- `file:///` -/
  fileScheme : Str := [102, 105, 108, 101, 58, 47, 47, 47]

def evaluate (P : Platform) (context : Str → Value) : Leaf → Bool
  | defined key => (context key).truthy
  | not key => !(context key).truthy
  | equals key value => P.looseEquals (context key) value
  | notEquals key value => !P.looseEquals (context key) value
  | regex key regexp => regexp.any fun r => P.test r (context key)
  | notRegex key regexp => !regexp.any fun r => P.test r (context key)
  | .in key valueKey => evaluateIn P (context valueKey) (context key)
  | notIn key valueKey => !evaluateIn P (context valueKey) (context key)
  | comparison _ _ (.string _) => false
  | comparison type key (.number n) => type.evaluate (P.parseFloatOf (context key)) n

/-- What the `create` functions leave: no key with a constant value where they look for one,
no boolean to be compared with, and no text that is a number. -/
def Created (P : Platform) : Leaf → Prop
  | defined key | not key => P.constantValues key = none
  | equals key value | notEquals key value =>
    value.isBoolean = false ∧ P.constantValues key = none
  | comparison _ _ (.string s) => (P.parseFloat s).isNaN = true
  | _ => True

end Leaf

/-- A leaf as it is created. -/
abbrev CreatedLeaf (P : Platform) := { l : Leaf // l.Created P }

variable (P : Platform)

/-- `'true'` or `'false'` -/
def booleanText (b : Bool) : Value :=
  .string (if b then [116, 114, 117, 101] else [102, 97, 108, 115, 101])

def ContextKeyDefinedExpr.create (key : Str) : Bool ⊕ CreatedLeaf P :=
  match h : P.constantValues key with
  | some constantValue => .inl constantValue
  | none => .inr ⟨.defined key, h⟩

def ContextKeyNotExpr.create (key : Str) : Bool ⊕ CreatedLeaf P :=
  match h : P.constantValues key with
  | some constantValue => .inl !constantValue
  | none => .inr ⟨.not key, h⟩

def ContextKeyEqualsExpr.create (key : Str) (value : Value) : Bool ⊕ CreatedLeaf P :=
  match hv : value.isBoolean with
  | true =>
    if value = .boolean true then ContextKeyDefinedExpr.create P key
    else ContextKeyNotExpr.create P key
  | false =>
    match h : P.constantValues key with
    | some constantValue => .inl (value.strictEquals (booleanText constantValue))
    | none => .inr ⟨.equals key value, hv, h⟩

def ContextKeyNotEqualsExpr.create (key : Str) (value : Value) : Bool ⊕ CreatedLeaf P :=
  match hv : value.isBoolean with
  | true =>
    if value = .boolean true then ContextKeyNotExpr.create P key
    else ContextKeyDefinedExpr.create P key
  | false =>
    match h : P.constantValues key with
    | some constantValue => .inl !value.strictEquals (booleanText constantValue)
    | none => .inr ⟨.notEquals key value, hv, h⟩

def ContextKeyRegexExpr.create (key : Str) (regexp : Option RegExp) : CreatedLeaf P :=
  ⟨.regex key regexp, trivial⟩

def ContextKeyNotRegexExpr.create (key : Str) (regexp : Option RegExp) : CreatedLeaf P :=
  ⟨.notRegex key regexp, trivial⟩

def ContextKeyInExpr.create (key valueKey : Str) : CreatedLeaf P := ⟨.in key valueKey, trivial⟩

def ContextKeyNotInExpr.create (key valueKey : Str) : CreatedLeaf P :=
  ⟨.notIn key valueKey, trivial⟩

/-- Other values than text and numbers give the constant `false`. -/
def withFloatOrStr (value : Value)
    (callback : (v : Operand) → (∀ s, v = .string s → (P.parseFloat s).isNaN = true) →
      CreatedLeaf P) : Bool ⊕ CreatedLeaf P :=
  match value with
  | .string s =>
    match h : (P.parseFloat s).isNaN with
    | false => .inr (callback (.number (P.parseFloat s)) nofun)
    | true => .inr (callback (.string s) fun _ hs => by cases hs; exact h)
  | .number n => .inr (callback (.number n) nofun)
  | _ => .inl false

/-- The four classes of comparisons differ in their type. -/
def createComparison (type : ComparisonType) (key : Str) (value : Value) :
    Bool ⊕ CreatedLeaf P :=
  withFloatOrStr P value fun v h => ⟨.comparison type key v, by
    cases v with
    | number n => trivial
    | string s => exact h s rfl⟩

def ContextKeyGreaterExpr.create := createComparison P .greater

def ContextKeyGreaterEqualsExpr.create := createComparison P .greaterEquals

def ContextKeySmallerExpr.create := createComparison P .smaller

def ContextKeySmallerEqualsExpr.create := createComparison P .smallerEquals

def CreatedLeaf.negate : CreatedLeaf P → Bool ⊕ CreatedLeaf P
  | ⟨.defined key, _⟩ => ContextKeyNotExpr.create P key
  | ⟨.not key, _⟩ => ContextKeyDefinedExpr.create P key
  | ⟨.equals key value, _⟩ => ContextKeyNotEqualsExpr.create P key value
  | ⟨.notEquals key value, _⟩ => ContextKeyEqualsExpr.create P key value
  | ⟨.regex key regexp, _⟩ => .inr (ContextKeyNotRegexExpr.create P key regexp)
  | ⟨.notRegex key regexp, _⟩ => .inr (ContextKeyRegexExpr.create P key regexp)
  | ⟨.in key valueKey, _⟩ => .inr (ContextKeyNotInExpr.create P key valueKey)
  | ⟨.notIn key valueKey, _⟩ => .inr (ContextKeyInExpr.create P key valueKey)
  | ⟨.comparison .greater key value, _⟩ =>
    ContextKeySmallerEqualsExpr.create P key value.toValue
  | ⟨.comparison .greaterEquals key value, _⟩ => ContextKeySmallerExpr.create P key value.toValue
  | ⟨.comparison .smaller key value, _⟩ => ContextKeyGreaterEqualsExpr.create P key value.toValue
  | ⟨.comparison .smallerEquals key value, _⟩ => ContextKeyGreaterExpr.create P key value.toValue

/-- The created leaves, as the terms of expressions. -/
def createdLeaves : LeafFamily (CreatedLeaf P) where
  type l := l.1.type
  cmp l m := l.1.cmp P m.1
  equals l m := l.1.equalsTo m.1
  negate := CreatedLeaf.negate P
  single := by
    rintro ⟨l, _⟩
    cases l with
    | comparison type => cases type <;> simp [Leaf.type, ComparisonType.exprType]
    | _ => simp [Leaf.type]

/-- The opposite leaf. -/
def Leaf.opposite : Leaf → Leaf
  | defined key => not key
  | not key => defined key
  | equals key value => notEquals key value
  | notEquals key value => equals key value
  | regex key regexp => notRegex key regexp
  | notRegex key regexp => regex key regexp
  | .in key valueKey => notIn key valueKey
  | notIn key valueKey => .in key valueKey
  | comparison type key value => comparison type.negate key value

theorem withFloatOrStr_operand {v : Operand}
    {callback : (v : Operand) → (∀ s, v = .string s → (P.parseFloat s).isNaN = true) →
      CreatedLeaf P} (h : ∀ s, v = .string s → (P.parseFloat s).isNaN = true) :
    withFloatOrStr P v.toValue callback = .inr (callback v h) := by
  cases v with
  | number n => rfl
  | string s =>
    simp only [Operand.toValue, withFloatOrStr]
    split
    · next hs => simp [h s rfl] at hs
    · rfl

end NexgileIde.ContextKey
