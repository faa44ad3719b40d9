import Mathlib

/-!
# When-clauses

Expressions over context keys. `and` and `or` bring what they are given into a normal form
without parentheses; they call each other and `negate`, and nothing in the code bounds these
calls, so the functions are partial here and shown to return in `ContextKeyTermination`. The
calls are put in by `apply`, which keeps source positions out of the terms.
-/

namespace NexgileIde.ContextKey

inductive ContextKeyExprType
  | False
  | True
  | Defined
  | Not
  | Equals
  | NotEquals
  | And
  | Regex
  | NotRegex
  | Or
  | In
  | NotIn
  | Greater
  | GreaterEquals
  | Smaller
  | SmallerEquals
  deriving DecidableEq, Repr

/-- The number behind the name; it orders terms of different types. -/
def ContextKeyExprType.code : ContextKeyExprType → ℤ
  | False => 0
  | True => 1
  | Defined => 2
  | Not => 3
  | Equals => 4
  | NotEquals => 5
  | And => 6
  | Regex => 7
  | NotRegex => 8
  | Or => 9
  | In => 10
  | NotIn => 11
  | Greater => 12
  | GreaterEquals => 13
  | Smaller => 14
  | SmallerEquals => 15

/-- The expressions over single keys: their order and equality within a type, and their
negation, which is a constant or a leaf again. -/
structure LeafFamily (L : Type) where
  type : L → ContextKeyExprType
  cmp : L → L → ℤ
  equals : L → L → Bool
  negate : L → Bool ⊕ L
  single : ∀ l, type l ∉ [.False, .True, .And, .Or]

/-- `negated` is what the constructor was given. The field is also filled by the first call
of `negate`, with what every later call would compute again. -/
inductive ContextKeyExpression (L : Type)
  | constant (value : Bool)
  | leaf (l : L)
  | and (expr : List (ContextKeyExpression L)) (negated : Option (ContextKeyExpression L))
  | or (expr : List (ContextKeyExpression L)) (negated : Option (ContextKeyExpression L))

variable {L : Type} (F : LeafFamily L)

namespace ContextKeyExpression

def type : ContextKeyExpression L → ContextKeyExprType
  | constant value => if value then .True else .False
  | leaf l => F.type l
  | and _ _ => .And
  | or _ _ => .Or

mutual

def cmp : ContextKeyExpression L → ContextKeyExpression L → ℤ
  | leaf l, leaf m =>
    if F.type m ≠ F.type l then (F.type l).code - (F.type m).code else F.cmp l m
  | and xs _, and ys _ =>
    if xs.length < ys.length then -1
    else if xs.length > ys.length then 1
    else cmpTerms xs ys
  | or xs _, or ys _ =>
    if xs.length < ys.length then -1
    else if xs.length > ys.length then 1
    else cmpTerms xs ys
  | e, other => (e.type F).code - (other.type F).code

def cmpTerms : List (ContextKeyExpression L) → List (ContextKeyExpression L) → ℤ
  | x :: xs, y :: ys =>
    let r := cmp x y
    if r ≠ 0 then r else cmpTerms xs ys
  | _, _ => 0

end

mutual

def equals : ContextKeyExpression L → ContextKeyExpression L → Bool
  | constant b, constant c => b == c
  | leaf l, leaf m => F.equals l m
  | and xs _, and ys _ => xs.length == ys.length && equalTerms xs ys
  | or xs _, or ys _ => xs.length == ys.length && equalTerms xs ys
  | _, _ => false

def equalTerms : List (ContextKeyExpression L) → List (ContextKeyExpression L) → Bool
  | x :: xs, y :: ys => equals x y && equalTerms xs ys
  | _, _ => true

end

mutual

def evaluate (context : L → Bool) : ContextKeyExpression L → Bool
  | constant value => value
  | leaf l => context l
  | and expr _ => evaluateAll context expr
  | or expr _ => evaluateAny context expr

def evaluateAll (context : L → Bool) : List (ContextKeyExpression L) → Bool
  | [] => true
  | e :: expr => evaluate context e && evaluateAll context expr

def evaluateAny (context : L → Bool) : List (ContextKeyExpression L) → Bool
  | [] => false
  | e :: expr => evaluate context e || evaluateAny context expr

end

def getTerminals : ContextKeyExpression L → List (ContextKeyExpression L)
  | or expr _ => expr
  | node => [node]

/-- What an argument of `and` adds to the list of terms. -/
def conjuncts : ContextKeyExpression L → List (ContextKeyExpression L)
  | and expr _ => expr
  | node => [node]

/-- The first loop of `_normalizeArr`: missing arguments are skipped, the absorbing constant
ends the call, the other constant is remembered, and nested terms are spliced in. -/
def collect (absorbing : Bool)
    (parts : ContextKeyExpression L → List (ContextKeyExpression L)) :
    List (Option (ContextKeyExpression L)) → Option (List (ContextKeyExpression L) × Bool)
  | [] => some ([], false)
  | none :: arr => collect absorbing parts arr
  | some (constant value) :: arr =>
    if value = absorbing then none
    else (collect absorbing parts arr).map fun (expr, _) => (expr, true)
  | some e :: arr =>
    (collect absorbing parts arr).map fun (expr, hasNeutral) => (parts e ++ expr, hasNeutral)

/-- `expr.sort(cmp)` -/
def sort (expr : List (ContextKeyExpression L)) : List (ContextKeyExpression L) :=
  expr.mergeSort fun a b => cmp F a b ≤ 0

/-- The terms after `e` that are not equal to the one kept before them. -/
def dedupeAfter (e : ContextKeyExpression L) :
    List (ContextKeyExpression L) → List (ContextKeyExpression L)
  | [] => [e]
  | x :: expr =>
    if equals F e x then dedupeAfter e expr else e :: dedupeAfter x expr

/-- eliminate duplicate terms -/
def dedupe : List (ContextKeyExpression L) → List (ContextKeyExpression L)
  | [] => []
  | e :: expr => dedupeAfter F e expr

/-- The last element when it is an OR, the one before it, and the rest. -/
def popOr (expr : List (ContextKeyExpression L)) :
    Option (List (ContextKeyExpression L) × ContextKeyExpression L ×
      List (ContextKeyExpression L)) :=
  match expr.reverse with
  | or terms _ :: second :: rest => some (terms, second, rest.reverse)
  | _ => none

end ContextKeyExpression

open ContextKeyExpression

mutual

/-- The outer option is empty when the call does not return, the inner one when it returns
`undefined`. -/
def ContextKeyAndExpr.create (arr : List (Option (ContextKeyExpression L)))
    (negated : Option (ContextKeyExpression L)) (extraRedundantCheck : Bool) :
    Option (Option (ContextKeyExpression L)) :=
  match collect false conjuncts arr with
  | none => some (some (.constant false))
  | some ([], hasTrue) => some (if hasTrue then some (.constant true) else none)
  | some ([e], _) => some (some e)
  | some (expr, _) =>
    match dedupe F (sort F expr) with
    | [e] => some (some e)
    | expr => do
      let expr ← by apply ContextKeyAndExpr.distribute; exacts [expr, extraRedundantCheck]
      by apply ContextKeyAndExpr.finish; exacts [expr, negated, extraRedundantCheck]
partial_fixpoint

/-- The end of `_normalizeArr`, once no OR is left to distribute. -/
def ContextKeyAndExpr.finish (expr : List (ContextKeyExpression L))
    (negated : Option (ContextKeyExpression L)) (extraRedundantCheck : Bool) :
    Option (Option (ContextKeyExpression L)) :=
  match expr with
  | [e] => some (some e)
  | _ => do
    let complementary ←
      if extraRedundantCheck then by apply ContextKeyExpression.anyComplementary; exact expr
        else some false
    -- A && !A case
    if complementary then some (some (.constant false)) else some (some (.and expr negated))
partial_fixpoint

/-- OR extensions will be at the end (due to sorting rules) -/
def ContextKeyAndExpr.distribute (expr : List (ContextKeyExpression L))
    (extraRedundantCheck : Bool) : Option (List (ContextKeyExpression L)) :=
  match popOr expr with
  | none => some expr
  | some (terms, second, rest) => do
    let arr ← by
      apply ContextKeyAndExpr.distributeOver; exacts [terms, second, extraRedundantCheck]
    let result : Option (ContextKeyExpression L) ← by
      apply ContextKeyOrExpr.create; exacts [arr, none, rest.isEmpty]
    match result with
    | some resultElement =>
      by
        apply ContextKeyAndExpr.distribute
        exacts [sort F (rest ++ [resultElement]), extraRedundantCheck]
    | none => by apply ContextKeyAndExpr.distribute; exacts [rest, extraRedundantCheck]
partial_fixpoint

def ContextKeyAndExpr.distributeOver (terms : List (ContextKeyExpression L))
    (second : ContextKeyExpression L) (extraRedundantCheck : Bool) :
    Option (List (Option (ContextKeyExpression L))) :=
  match terms with
  | [] => some []
  | el :: terms => do
    let e ← by
      apply ContextKeyAndExpr.create; exacts [[some el, some second], none, extraRedundantCheck]
    let arr ← by
      apply ContextKeyAndExpr.distributeOver; exacts [terms, second, extraRedundantCheck]
    some (e :: arr)
partial_fixpoint

/-- Whether the negation of a term equals a later term. -/
def ContextKeyExpression.anyComplementary (expr : List (ContextKeyExpression L)) : Option Bool :=
  match expr with
  | e :: x :: expr => do
    let n ← by apply ContextKeyExpression.negate; exact e
    if (x :: expr).any (equals F n) then some true
    else by apply ContextKeyExpression.anyComplementary; exact x :: expr
  | _ => some false
partial_fixpoint

def ContextKeyOrExpr.create (arr : List (Option (ContextKeyExpression L)))
    (negated : Option (ContextKeyExpression L)) (extraRedundantCheck : Bool) :
    Option (Option (ContextKeyExpression L)) :=
  match collect true getTerminals arr with
  | none => some (some (.constant true))
  | some ([], hasFalse) => some (if hasFalse then some (.constant false) else none)
  | some ([e], _) => some (some e)
  | some (expr, _) =>
    match dedupe F (sort F expr) with
    | [e] => some (some e)
    | expr => do
      let complementary ←
        if extraRedundantCheck then by apply ContextKeyExpression.anyComplementary; exact expr
        else some false
      -- A || !A case
      if complementary then some (some (.constant true)) else some (some (.or expr negated))
partial_fixpoint

/-- A negation that `create` leaves undefined would be returned as an expression; here it is
no result. -/
def ContextKeyExpression.negate (e : ContextKeyExpression L) : Option (ContextKeyExpression L) :=
  match e with
  | .constant value => some (.constant !value)
  | .leaf l =>
    match F.negate l with
    | .inl value => some (.constant value)
    | .inr l => some (.leaf l)
  | .and _ (some negated) => some negated
  | .or _ (some negated) => some negated
  | .and expr none => do
    let result ← by apply ContextKeyExpression.negateAll; exact expr
    let negated ← by
      apply ContextKeyOrExpr.create; exacts [result.map some, some (.and expr none), true]
    negated
  | .or expr none => do
    let result ← by apply ContextKeyExpression.negateAll; exact expr
    let result ← by apply ContextKeyOrExpr.distributeNegations; exact result
    let negated ← by
      apply ContextKeyOrExpr.create; exacts [result.map some, some (.or expr none), true]
    negated
partial_fixpoint

def ContextKeyExpression.negateAll (expr : List (ContextKeyExpression L)) :
    Option (List (ContextKeyExpression L)) :=
  match expr with
  | [] => some []
  | e :: expr => do
    let n ← by apply ContextKeyExpression.negate; exact e
    let result ← by apply ContextKeyExpression.negateAll; exact expr
    some (n :: result)
partial_fixpoint

/-- We always take the first 2 AND pairs and distribute them -/
def ContextKeyOrExpr.distributeNegations (result : List (ContextKeyExpression L)) :
    Option (List (ContextKeyExpression L)) :=
  match result with
  | left :: right :: rest => do
    let all ← by apply ContextKeyOrExpr.andPairs; exacts [getTerminals left, getTerminals right]
    let e : Option (ContextKeyExpression L) ← by
      apply ContextKeyOrExpr.create; exacts [all, none, false]
    match e with
    | some e => by apply ContextKeyOrExpr.distributeNegations; exact e :: rest
    | none => none
  | result => some result
partial_fixpoint

def ContextKeyOrExpr.andPairs (lefts rights : List (ContextKeyExpression L)) :
    Option (List (Option (ContextKeyExpression L))) :=
  match lefts with
  | [] => some []
  | left :: lefts => do
    let these ← by apply ContextKeyOrExpr.andWith; exacts [left, rights]
    let all ← by apply ContextKeyOrExpr.andPairs; exacts [lefts, rights]
    some (these ++ all)
partial_fixpoint

def ContextKeyOrExpr.andWith (left : ContextKeyExpression L)
    (rights : List (ContextKeyExpression L)) : Option (List (Option (ContextKeyExpression L))) :=
  match rights with
  | [] => some []
  | right :: rights => do
    let e ← by apply ContextKeyAndExpr.create; exacts [[some left, some right], none, false]
    let all ← by apply ContextKeyOrExpr.andWith; exacts [left, rights]
    some (e :: all)
partial_fixpoint

end

def ContextKeyExpr.and (expr : List (Option (ContextKeyExpression L))) :
    Option (Option (ContextKeyExpression L)) :=
  ContextKeyAndExpr.create F expr none true

def ContextKeyExpr.or (expr : List (Option (ContextKeyExpression L))) :
    Option (Option (ContextKeyExpression L)) :=
  ContextKeyOrExpr.create F expr none true

/-- How a caller builds an expression. `undefined` stands for the missing arguments that
`and` and `or` accept. -/
inductive Formula (L : Type)
  | undefined
  | constant (value : Bool)
  | leaf (l : L)
  | and (args : List (Formula L))
  | or (args : List (Formula L))
  | not (arg : Formula L)

namespace Formula

mutual

def build : Formula L → Option (Option (ContextKeyExpression L))
  | undefined => some none
  | constant value => some (some (.constant value))
  | leaf l => some (some (.leaf l))
  | and args => do ContextKeyExpr.and F (← buildAll args)
  | or args => do ContextKeyExpr.or F (← buildAll args)
  | not arg => do
    match ← build arg with
    | none => some none
    | some e => (e.negate F).map some

def buildAll : List (Formula L) → Option (List (Option (ContextKeyExpression L)))
  | [] => some []
  | f :: args => do
    let e ← build f
    let arr ← buildAll args
    some (e :: arr)

end

mutual

/-- The boolean value of a formula; none when there is nothing in it to evaluate. -/
def value (context : L → Bool) : Formula L → Option Bool
  | undefined => none
  | constant value => some value
  | leaf l => some (context l)
  | and args =>
    match values context args with
    | [] => none
    | bs => some (bs.all id)
  | or args =>
    match values context args with
    | [] => none
    | bs => some (bs.any id)
  | not arg => (value context arg).map (! ·)

def values (context : L → Bool) : List (Formula L) → List Bool
  | [] => []
  | f :: args =>
    match value context f with
    | none => values context args
    | some b => b :: values context args

end

end Formula

end NexgileIde.ContextKey
