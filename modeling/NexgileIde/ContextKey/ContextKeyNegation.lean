import NexgileIde.ContextKey.ContextKeyLeaves
import NexgileIde.ContextKey.ContextKeyTermination

/-!
# Negations of created expressions

The negation of a leaf is the opposite leaf. It evaluates to the opposite, but for comparisons
without a number, which are false as their negations are.
-/

namespace NexgileIde.ContextKey

open Text ContextKeyExpression

variable {P : Platform}

namespace Leaf

@[simp] theorem opposite_opposite (l : Leaf) : l.opposite.opposite = l := by
  cases l with
  | comparison type => cases type <;> rfl
  | _ => rfl

theorem Created.opposite {l : Leaf} (h : l.Created P) : l.opposite.Created P := by
  cases l with
  | comparison type key value => cases value <;> exact h
  | _ => exact h

/-- A comparison has its number: what it compares with, and what the context holds. -/
def HasNumber (P : Platform) (context : Str → Value) : Leaf → Prop
  | comparison _ key (.number n) => n ≠ .nan ∧ P.parseFloatOf (context key) ≠ .nan
  | comparison _ _ (.string _) => False
  | _ => True

end Leaf

theorem ComparisonType.evaluate_negate (type : ComparisonType) (x y : Number) :
    type.negate.evaluate x y = !type.evaluate x y ↔ y ≠ .nan ∧ x ≠ .nan := by
  cases x with
  | nan => cases type <;> cases y <;> simp [negate, evaluate, Number.lessThan, Number.lessThanOrEqual]
  | value x =>
    cases y with
    | nan => cases type <;> simp [negate, evaluate, Number.lessThan, Number.lessThanOrEqual]
    | value y =>
      have h : ∀ a b : WithBot (WithTop ℚ), decide (a ≤ b) = !decide (b < a) := by
        intro a b
        rw [← decide_not, decide_eq_decide, not_lt]
      cases type <;> simp [negate, evaluate, Number.lessThan, Number.lessThanOrEqual, h]

/-- Only comparisons without a number are not the opposite of their negation. -/
theorem Leaf.evaluate_opposite (context : Str → Value) (l : Leaf) :
    l.opposite.evaluate P context = !l.evaluate P context ↔ l.HasNumber P context := by
  cases l with
  | comparison type key value =>
    cases value with
    | string s => simp [opposite, evaluate, HasNumber]
    | number n => exact type.evaluate_negate _ n
  | _ => simp [opposite, evaluate, HasNumber]

theorem create_defined {key : Str} (h : P.constantValues key = none) :
    ContextKeyDefinedExpr.create P key = .inr ⟨.defined key, h⟩ := by
  unfold ContextKeyDefinedExpr.create
  split
  · next hs => rw [h] at hs; cases hs
  · rfl

theorem create_not {key : Str} (h : P.constantValues key = none) :
    ContextKeyNotExpr.create P key = .inr ⟨.not key, h⟩ := by
  unfold ContextKeyNotExpr.create
  split
  · next hs => rw [h] at hs; cases hs
  · rfl

theorem create_equals {key : Str} {value : Value}
    (h : value.isBoolean = false ∧ P.constantValues key = none) :
    ContextKeyEqualsExpr.create P key value = .inr ⟨.equals key value, h⟩ := by
  unfold ContextKeyEqualsExpr.create
  split
  · next hv => rw [h.1] at hv; cases hv
  · split
    · next hs => rw [h.2] at hs; cases hs
    · rfl

theorem create_notEquals {key : Str} {value : Value}
    (h : value.isBoolean = false ∧ P.constantValues key = none) :
    ContextKeyNotEqualsExpr.create P key value = .inr ⟨.notEquals key value, h⟩ := by
  unfold ContextKeyNotEqualsExpr.create
  split
  · next hv => rw [h.1] at hv; cases hv
  · split
    · next hs => rw [h.2] at hs; cases hs
    · rfl

theorem create_comparison {type : ComparisonType} {key : Str} {value : Operand}
    (h : (Leaf.comparison type key value).Created P) (type' : ComparisonType) :
    createComparison P type' key value.toValue =
      .inr ⟨.comparison type' key value, by cases value <;> exact h⟩ := by
  unfold createComparison
  rw [withFloatOrStr_operand]
  intro s hs
  subst hs
  exact h

/-- A created leaf is negated to its opposite. -/
theorem CreatedLeaf.negate_eq (l : CreatedLeaf P) :
    l.negate P = .inr ⟨l.1.opposite, l.2.opposite⟩ := by
  obtain ⟨l, h⟩ := l
  cases l with
  | defined key => exact create_not h
  | not key => exact create_defined h
  | equals key value => exact create_notEquals h
  | notEquals key value => exact create_equals h
  | comparison type key value => cases type <;> exact create_comparison h _
  | _ => rfl

theorem createdLeaves_negate (l : CreatedLeaf P) :
    (createdLeaves P).negate l = .inr ⟨l.1.opposite, l.2.opposite⟩ :=
  l.negate_eq

/-- The leaves that some expressions are built from, with their negations. -/
structure Vocabulary (P : Platform) where
  Mem : Leaf → Prop
  created : ∀ l, Mem l → l.Created P
  opposite : ∀ l, Mem l → Mem l.opposite

namespace Vocabulary

abbrev Leaf (V : Vocabulary P) := { l : ContextKey.Leaf // V.Mem l }

def createdLeaf (V : Vocabulary P) (l : V.Leaf) : CreatedLeaf P := ⟨l.1, V.created l.1 l.2⟩

/-- The created leaves of a vocabulary. -/
def leaves (V : Vocabulary P) : LeafFamily V.Leaf where
  type l := (createdLeaves P).type (V.createdLeaf l)
  cmp l m := (createdLeaves P).cmp (V.createdLeaf l) (V.createdLeaf m)
  equals l m := (createdLeaves P).equals (V.createdLeaf l) (V.createdLeaf m)
  negate l :=
    match h : (createdLeaves P).negate (V.createdLeaf l) with
    | .inl value => .inl value
    | .inr m => .inr ⟨m.1, by
        rw [createdLeaves_negate, Sum.inr.injEq] at h
        subst h
        exact V.opposite l.1 l.2⟩
  single l := (createdLeaves P).single (V.createdLeaf l)

def evaluate (V : Vocabulary P) (context : Str → Value) (l : V.Leaf) : Bool :=
  l.1.evaluate P context

theorem negate_eq (V : Vocabulary P) (l : V.Leaf) :
    V.leaves.negate l = .inr ⟨l.1.opposite, V.opposite l.1 l.2⟩ := by
  unfold leaves
  dsimp only
  split
  · next h => rw [createdLeaves_negate] at h; cases h
  · next m h =>
    rw [createdLeaves_negate, Sum.inr.injEq] at h
    subst h
    rfl

end Vocabulary

theorem Value.eq_of_strictEquals {v w : Value} (h : v.strictEquals w = true) : v = w := by
  cases v <;> cases w <;> simp_all [strictEquals]
  next n m =>
    cases n <;> cases m <;> simp_all [Number.equals]

theorem Operand.toValue_injective : Function.Injective Operand.toValue := by
  intro v w h
  cases v <;> cases w <;> simp_all [toValue]

/-- Leaves that are taken for equal are the same, but for the flags of regular expressions. -/
theorem Leaf.of_equalsTo {l m : Leaf} (h : l.equalsTo m = true) :
    l = m ∨ ∃ key r r', regexpSource r = regexpSource r' ∧
      (l = .regex key r ∧ m = .regex key r' ∨ l = .notRegex key r ∧ m = .notRegex key r') := by
  cases l <;> cases m <;> simp only [equalsTo, Bool.and_eq_true, beq_iff_eq, Bool.false_eq_true] at h
  case regex.regex => exact .inr ⟨_, _, _, h.2, .inl ⟨rfl, by rw [h.1]⟩⟩
  case notRegex.notRegex => exact .inr ⟨_, _, _, h.2, .inr ⟨rfl, by rw [h.1]⟩⟩
  case equals.equals => exact .inl (by rw [h.1, Value.eq_of_strictEquals h.2])
  case notEquals.notEquals => exact .inl (by rw [h.1, Value.eq_of_strictEquals h.2])
  case comparison.comparison =>
    exact .inl (by rw [h.1, h.2.1, Operand.toValue_injective (Value.eq_of_strictEquals h.2.2)])
  all_goals simp_all

/-- Regular expressions on one key with one source have the same flags. -/
def Vocabulary.FlagsAgree (V : Vocabulary P) : Prop :=
  ∀ key r r', V.Mem (.regex key (some r)) → V.Mem (.regex key (some r')) →
    r.source = r'.source → r.flags = r'.flags

theorem regexp_eq {r r' : Option RegExp} (h : regexpSource r = regexpSource r')
    (hflags : ∀ x ∈ r, ∀ y ∈ r', x.source = y.source → x.flags = y.flags) : r = r' := by
  cases r with
  | none =>
    cases r' with
    | none => rfl
    | some y => exact absurd h.symm y.source_ne_nil
  | some x =>
    cases r' with
    | none => exact absurd h x.source_ne_nil
    | some y =>
      have hs : x.source = y.source := h
      have hf := hflags x rfl y rfl hs
      cases x
      cases y
      simp_all

theorem Vocabulary.eq_of_equals (V : Vocabulary P) (hflags : V.FlagsAgree) {l m : V.Leaf}
    (h : V.leaves.equals l m = true) : l.1 = m.1 := by
  have hlm : l.1.equalsTo m.1 = true := h
  rcases Leaf.of_equalsTo hlm with heq | ⟨key, r, r', hsource, hlm⟩
  · exact heq
  have hr : r = r' := by
    apply regexp_eq hsource
    intro x hx y hy
    cases hx
    cases hy
    rcases hlm with ⟨hl, hm⟩ | ⟨hl, hm⟩
    · exact hflags key x y (hl ▸ l.2) (hm ▸ m.2)
    · exact hflags key x y (V.opposite (.notRegex key (some x)) (hl ▸ l.2))
        (V.opposite (.notRegex key (some y)) (hm ▸ m.2))
  rcases hlm with ⟨hl, hm⟩ | ⟨hl, hm⟩ <;> rw [hl, hm, hr]

theorem Vocabulary.respects (V : Vocabulary P) (context : Str → Value) (hflags : V.FlagsAgree)
    (hnumber : ∀ l, V.Mem l → l.HasNumber P context) :
    Respects V.leaves (V.evaluate context) where
  equals l m h := by
    unfold evaluate
    rw [V.eq_of_equals hflags h]
  negate l := by
    rw [V.negate_eq]
    exact (l.1.evaluate_opposite context).mpr (hnumber l.1 l.2)

/-- A platform on which a text is a number or matches an expression only when it is its
source. -/
def plainPlatform : Platform where
  constantValues _ := none
  isWindows := false
  objects _ := ⟨[], none, []⟩
  toLowerCase := id
  stringToNumber _ := .nan
  parseFloat _ := .nan
  test r v := v = .string r.source

/-- `key > 5`, for the key of one letter -/
def greaterFive : Leaf := .comparison .greater [107] (.number (.ofNat 5))

/-- `key > 5` and `key <= 5` -/
def greaterFiveOnly : Vocabulary plainPlatform where
  Mem l := l = greaterFive ∨ l = greaterFive.opposite
  created l h := by
    rcases h with rfl | rfl <;> trivial
  opposite l h := by
    rcases h with rfl | rfl
    · exact .inr rfl
    · exact .inl rfl

end NexgileIde.ContextKey
