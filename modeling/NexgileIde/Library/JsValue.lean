import Mathlib

/-!
# Plain values of a dynamic language

Values as a program holds them, and what becomes of them when they are written as JSON
and parsed again. A property that is absent reads as `undefined`.
-/
namespace NexgileIde.Library

inductive JsValue
  | undefined
  | null
  | bool (b : Bool)
  | num (n : ℚ)
  | nan
  | infinity (negative : Bool)
  | str (s : String)
  | arr (items : List JsValue)
  | obj (props : List (String × JsValue))
  deriving Repr

namespace JsValue

/-! ## JSON -/

mutual

/-- `JSON.parse(JSON.stringify(value))`. A value that is left out becomes `undefined`. -/
def json : JsValue → JsValue
  | undefined => undefined
  | null => null
  | bool b => bool b
  | num n => num n
  | nan => null
  | infinity _ => null
  | str s => str s
  | arr items => arr (jsonItems items)
  | obj props => obj (jsonProps props)

def jsonItems : List JsValue → List JsValue
  | [] => []
  | .undefined :: items => .null :: jsonItems items
  | item :: items => json item :: jsonItems items

def jsonProps : List (String × JsValue) → List (String × JsValue)
  | [] => []
  | (_, .undefined) :: props => jsonProps props
  | (name, value) :: props => (name, json value) :: jsonProps props

end

mutual

/-- The value without the properties that are `undefined`. -/
def dropUndefined : JsValue → JsValue
  | arr items => arr (dropItems items)
  | obj props => obj (dropProps props)
  | value => value

def dropItems : List JsValue → List JsValue
  | [] => []
  | item :: items => dropUndefined item :: dropItems items

def dropProps : List (String × JsValue) → List (String × JsValue)
  | [] => []
  | (_, .undefined) :: props => dropProps props
  | (name, value) :: props => (name, dropUndefined value) :: dropProps props

end

/-- JSON loses nothing but properties that are `undefined`. -/
def Representable (value : JsValue) : Prop := json value = dropUndefined value

def isNullish : JsValue → Bool
  | undefined | null => true
  | _ => false

/-! ## Properties -/

/-- The property of that name, `undefined` if there is none. -/
def prop : List (String × JsValue) → String → JsValue
  | [], _ => undefined
  | (name, value) :: props, key => if name = key then value else prop props key

def setProp : List (String × JsValue) → String → JsValue → List (String × JsValue)
  | [], key, value => [(key, value)]
  | (name, old) :: props, key, value =>
    if name = key then (name, value) :: props else (name, old) :: setProp props key value

inductive Segment
  | name (s : String)
  | index (i : ℕ)
  deriving DecidableEq, Repr

/-- `value[segment]`, with names on objects and indexes on arrays. It throws on
`undefined` and `null`. -/
def get? : JsValue → Segment → Option JsValue
  | undefined, _ | null, _ => none
  | obj props, .name key => some (prop props key)
  | arr items, .index i => some (items[i]?.getD undefined)
  | _, _ => some undefined

/-- `arr.length = length` -/
def setLength (items : List JsValue) (length : ℕ) : List JsValue :=
  items.take length ++ List.replicate (length - items.length) undefined

/-- `value[segment] = new`, with names on objects and indexes on arrays. It throws on
everything else. -/
def set? : JsValue → Segment → JsValue → Option JsValue
  | obj props, .name key, new => some (obj (setProp props key new))
  | arr items, .index i, new =>
    if i < items.length then some (arr (items.set i new))
    else some (arr (setLength items i ++ [new]))
  | _, _, _ => none

section Properties

variable {props : List (String × JsValue)} {key other : String} {value : JsValue}

theorem prop_cons (name : String) :
    prop ((name, value) :: props) key = if name = key then value else prop props key := rfl

@[simp] theorem prop_setProp_self : prop (setProp props key value) key = value := by
  induction props with
  | nil => simp [setProp, prop]
  | cons p props ih =>
    unfold setProp
    split_ifs with h
    · simp [prop, h]
    · simp [prop, h, ih]

theorem prop_setProp_of_ne (h : other ≠ key) :
    prop (setProp props key value) other = prop props other := by
  induction props with
  | nil => simp [setProp, prop, h.symm]
  | cons p props ih =>
    unfold setProp
    split_ifs with hkey
    · simp [prop, hkey, h.symm]
    · simp [prop, ih]

theorem prop_of_not_mem (h : key ∉ props.map Prod.fst) : prop props key = undefined := by
  induction props with
  | nil => rfl
  | cons p props ih =>
    simp only [List.map_cons, List.mem_cons, not_or] at h
    unfold prop
    rw [if_neg (Ne.symm h.1), ih h.2]

end Properties

/-! ## What JSON keeps -/

theorem jsonProps_cons {name : String} {value : JsValue} {props : List (String × JsValue)}
    (h : value ≠ undefined) :
    jsonProps ((name, value) :: props) = (name, json value) :: jsonProps props := by
  cases value with
  | undefined => exact absurd rfl h
  | _ => rfl

theorem dropProps_cons {name : String} {value : JsValue} {props : List (String × JsValue)}
    (h : value ≠ undefined) :
    dropProps ((name, value) :: props) = (name, dropUndefined value) :: dropProps props := by
  cases value with
  | undefined => exact absurd rfl h
  | _ => rfl

theorem jsonItems_cons {item : JsValue} {items : List JsValue} (h : item ≠ undefined) :
    jsonItems (item :: items) = json item :: jsonItems items := by
  cases item with
  | undefined => exact absurd rfl h
  | _ => rfl

theorem dropUndefined_ne_null {value : JsValue} (h : value ≠ null) :
    dropUndefined value ≠ null := by
  cases value with
  | null => exact absurd rfl h
  | _ => simp [dropUndefined]

theorem jsonItems_eq_map {items : List JsValue} (h : ∀ item ∈ items, item ≠ undefined) :
    jsonItems items = items.map json := by
  induction items with
  | nil => rfl
  | cons item items ih =>
    have hitem := h item List.mem_cons_self
    rw [jsonItems_cons hitem, List.map_cons,
      ih fun other hother => h other (List.mem_cons_of_mem _ hother)]

/-- No array item of a representable value is `undefined`. -/
theorem Representable.item {items : List JsValue} (h : Representable (arr items)) :
    ∀ item ∈ items, item ≠ undefined ∧ Representable item := by
  have hitems : jsonItems items = dropItems items := by
    unfold Representable json dropUndefined at h
    exact arr.inj h
  clear h
  induction items with
  | nil => simp
  | cons item items ih =>
    by_cases hundefined : item = undefined
    · subst hundefined
      simp [jsonItems, dropItems, dropUndefined] at hitems
    · rw [jsonItems_cons hundefined, dropItems, List.cons.injEq] at hitems
      intro other hother
      rcases List.mem_cons.mp hother with rfl | hmem
      · exact ⟨hundefined, hitems.1⟩
      · exact ih hitems.2 other hmem

theorem Representable.prop {props : List (String × JsValue)} (h : Representable (obj props))
    (key : String) : Representable (prop props key) := by
  have hprops : jsonProps props = dropProps props := by
    unfold Representable json dropUndefined at h
    exact obj.inj h
  clear h
  induction props with
  | nil => exact rfl
  | cons p props ih =>
    obtain ⟨name, value⟩ := p
    unfold JsValue.prop
    by_cases hundefined : value = undefined
    · subst hundefined
      split_ifs
      · exact rfl
      · exact ih hprops
    · rw [jsonProps_cons hundefined, dropProps_cons hundefined, List.cons.injEq,
        Prod.mk.injEq] at hprops
      split_ifs
      · exact hprops.1.2
      · exact ih hprops.2

theorem jsonProps_of_not_mem {props : List (String × JsValue)} {key : String}
    (h : key ∉ props.map Prod.fst) : key ∉ (jsonProps props).map Prod.fst := by
  induction props with
  | nil => exact h
  | cons p props ih =>
    obtain ⟨name, value⟩ := p
    simp only [List.map_cons, List.mem_cons, not_or] at h
    by_cases hundefined : value = undefined
    · subst hundefined
      exact ih h.2
    · rw [jsonProps_cons hundefined, List.map_cons, List.mem_cons, not_or]
      exact ⟨h.1, ih h.2⟩

/-- With distinct names, JSON keeps each property, `undefined` included. -/
theorem prop_jsonProps {props : List (String × JsValue)} (h : (props.map Prod.fst).Nodup)
    (key : String) : prop (jsonProps props) key = json (prop props key) := by
  induction props with
  | nil => rfl
  | cons p props ih =>
    obtain ⟨name, value⟩ := p
    rw [List.map_cons, List.nodup_cons] at h
    by_cases hundefined : value = undefined
    · subst hundefined
      have hskip : jsonProps ((name, undefined) :: props) = jsonProps props := rfl
      rw [hskip, prop_cons]
      split_ifs with hname
      · subst hname
        exact prop_of_not_mem (jsonProps_of_not_mem h.1)
      · exact ih h.2
    · rw [jsonProps_cons hundefined, prop_cons, prop_cons]
      split_ifs
      · rfl
      · exact ih h.2

end JsValue

end NexgileIde.Library
