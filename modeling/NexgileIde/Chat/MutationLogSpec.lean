import NexgileIde.Chat.ObjectMutationLog
import NexgileIde.Library.Results

/-!
# Values that a schema cannot tell apart

The comparators of a schema decide which values count as equal. What is read from a
log is compared with what was extracted in this sense.
-/
namespace NexgileIde.Chat

open Library JsValue

variable {σ : Type}

def Transitive (equals : Comparator) : Prop :=
  ∀ a b c, equals a b = some true → equals b c = some true → equals a c = some true

def Symmetric (equals : Comparator) : Prop :=
  ∀ a b, equals a b = some true → equals b a = some true

theorem eq_of_strictEquals {a b : JsValue} (h : strictEquals a b = some true) : a = b := by
  cases a <;> cases b <;> simp_all [strictEquals]

theorem strictEquals_symmetric : Symmetric strictEquals := by
  intro a b h
  cases eq_of_strictEquals h
  exact h

theorem strictEquals_transitive : Transitive strictEquals := by
  intro a b c h h'
  cases eq_of_strictEquals h
  exact h'

namespace Transform

def names (children : List (String × Transform σ)) : List String := children.map Prod.fst

mutual

/-- All comparators of the schema satisfy `P`. -/
def AllEquals (P : Comparator → Prop) : Transform σ → Prop
  | key _ equals => P equals
  | primitive _ equals => P equals
  | array _ itemSchema => AllEquals P itemSchema
  | object _ children _ => AllEqualsIn P children

def AllEqualsIn (P : Comparator → Prop) : List (String × Transform σ) → Prop
  | [] => True
  | (_, transform) :: children => AllEquals P transform ∧ AllEqualsIn P children

end

mutual

/-- No object has two properties of one name. -/
def DistinctNames : Transform σ → Prop
  | key .. | primitive .. => True
  | array _ itemSchema => DistinctNames itemSchema
  | object _ children _ => (names children).Nodup ∧ DistinctNamesIn children

def DistinctNamesIn : List (String × Transform σ) → Prop
  | [] => True
  | (_, transform) :: children => DistinctNames transform ∧ DistinctNamesIn children

end

/-! ## Values alike -/

/-- Both values are `undefined`, or both are `null`. -/
def SameNullish (a b : JsValue) : Prop := a.isNullish = true ∧ a = b

/-- Objects whose properties are alike, and that have the same other properties. -/
def AlikeObject (names : List String)
    (alikeIn : List (String × JsValue) → List (String × JsValue) → Prop) (a b : JsValue) : Prop :=
  SameNullish a b ∨ ∃ ps qs, a = .obj ps ∧ b = .obj qs ∧ alikeIn ps qs ∧
    ∀ name ∉ names, prop ps name = prop qs name

mutual

/-- The values agree up to `leaf` on what comparators compare. -/
def Alike (leaf : Comparator → JsValue → JsValue → Prop) :
    Transform σ → JsValue → JsValue → Prop
  | key _ equals, a, b => leaf equals a b
  | primitive _ equals, a, b => leaf equals a b
  | array _ itemSchema, a, b => SameNullish a b ∨
    ∃ xs ys, a = .arr xs ∧ b = .arr ys ∧ List.Forall₂ (Alike leaf itemSchema) xs ys
  | object _ children _, a, b => AlikeObject (names children) (AlikeIn leaf children) a b

def AlikeIn (leaf : Comparator → JsValue → JsValue → Prop) :
    List (String × Transform σ) → List (String × JsValue) → List (String × JsValue) → Prop
  | [], _, _ => True
  | (name, transform) :: children, ps, qs =>
    Alike leaf transform (prop ps name) (prop qs name) ∧ AlikeIn leaf children ps qs

end

def SameLeaf (equals : Comparator) (a b : JsValue) : Prop := a = b ∨ equals a b = some true

/-- The value was read for one that is the same: it lacks properties that are `undefined`. -/
def ReadLeaf (equals : Comparator) (value b : JsValue) : Prop :=
  ∃ a, value = dropUndefined a ∧ SameLeaf equals a b

/-- The schema cannot tell the values apart. -/
abbrev Unchanged : Transform σ → JsValue → JsValue → Prop := Alike SameLeaf

/-- The value that was read is equal to the extracted one, up to the comparators and
the properties that JSON drops. -/
abbrev ReadAs : Transform σ → JsValue → JsValue → Prop := Alike ReadLeaf

theorem ReadLeaf.trans {equals : Comparator} (htrans : Transitive equals) {value a b : JsValue}
    (hread : ReadLeaf equals value a) (hsame : SameLeaf equals a b) :
    ReadLeaf equals value b := by
  obtain ⟨c, hvalue, hc⟩ := hread
  refine ⟨c, hvalue, ?_⟩
  rcases hc with rfl | hca
  · exact hsame
  · rcases hsame with rfl | hab
    · exact .inr hca
    · exact .inr (htrans c a b hca hab)

theorem forall₂_trans {α : Type*} {R S T : α → α → Prop} {xs ys zs : List α}
    (hcomp : ∀ a b c, R a b → S b c → T a c) (h : List.Forall₂ R xs ys) :
    List.Forall₂ S ys zs → List.Forall₂ T xs zs := by
  intro h'
  induction h generalizing zs with
  | nil =>
    cases h'
    exact .nil
  | cons hr _ ih =>
    cases h' with
    | cons hs hrest => exact .cons (hcomp _ _ _ hr hs) (ih hrest)

mutual

theorem readAs_unchanged : ∀ (t : Transform σ) {value a b : JsValue}, AllEquals Transitive t →
    ReadAs t value a → Unchanged t a b → ReadAs t value b
  | key _ _, _, _, _, htrans, hread, hsame => ReadLeaf.trans htrans hread hsame
  | primitive _ _, _, _, _, htrans, hread, hsame => ReadLeaf.trans htrans hread hsame
  | array _ item, value, a, b, htrans, hread, hsame => by
    unfold Unchanged Alike at hsame
    unfold ReadAs Alike at hread ⊢
    rcases hread with ⟨hnullish, rfl⟩ | ⟨xs, ys, rfl, rfl, hitems⟩
    · rcases hsame with hsame | ⟨_, _, rfl, -, -⟩
      · exact .inl hsame
      · cases hnullish
    · rcases hsame with ⟨hnullish, -⟩ | ⟨_, zs, hys, rfl, hitems'⟩
      · cases hnullish
      · cases hys
        have hitem : ∀ x y z, Alike ReadLeaf item x y → Alike SameLeaf item y z →
            Alike ReadLeaf item x z := fun _ _ _ h h' => readAs_unchanged item htrans h h'
        exact .inr ⟨xs, zs, rfl, rfl, forall₂_trans hitem hitems hitems'⟩
  | object _ children _, value, a, b, htrans, hread, hsame => by
    unfold Unchanged Alike AlikeObject at hsame
    unfold ReadAs Alike AlikeObject at hread ⊢
    rcases hread with ⟨hnullish, rfl⟩ | ⟨ps, qs, rfl, rfl, hin, hother⟩
    · rcases hsame with hsame | ⟨_, _, rfl, -, -⟩
      · exact .inl hsame
      · cases hnullish
    · rcases hsame with ⟨hnullish, -⟩ | ⟨_, rs, hqs, rfl, hin', hother'⟩
      · cases hnullish
      · cases hqs
        exact .inr ⟨ps, rs, rfl, rfl, readAsIn_unchanged children htrans hin hin',
          fun name hname => (hother name hname).trans (hother' name hname)⟩

theorem readAsIn_unchanged : ∀ (children : List (String × Transform σ))
    {ps qs rs : List (String × JsValue)}, AllEqualsIn Transitive children →
    AlikeIn ReadLeaf children ps qs → AlikeIn SameLeaf children qs rs →
    AlikeIn ReadLeaf children ps rs
  | [], _, _, _, _, _, _ => trivial
  | (_, transform) :: children, _, _, _, htrans, hread, hsame =>
    ⟨readAs_unchanged transform htrans.1 hread.1 hsame.1,
      readAsIn_unchanged children htrans.2 hread.2 hsame.2⟩

end

theorem alikeIn_congr {leaf : Comparator → JsValue → JsValue → Prop}
    {children : List (String × Transform σ)} {ps ps' qs : List (String × JsValue)}
    (heq : ∀ name ∈ names children, prop ps' name = prop ps name)
    (h : AlikeIn leaf children ps qs) : AlikeIn leaf children ps' qs := by
  induction children with
  | nil => trivial
  | cons child children ih =>
    refine ⟨?_, ih (fun name hname => heq name (List.mem_cons_of_mem _ hname)) h.2⟩
    rw [heq child.1 List.mem_cons_self]
    exact h.1

/-! ## What is extracted -/

mutual

/-- The values that a transform extracts. -/
def Shape : Transform σ → JsValue → Prop
  | key .., _ | primitive .., _ => True
  | array _ itemSchema, value => value = .undefined ∨
    ∃ items, value = .arr items ∧ ∀ item ∈ items, Shape itemSchema item
  | object _ children _, value => value.isNullish = true ∨
    ∃ props, value = .obj props ∧ props.map Prod.fst = names children ∧ ShapeIn children props

def ShapeIn : List (String × Transform σ) → List (String × JsValue) → Prop
  | [], _ => True
  | (name, transform) :: children, props =>
    Shape transform (prop props name) ∧ ShapeIn children props

end

theorem shapeIn_cons {children : List (String × Transform σ)} {name : String} {value : JsValue}
    {props : List (String × JsValue)} (hname : name ∉ names children)
    (h : ShapeIn children props) : ShapeIn children ((name, value) :: props) := by
  induction children with
  | nil => trivial
  | cons child children ih =>
    simp only [names, List.map_cons, List.mem_cons, not_or] at hname
    refine ⟨?_, ih hname.2 h.2⟩
    rw [prop_cons, if_neg hname.1]
    exact h.1

theorem rethrow_eq_ok {α : Type} {segment : Segment} {e : Except ObjectPath α} {a : α} :
    rethrowWithPathSegment segment e = .ok a ↔ e = .ok a := by
  cases e <;> simp [rethrowWithPathSegment]

theorem forall_mem_of_extractItems {extract : σ → Except ObjectPath JsValue}
    {P : JsValue → Prop} (h : ∀ source value, extract source = .ok value → P value)
    {sources : List σ} : ∀ {i : ℕ} {values : List JsValue},
      extractItems extract i sources = .ok values → ∀ value ∈ values, P value := by
  induction sources with
  | nil =>
    intro i values hvalues
    cases hvalues
    simp
  | cons source sources ih =>
    intro i values hvalues
    obtain ⟨first, hfirst, hvalues⟩ := bind_eq_ok.mp hvalues
    obtain ⟨rest, hrest, hvalues⟩ := bind_eq_ok.mp hvalues
    cases hvalues
    intro value hvalue
    rcases List.mem_cons.mp hvalue with rfl | hmem
    · exact h source _ (rethrow_eq_ok.mp hfirst)
    · exact ih hrest value hmem

mutual

theorem shape_extract : ∀ (t : Transform σ) {source : σ} {value : JsValue}, DistinctNames t →
    extract t source = .ok value → Shape t value
  | key .., _, _, _, _ => trivial
  | primitive .., _, _, _, _ => trivial
  | array _ item, source, value, hdistinct, h => by
    unfold extract at h
    obtain ⟨items, -, h⟩ := bind_eq_ok.mp h
    cases items with
    | none =>
      cases h
      exact .inl rfl
    | some items =>
      obtain ⟨values, hvalues, h⟩ := bind_eq_ok.mp h
      cases h
      exact .inr ⟨values, rfl, forall_mem_of_extractItems
        (fun _ _ hitem => shape_extract item hdistinct hitem) hvalues⟩
  | object _ children _, source, value, hdistinct, h => by
    unfold extract at h
    obtain ⟨x, -, h⟩ := bind_eq_ok.mp h
    cases x with
    | undefined =>
      cases h
      exact .inl rfl
    | null =>
      cases h
      exact .inl rfl
    | present x =>
      obtain ⟨props, hprops, h⟩ := bind_eq_ok.mp h
      cases h
      exact .inr ⟨props, rfl, shape_extractChildren children hdistinct.1 hdistinct.2 hprops⟩

theorem shape_extractChildren : ∀ (children : List (String × Transform σ)) {source : σ}
    {props : List (String × JsValue)}, (names children).Nodup → DistinctNamesIn children →
    extractChildren children source = .ok props →
    props.map Prod.fst = names children ∧ ShapeIn children props
  | [], _, _, _, _, h => by
    cases h
    exact ⟨rfl, trivial⟩
  | (name, transform) :: children, source, props, hnodup, hdistinct, h => by
    obtain ⟨hname, hnodup⟩ := List.nodup_cons.mp hnodup
    unfold extractChildren at h
    obtain ⟨value, hvalue, h⟩ := bind_eq_ok.mp h
    obtain ⟨rest, hrest, h⟩ := bind_eq_ok.mp h
    cases h
    obtain ⟨hnames, hshape⟩ := shape_extractChildren children hnodup hdistinct.2 hrest
    refine ⟨congrArg (name :: ·) hnames, ?_, shapeIn_cons hname hshape⟩
    rw [prop_cons, if_pos rfl]
    exact shape_extract transform hdistinct.1 (rethrow_eq_ok.mp hvalue)

end

/-! ## What is parsed -/

mutual

/-- A representable value is read as it was written. -/
theorem readAs_json : ∀ (t : Transform σ) {value : JsValue}, DistinctNames t → Shape t value →
    Representable value → ReadAs t value.json value
  | key .., value, _, _, hjson => ⟨value, hjson, .inl rfl⟩
  | primitive .., value, _, _, hjson => ⟨value, hjson, .inl rfl⟩
  | array _ item, value, hdistinct, hshape, hjson => by
    unfold ReadAs Alike
    rcases hshape with rfl | ⟨items, rfl, hitems⟩
    · exact .inl ⟨rfl, rfl⟩
    · refine .inr ⟨_, items, rfl, rfl, ?_⟩
      rw [jsonItems_eq_map fun other hother => (hjson.item other hother).1,
        List.forall₂_map_left_iff, List.forall₂_same]
      exact fun other hother => readAs_json item hdistinct (hitems other hother)
        (hjson.item other hother).2
  | object _ children _, value, hdistinct, hshape, hjson => by
    unfold ReadAs Alike
    rcases hshape with hnullish | ⟨props, rfl, hnames, hin⟩
    · left
      cases value <;> first | exact ⟨rfl, rfl⟩ | cases hnullish
    · have hnodup : (props.map Prod.fst).Nodup := hnames ▸ hdistinct.1
      refine .inr ⟨_, props, rfl, rfl,
        readAsIn_json children hdistinct.2 hin hnodup hjson, fun name hname => ?_⟩
      rw [prop_jsonProps hnodup, prop_of_not_mem (hnames ▸ hname)]
      rfl

theorem readAsIn_json : ∀ (children : List (String × Transform σ))
    {props : List (String × JsValue)}, DistinctNamesIn children → ShapeIn children props →
    (props.map Prod.fst).Nodup → Representable (.obj props) →
    AlikeIn ReadLeaf children (jsonProps props) props
  | [], _, _, _, _, _ => trivial
  | (name, transform) :: children, props, hdistinct, hshape, hnodup, hjson => by
    refine ⟨?_, readAsIn_json children hdistinct.2 hshape.2 hnodup hjson⟩
    rw [prop_jsonProps hnodup]
    exact readAs_json transform hdistinct.1 hshape.1 (hjson.prop name)

end

end Transform

end NexgileIde.Chat

/-!
## Replaying a diff

The entries of a diff turn a value that was read for the previous object into one that
is read for the current one. Paths are taken relative to the values compared.
-/
namespace NexgileIde.Chat

open Library JsValue

variable {σ : Type}

/-! ## Entries relative to a value -/

/-- The entry in front of whose path `segment` stands. -/
def Entry.under (segment : Segment) : Entry → Entry
  | initial v => initial v
  | set k v => set (segment :: k) v
  | push k v i => push (segment :: k) v i
  | delete k => delete (segment :: k)

/-- What the line of an entry does to the value that its path starts from. -/
def Entry.applyTo (value : JsValue) : Entry → Option JsValue
  | initial _ => none
  | set k v => updateAt (fun _ => some v.json) value k
  | push k v i => updateAt (pushTo (v.map jsonItems) i) value k
  | delete k => updateAt (fun _ => some .undefined) value k

def replay (entries : List Entry) (value : JsValue) : Option JsValue :=
  entries.foldlM Entry.applyTo value

theorem replay_append (xs ys : List Entry) (value : JsValue) :
    replay (xs ++ ys) value = (replay xs value).bind (replay ys) := by
  unfold replay
  rw [List.foldlM_append]
  rfl

theorem updateAt_name (update : JsValue → Option JsValue) (props : List (String × JsValue))
    (name : String) (path : ObjectPath) : updateAt update (.obj props) (.name name :: path) =
      (updateAt update (prop props name) path).map fun v => .obj (setProp props name v) := by
  cases h : updateAt update (prop props name) path <;> simp [updateAt, get?, set?, h]

theorem updateAt_index (update : JsValue → Option JsValue) {items : List JsValue} {i : ℕ}
    {item : JsValue} (hitem : items[i]? = some item) (path : ObjectPath) :
    updateAt update (.arr items) (.index i :: path) =
      (updateAt update item path).map fun v => .arr (items.set i v) := by
  obtain ⟨hi, rfl⟩ := List.getElem?_eq_some_iff.mp hitem
  cases h : updateAt update items[i] path <;> simp [updateAt, get?, set?, h, hi]

theorem applyTo_under_name (props : List (String × JsValue)) (name : String) (e : Entry) :
    (e.under (.name name)).applyTo (.obj props) =
      (e.applyTo (prop props name)).map fun v => .obj (setProp props name v) := by
  cases e <;> simp [Entry.under, Entry.applyTo, updateAt_name]

theorem applyTo_under_index {items : List JsValue} {i : ℕ} {item : JsValue}
    (hitem : items[i]? = some item) (e : Entry) : (e.under (.index i)).applyTo (.arr items) =
      (e.applyTo item).map fun v => .arr (items.set i v) := by
  cases e <;> simp [Entry.under, Entry.applyTo, updateAt_index _ hitem]

/-- Entries below a property change that property only. -/
theorem replay_under_name {name : String} {entries : List Entry} :
    ∀ {props : List (String × JsValue)} {value : JsValue},
      replay entries (prop props name) = some value →
      ∃ props', replay (entries.map (Entry.under (.name name))) (.obj props) = some (.obj props') ∧
        prop props' name = value ∧ ∀ other ≠ name, prop props' other = prop props other := by
  induction entries with
  | nil =>
    intro props value h
    cases h
    exact ⟨props, rfl, rfl, fun _ _ => rfl⟩
  | cons e entries ih =>
    intro props value h
    obtain ⟨next, hnext, hrest⟩ := Option.bind_eq_some_iff.mp h
    have hnext' : prop (setProp props name next) name = next := prop_setProp_self
    rw [← hnext'] at hrest
    obtain ⟨props', hreplay, hprop, hother⟩ := ih hrest
    refine ⟨props', ?_, hprop, fun other hne => ?_⟩
    · refine Option.bind_eq_some_iff.mpr ⟨.obj (setProp props name next), ?_, hreplay⟩
      rw [applyTo_under_name, hnext]
      rfl
    · rw [hother other hne, prop_setProp_of_ne hne]

/-- Entries below an item change that item only. -/
theorem replay_under_index {i : ℕ} {entries : List Entry} :
    ∀ {items : List JsValue} {item value : JsValue}, items[i]? = some item →
      replay entries item = some value →
      replay (entries.map (Entry.under (.index i))) (.arr items) = some (.arr (items.set i value)) := by
  induction entries with
  | nil =>
    intro items item value hitem h
    cases h
    obtain ⟨hi, rfl⟩ := List.getElem?_eq_some_iff.mp hitem
    simp [replay]
  | cons e entries ih =>
    intro items item value hitem h
    obtain ⟨next, hnext, hrest⟩ := Option.bind_eq_some_iff.mp h
    have hi : i < items.length := (List.getElem?_eq_some_iff.mp hitem).1
    have hreplay := ih (List.getElem?_set_self hi) hrest
    rw [List.set_set] at hreplay
    refine Option.bind_eq_some_iff.mpr ⟨.arr (items.set i next), ?_, hreplay⟩
    rw [applyTo_under_index hitem, hnext]
    rfl

namespace Transform

/-! ## Diffs at a path -/

/-- The result of a comparison below `segment`. -/
def relocate (segment : Segment) :
    Except ObjectPath (List Entry) → Except ObjectPath (List Entry)
  | .ok entries => .ok (entries.map (Entry.under segment))
  | .error path => .error (segment :: path)

theorem relocate_eq_ok {segment : Segment} {e : Except ObjectPath (List Entry)}
    {entries : List Entry} : relocate segment e = .ok entries ↔
      ∃ entries', e = .ok entries' ∧ entries = entries'.map (Entry.under segment) := by
  cases e with
  | error path => simp [relocate]
  | ok entries' => simp [relocate, eq_comm]

theorem relocate_bind_orThrow {α : Type} (segment : Segment) (path : ObjectPath) (o : Option α)
    (f : α → Except ObjectPath (List Entry)) :
    relocate segment (orThrow path o >>= f) =
      orThrow (segment :: path) o >>= fun a => relocate segment (f a) := by
  cases o <;> rfl

theorem relocate_append (segment : Segment) (e e' : Except ObjectPath (List Entry)) :
    relocate segment (do return (← e) ++ (← e')) =
      (do return (← relocate segment e) ++ (← relocate segment e')) := by
  cases e with
  | error _ => rfl
  | ok xs =>
    cases e' with
    | error _ => rfl
    | ok ys => simp [relocate, bind, Except.bind, pure, Except.pure]

theorem relocate_nullish (segment : Segment) (path : ObjectPath) (prev curr : JsValue) :
    relocate segment (.ok (diffNullish path prev curr)) =
      .ok (diffNullish (segment :: path) prev curr) := by
  cases prev <;> cases curr <;> rfl

theorem relocate_value (segment : Segment) (equals : Comparator) (path : ObjectPath)
    (prev curr : JsValue) : relocate segment (diffValue equals path prev curr) =
      diffValue equals (segment :: path) prev curr := by
  unfold diffValue
  rw [relocate_bind_orThrow]
  congr 1
  funext b
  cases b <;> rfl

theorem relocate_items (segment : Segment) {mismatch : Comparator}
    {diffItem : ObjectPath → JsValue → JsValue → Except ObjectPath (List Entry)}
    (hitem : ∀ path prev curr, relocate segment (diffItem path prev curr) =
      diffItem (segment :: path) prev curr) (path : ObjectPath) :
    ∀ (prevs currs : List JsValue) (i : ℕ),
      relocate segment (diffItems mismatch diffItem path i prevs currs) =
        diffItems mismatch diffItem (segment :: path) i prevs currs
  | [], [], _ => rfl
  | [], _ :: _, _ => rfl
  | _ :: _, [], _ => rfl
  | prev :: prevs, curr :: currs, i => by
    unfold diffItems
    rw [relocate_bind_orThrow]
    congr 1
    funext b
    cases b with
    | true => rfl
    | false =>
      have hrest := @relocate_items segment mismatch diffItem hitem path prevs currs (i + 1)
      have happend := relocate_append segment (diffItem (path ++ [.index i]) prev curr)
        (diffItems mismatch diffItem path (i + 1) prevs currs)
      rw [hitem, hrest] at happend
      exact happend

theorem relocate_object (segment : Segment) {mismatch : Comparator}
    {isSealed : Option (JsValue → Bool → Option Bool)}
    {diffIn : ObjectPath → JsValue → JsValue → Except ObjectPath (List Entry)}
    (hin : ∀ path prev curr, relocate segment (diffIn path prev curr) =
      diffIn (segment :: path) prev curr) (path : ObjectPath) (prev curr : JsValue) :
    relocate segment (diffObject mismatch isSealed diffIn path prev curr) =
      diffObject mismatch isSealed diffIn (segment :: path) prev curr := by
  unfold diffObject
  rw [relocate_bind_orThrow]
  congr 1
  funext b
  cases b with
  | true => rfl
  | false =>
    rw [if_neg (by decide), if_neg (by decide), relocate_bind_orThrow]
    congr 1
    funext b
    cases b with
    | true => rfl
    | false => exact hin path prev curr

mutual

/-- A path in front of the value does not change the comparison. -/
theorem relocate_diff (segment : Segment) : ∀ (t : Transform σ) (path : ObjectPath)
    (prev curr : JsValue), relocate segment (diff t path prev curr) =
      diff t (segment :: path) prev curr
  | key _ equals, path, prev, curr => relocate_value segment equals path prev curr
  | primitive _ equals, path, prev, curr => relocate_value segment equals path prev curr
  | array _ (key _ equals), path, prev, curr => by
    unfold diff
    split_ifs
    · exact relocate_nullish segment path prev curr
    · exact relocate_items segment (fun _ _ _ => rfl) path _ _ 0
  | array _ (primitive _ equals), path, prev, curr => by
    unfold diff
    split_ifs
    · exact relocate_nullish segment path prev curr
    · exact relocate_items segment (fun _ _ _ => rfl) path _ _ 0
  | array _ (object _ children isSealed), path, prev, curr => by
    unfold diff
    split_ifs
    · exact relocate_nullish segment path prev curr
    · exact relocate_items segment (relocate_object segment
        fun path prev curr => relocate_diffChildren segment children true path prev curr)
        path _ _ 0
  | array _ (array _ _), path, prev, curr => by
    unfold diff
    split_ifs
    · exact relocate_nullish segment path prev curr
    · exact relocate_items segment (fun _ _ _ => rfl) path _ _ 0
  | object _ children isSealed, path, prev, curr => by
    unfold diff
    split_ifs
    · exact relocate_nullish segment path prev curr
    · exact relocate_object segment
        (fun path prev curr => relocate_diffChildren segment children true path prev curr)
        path prev curr

theorem relocate_diffChildren (segment : Segment) : ∀ (children : List (String × Transform σ))
    (inKeys : Bool) (path : ObjectPath) (prev curr : JsValue),
    relocate segment (diffChildren children inKeys path prev curr) =
      diffChildren children inKeys (segment :: path) prev curr
  | [], _, _, _, _ => rfl
  | (name, transform) :: children, inKeys, path, prev, curr => by
    unfold diffChildren
    split_ifs
    · exact relocate_diffChildren segment children true path prev curr
    · rw [relocate_bind_orThrow]
      refine congrArg (orThrow _ _ >>= ·) (funext fun value => ?_)
      have happend := relocate_append segment
        (diff transform (path ++ [.name name]) (optionalProp prev name) value)
        (diffChildren children false path prev curr)
      rw [relocate_diff segment transform,
        relocate_diffChildren segment children false path prev curr] at happend
      exact happend

end

end Transform

end NexgileIde.Chat
