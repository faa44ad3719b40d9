import NexgileIde.Chat.MutationLogSpec

/-!
# A diff, replayed, gives the current value

This needs that sealed objects are unchanged, and that the items of an array of objects
that are compared are both objects or the same null value.
-/
namespace NexgileIde.Chat

open Library JsValue

variable {σ : Type}

namespace Transform

/-! ## The pairs that a diff compares -/

/-- `ok` holds of the items up to the first mismatch. -/
def ComparesItems (mismatch : Comparator) (ok : JsValue → JsValue → Prop) :
    List JsValue → List JsValue → Prop
  | prev :: prevs, curr :: currs => mismatch prev curr = some false →
    ok prev curr ∧ ComparesItems mismatch ok prevs currs
  | _, _ => True

/-- `onSealed` holds of two sealed objects, `comparesIn` of the properties of others. -/
def ComparesObject (isSealed : Option (JsValue → Bool → Option Bool))
    (onSealed comparesIn : JsValue → JsValue → Prop) (prev curr : JsValue) : Prop :=
  (areSealed isSealed prev curr = some true → onSealed prev curr) ∧
    (areSealed isSealed prev curr = some false → comparesIn prev curr)

mutual

/-- Among the pairs that a diff compares, `onSealed` holds of the sealed objects that it
skips and `onItems` of the items of arrays of objects. -/
def Compares (onSealed : List (String × Transform σ) → JsValue → JsValue → Prop)
    (onItems : JsValue → JsValue → Prop) : Transform σ → JsValue → JsValue → Prop
  | key .., _, _ | primitive .., _, _ => True
  | array _ (object _ children isSealed), prev, curr =>
    ComparesItems (hasKeyMismatch children) (fun prev curr => onItems prev curr ∧
      ComparesObject isSealed (onSealed children) (ComparesIn onSealed onItems children)
        prev curr) (elements prev) (elements curr)
  | array .., _, _ => True
  | object _ children isSealed, prev, curr =>
    prev.isNullish = false → curr.isNullish = false →
      hasKeyMismatch children prev curr = some false →
      ComparesObject isSealed (onSealed children) (ComparesIn onSealed onItems children) prev curr

def ComparesIn (onSealed : List (String × Transform σ) → JsValue → JsValue → Prop)
    (onItems : JsValue → JsValue → Prop) :
    List (String × Transform σ) → JsValue → JsValue → Prop
  | [], _, _ => True
  | (name, transform) :: children, prev, curr =>
    Compares onSealed onItems transform (optionalProp prev name) (optionalProp curr name) ∧
      ComparesIn onSealed onItems children prev curr

end

/-- The schema cannot tell the objects apart. -/
def UnchangedObject (children : List (String × Transform σ)) : JsValue → JsValue → Prop :=
  AlikeObject (names children) (AlikeIn SameLeaf children)

/-- A null item is compared with the same null item only. -/
def NullsMatch (prev curr : JsValue) : Prop :=
  prev.isNullish = true ∨ curr.isNullish = true → prev = curr

/-- What a diff needs of the values that it compares. -/
abbrev Diffable : Transform σ → JsValue → JsValue → Prop := Compares UnchangedObject NullsMatch

/-! ## Items -/

theorem setLength_left (xs ys : List JsValue) : setLength (xs ++ ys) xs.length = xs := by
  simp [setLength]

/-- The items of a diff, where `R` relates an item that was read to the extracted one. -/
theorem replay_diffItems {R : JsValue → JsValue → Prop} {mismatch : Comparator}
    {diffItem : ObjectPath → JsValue → JsValue → Except ObjectPath (List Entry)}
    {ok : JsValue → JsValue → Prop}
    (hrelocate : ∀ i path prev curr, relocate (.index i) (diffItem path prev curr) =
      diffItem (.index i :: path) prev curr)
    (hitem : ∀ value prev curr entries, R value prev → mismatch prev curr = some false →
      ok prev curr → diffItem [] prev curr = .ok entries →
      ∃ value', replay entries value = some value' ∧ R value' curr) :
    ∀ (prevs currs done rest : List JsValue) (entries : List Entry),
      List.Forall₂ R rest prevs → (∀ curr ∈ currs, curr ≠ .undefined ∧ R curr.json curr) →
      ComparesItems mismatch ok prevs currs →
      diffItems mismatch diffItem [] done.length prevs currs = .ok entries →
      ∃ rest', replay entries (.arr (done ++ rest)) = some (.arr (done ++ rest')) ∧
        List.Forall₂ R rest' currs := by
  have hjson : ∀ currs : List JsValue, (∀ curr ∈ currs, curr ≠ .undefined ∧ R curr.json curr) →
      List.Forall₂ R (jsonItems currs) currs := by
    intro currs hcurrs
    rw [jsonItems_eq_map fun curr hcurr => (hcurrs curr hcurr).1, List.forall₂_map_left_iff,
      List.forall₂_same]
    exact fun curr hcurr => (hcurrs curr hcurr).2
  intro prevs
  induction prevs with
  | nil =>
    intro currs done rest entries hrest hcurrs _ hdiff
    cases hrest
    cases currs with
    | nil =>
      cases hdiff
      exact ⟨[], rfl, .nil⟩
    | cons curr currs =>
      cases hdiff
      refine ⟨jsonItems (curr :: currs), ?_, hjson _ hcurrs⟩
      simp [replay, Entry.applyTo, updateAt, pushTo, pushItems]
  | cons prev prevs ih =>
    intro currs done rest entries hrest hcurrs hcompares hdiff
    cases hrest with
    | @cons value _ rest _ hvalue hrest =>
      cases currs with
      | nil =>
        cases hdiff
        refine ⟨[], ?_, .nil⟩
        simp [replay, Entry.applyTo, updateAt, pushTo, pushItems, setLength_left]
      | cons curr currs =>
        obtain ⟨b, hb, hdiff⟩ := bind_eq_ok.mp hdiff
        cases hmismatch : mismatch prev curr with
        | none =>
          rw [hmismatch] at hb
          cases hb
        | some b' =>
          rw [hmismatch] at hb
          cases hb
          cases b with
          | true =>
            cases hdiff
            refine ⟨jsonItems (curr :: currs), ?_, hjson _ hcurrs⟩
            simp [replay, Entry.applyTo, updateAt, pushTo, pushItems, setLength_left]
          | false =>
            obtain ⟨hok, hcompares⟩ := hcompares hmismatch
            obtain ⟨first, hfirst, hdiff⟩ := bind_eq_ok.mp hdiff
            obtain ⟨others, hothers, hdiff⟩ := bind_eq_ok.mp hdiff
            cases hdiff
            -- the entries of the item, seen from the item
            obtain ⟨entries, hentries, rfl⟩ := relocate_eq_ok.mp ((hrelocate _ _ _ _).trans hfirst)
            obtain ⟨value', hreplay, hvalue'⟩ := hitem value prev curr entries hvalue hmismatch hok
              hentries
            have hget : (done ++ value :: rest)[done.length]? = some value := by simp
            have hreplayItem := replay_under_index hget hreplay
            rw [List.set_append_right _ _ le_rfl, Nat.sub_self, List.set_cons_zero] at hreplayItem
            obtain ⟨rest', hreplayRest, hrest'⟩ := ih currs (done ++ [value']) rest others hrest
              (fun other hother => hcurrs other (List.mem_cons_of_mem _ hother)) hcompares
              (by rwa [List.length_append, List.length_singleton])
            refine ⟨value' :: rest', ?_, .cons hvalue' hrest'⟩
            rw [replay_append, hreplayItem, List.append_cons done value' rest,
              List.append_cons done value' rest']
            exact hreplayRest

theorem comparesItems_true (mismatch : Comparator) : ∀ prevs currs : List JsValue,
    ComparesItems mismatch (fun _ _ => True) prevs currs
  | _ :: prevs, _ :: currs => fun _ => ⟨trivial, comparesItems_true mismatch prevs currs⟩
  | [], _ => trivial
  | _ :: _, [] => trivial

theorem ComparesItems.imp {mismatch : Comparator} {ok ok' : JsValue → JsValue → Prop} :
    ∀ {prevs currs : List JsValue},
      (∀ prev ∈ prevs, ∀ curr ∈ currs, ok prev curr → ok' prev curr) →
      ComparesItems mismatch ok prevs currs → ComparesItems mismatch ok' prevs currs
  | prev :: prevs, curr :: currs, himp, h => by
    intro hmismatch
    obtain ⟨hok, hrest⟩ := h hmismatch
    exact ⟨himp prev List.mem_cons_self curr List.mem_cons_self hok,
      hrest.imp fun p hp c hc =>
        himp p (List.mem_cons_of_mem _ hp) c (List.mem_cons_of_mem _ hc)⟩
  | [], _, _, _ => trivial
  | _ :: _, [], _, _ => trivial

theorem ComparesItems.and {mismatch : Comparator} {ok ok' : JsValue → JsValue → Prop} :
    ∀ {prevs currs : List JsValue}, ComparesItems mismatch ok prevs currs →
      ComparesItems mismatch ok' prevs currs →
      ComparesItems mismatch (fun prev curr => ok prev curr ∧ ok' prev curr) prevs currs
  | _ :: _, _ :: _, h, h' => by
    intro hmismatch
    exact ⟨⟨(h hmismatch).1, (h' hmismatch).1⟩, (h hmismatch).2.and (h' hmismatch).2⟩
  | [], _, _, _ => trivial
  | _ :: _, [], _, _ => trivial

mutual

/-- The two conditions on the values compared, put together. -/
theorem diffable_of : ∀ (t : Transform σ) {prev curr : JsValue},
    Compares UnchangedObject (fun _ _ => True) t prev curr →
    Compares (fun _ _ _ => True) NullsMatch t prev curr → Diffable t prev curr
  | key .., _, _, _, _ => trivial
  | primitive .., _, _, _, _ => trivial
  | array _ (key ..), _, _, _, _ => trivial
  | array _ (primitive ..), _, _, _, _ => trivial
  | array _ (array ..), _, _, _, _ => trivial
  | array _ (object _ children _), _, _, hsealed, hnulls =>
    (ComparesItems.and hsealed hnulls).imp fun _ _ _ _ h =>
      ⟨h.2.1, h.1.2.1, fun hothers => diffableIn_of children (h.1.2.2 hothers) (h.2.2.2 hothers)⟩
  | object _ children _, _, _, hsealed, hnulls => by
    intro hprev hcurr hkeys
    have hs := hsealed hprev hcurr hkeys
    have hn := hnulls hprev hcurr hkeys
    exact ⟨hs.1, fun hothers => diffableIn_of children (hs.2 hothers) (hn.2 hothers)⟩

theorem diffableIn_of : ∀ (children : List (String × Transform σ)) {prev curr : JsValue},
    ComparesIn UnchangedObject (fun _ _ => True) children prev curr →
    ComparesIn (fun _ _ _ => True) NullsMatch children prev curr →
    ComparesIn UnchangedObject NullsMatch children prev curr
  | [], _, _, _, _ => trivial
  | (_, transform) :: children, _, _, hsealed, hnulls =>
    ⟨diffable_of transform hsealed.1 hnulls.1, diffableIn_of children hsealed.2 hnulls.2⟩

end

/-! ## Values -/

theorem replay_diffNullish {R : JsValue → JsValue → Prop} {value prev curr : JsValue}
    (hread : R value prev) (hjson : R curr.json curr) :
    ∃ value', replay (diffNullish [] prev curr) value = some value' ∧ R value' curr := by
  cases curr with
  | undefined =>
    cases prev with
    | undefined => exact ⟨value, rfl, hread⟩
    | _ => exact ⟨_, rfl, hjson⟩
  | null =>
    cases prev with
    | null => exact ⟨value, rfl, hread⟩
    | _ => exact ⟨_, rfl, hjson⟩
  | _ => cases prev <;> exact ⟨_, rfl, hjson⟩

theorem replay_diffValue {equals : Comparator} (htrans : Transitive equals)
    {value prev curr : JsValue} {entries : List Entry} (hread : ReadLeaf equals value prev)
    (hjson : Representable curr) (hdiff : diffValue equals [] prev curr = .ok entries) :
    ∃ value', replay entries value = some value' ∧ ReadLeaf equals value' curr := by
  unfold diffValue at hdiff
  cases hequals : equals prev curr with
  | none =>
    rw [hequals] at hdiff
    cases hdiff
  | some b =>
    rw [hequals] at hdiff
    cases b with
    | true =>
      cases hdiff
      exact ⟨value, rfl, hread.trans htrans (.inr hequals)⟩
    | false =>
      cases hdiff
      exact ⟨curr.json, rfl, curr, hjson, .inl rfl⟩

/-- Without properties to compare, nothing is written. -/
theorem diffChildren_of_isNullish {children : List (String × Transform σ)} {prev curr : JsValue}
    (hcurr : curr.isNullish = true) {path : ObjectPath} : ∀ {inKeys : Bool} {entries : List Entry},
      diffChildren children inKeys path prev curr = .ok entries → entries = [] := by
  have hthrows : ∀ name, curr.get? (.name name) = none := by
    intro name
    cases curr <;> first | rfl | cases hcurr
  induction children with
  | nil =>
    intro inKeys entries h
    cases h
    rfl
  | cons child children ih =>
    intro inKeys entries h
    unfold diffChildren at h
    split_ifs at h
    · exact ih h
    · rw [hthrows] at h
      cases h

/-- The values that an object transform with these children extracts. -/
def ShapeObject (children : List (String × Transform σ)) (value : JsValue) : Prop :=
  value.isNullish = true ∨
    ∃ props, value = .obj props ∧ props.map Prod.fst = names children ∧ ShapeIn children props

/-- The objects that are read for objects with these children. -/
def ReadAsObject (children : List (String × Transform σ)) : JsValue → JsValue → Prop :=
  AlikeObject (names children) (AlikeIn ReadLeaf children)

theorem readAsObject_unchanged {children : List (String × Transform σ)}
    (htrans : AllEqualsIn Transitive children) {value a b : JsValue}
    (hread : ReadAsObject children value a) (hsame : UnchangedObject children a b) :
    ReadAsObject children value b :=
  readAs_unchanged (.object (fun _ => none) children none) htrans hread hsame

theorem readAsObject_json {children : List (String × Transform σ)}
    (hnames : (names children).Nodup) (hdistinct : DistinctNamesIn children) {value : JsValue}
    (hshape : ShapeObject children value) (hjson : Representable value) :
    ReadAsObject children value.json value :=
  readAs_json (.object (fun _ => none) children none) ⟨hnames, hdistinct⟩ hshape hjson

/-- The properties of two objects, compared and replayed. -/
def ReplaysChildren (children : List (String × Transform σ)) (inKeys : Bool) : Prop :=
  ∀ (vs ps cs : List (String × JsValue)) (entries : List Entry),
    AlikeIn ReadLeaf children vs ps → ShapeIn children ps → ShapeIn children cs →
    Representable (.obj cs) →
    ComparesIn UnchangedObject NullsMatch children (.obj ps) (.obj cs) →
    (inKeys = true → hasKeyMismatch children (.obj ps) (.obj cs) = some false) →
    diffChildren children inKeys [] (.obj ps) (.obj cs) = .ok entries →
    ∃ vs', replay entries (.obj vs) = some (.obj vs') ∧ AlikeIn ReadLeaf children vs' cs ∧
      ∀ name ∉ names children, prop vs' name = prop vs name

theorem replay_diffObject {children : List (String × Transform σ)}
    {isSealed : Option (JsValue → Bool → Option Bool)}
    (htrans : AllEqualsIn Transitive children) (hnames : (names children).Nodup)
    (hdistinct : DistinctNamesIn children) (hchildren : ReplaysChildren children true)
    {value prev curr : JsValue} {entries : List Entry} (hread : ReadAsObject children value prev)
    (hprev : ShapeObject children prev) (hcurr : ShapeObject children curr)
    (hnulls : NullsMatch prev curr) (hjson : Representable curr)
    (hcompares : hasKeyMismatch children prev curr = some false →
      ComparesObject isSealed (UnchangedObject children)
        (ComparesIn UnchangedObject NullsMatch children) prev curr)
    (hdiff : diffObject (hasKeyMismatch children) isSealed (diffChildren children true) []
      prev curr = .ok entries) :
    ∃ value', replay entries value = some value' ∧ ReadAsObject children value' curr := by
  obtain ⟨mismatch, hmismatch, hdiff⟩ := bind_eq_ok.mp hdiff
  cases hkeys : hasKeyMismatch children prev curr with
  | none =>
    rw [hkeys] at hmismatch
    cases hmismatch
  | some b =>
    rw [hkeys] at hmismatch
    cases hmismatch
    cases mismatch with
    | true =>
      cases hdiff
      exact ⟨curr.json, rfl, readAsObject_json hnames hdistinct hcurr hjson⟩
    | false =>
      obtain ⟨onSealed, onOthers⟩ := hcompares hkeys
      obtain ⟨areBoth, hareBoth, hdiff⟩ := bind_eq_ok.mp hdiff
      cases hsealed : areSealed isSealed prev curr with
      | none =>
        rw [hsealed] at hareBoth
        cases hareBoth
      | some b =>
        rw [hsealed] at hareBoth
        cases hareBoth
        cases areBoth with
        | true =>
          cases hdiff
          exact ⟨value, rfl, readAsObject_unchanged htrans hread (onSealed hsealed)⟩
        | false =>
          rcases hcurr with hnullish | ⟨cs, rfl, hcsNames, hcs⟩
          · -- only the same null value is compared with a null value
            obtain rfl := diffChildren_of_isNullish hnullish hdiff
            rw [← hnulls (.inr hnullish)]
            exact ⟨value, rfl, hread⟩
          · rcases hprev with hnullish | ⟨ps, rfl, hpsNames, hps⟩
            · rw [hnulls (.inl hnullish)] at hnullish
              cases hnullish
            · rcases hread with ⟨hnullish, rfl⟩ | ⟨vs, _, rfl, hps', hin, hother⟩
              · cases hnullish
              · cases hps'
                obtain ⟨vs', hreplay, hin', hother'⟩ :=
                  hchildren vs ps cs entries hin hps hcs hjson (onOthers hsealed) (fun _ => hkeys) hdiff
                refine ⟨.obj vs', hreplay, .inr ⟨vs', cs, rfl, rfl, hin', fun name hname => ?_⟩⟩
                rw [hother' name hname, hother name hname, prop_of_not_mem (hpsNames ▸ hname),
                  prop_of_not_mem (hcsNames ▸ hname)]

theorem replay_diffArray (get : σ → Option (Option (List σ))) (item : Transform σ)
    {mismatch : Comparator}
    {diffItem : ObjectPath → JsValue → JsValue → Except ObjectPath (List Entry)}
    {ok : JsValue → JsValue → Prop} (hdistinct : DistinctNames item)
    (hrelocate : ∀ i path prev curr, relocate (.index i) (diffItem path prev curr) =
      diffItem (.index i :: path) prev curr)
    (hitem : ∀ value prev curr entries, ReadAs item value prev → Shape item prev →
      Shape item curr → Representable curr → mismatch prev curr = some false → ok prev curr →
      diffItem [] prev curr = .ok entries →
      ∃ value', replay entries value = some value' ∧ ReadAs item value' curr)
    {value prev curr : JsValue} {entries : List Entry}
    (hread : ReadAs (array get item) value prev) (hprev : Shape (array get item) prev)
    (hcurr : Shape (array get item) curr) (hjson : Representable curr)
    (hcompares : ComparesItems mismatch ok (elements prev) (elements curr))
    (hdiff : (if prev.isNullish || curr.isNullish then .ok (diffNullish [] prev curr)
      else diffItems mismatch diffItem [] 0 (elements prev) (elements curr)) = .ok entries) :
    ∃ value', replay entries value = some value' ∧ ReadAs (array get item) value' curr := by
  have hreadCurr := readAs_json (array get item) hdistinct hcurr hjson
  split_ifs at hdiff with hnullish
  · cases hdiff
    exact replay_diffNullish hread hreadCurr
  · rcases hprev with rfl | ⟨prevs, rfl, hprevs⟩
    · exact absurd rfl hnullish
    · rcases hcurr with rfl | ⟨currs, rfl, hcurrs⟩
      · exact absurd rfl hnullish
      · rcases hread with ⟨hnull, rfl⟩ | ⟨values, _, rfl, harr, hvalues⟩
        · cases hnull
        · cases harr
          -- the items that are compared are known to be extracted and representable
          have hknown : ComparesItems mismatch (fun prev curr => Shape item prev ∧
              Shape item curr ∧ Representable curr ∧ ok prev curr) prevs currs :=
            hcompares.imp fun p hp c hc hok => ⟨hprevs p hp, hcurrs c hc, (hjson.item c hc).2, hok⟩
          obtain ⟨rest', hreplay, hrest'⟩ := replay_diffItems hrelocate
            (fun value prev curr entries hread hmismatch hok hdiff => hitem value prev curr entries
              hread hok.1 hok.2.1 hok.2.2.1 hmismatch hok.2.2.2 hdiff) prevs currs [] values entries
            hvalues (fun c hc => ⟨(hjson.item c hc).1,
              readAs_json item hdistinct (hcurrs c hc) (hjson.item c hc).2⟩) hknown hdiff
          exact ⟨.arr rest', hreplay, .inr ⟨rest', currs, rfl, rfl, hrest'⟩⟩

/-- Items without properties are kept when the comparator finds them equal. -/
theorem replay_diffLeaves (get : σ → Option (Option (List σ))) (item : Transform σ)
    {equals : Comparator} (htrans : Transitive equals) (hdistinct : DistinctNames item)
    (hleaf : ∀ value b, ReadAs item value b ↔ ReadLeaf equals value b)
    {value prev curr : JsValue} {entries : List Entry}
    (hread : ReadAs (array get item) value prev) (hprev : Shape (array get item) prev)
    (hcurr : Shape (array get item) curr) (hjson : Representable curr)
    (hdiff : (if prev.isNullish || curr.isNullish then .ok (diffNullish [] prev curr)
      else diffItems (fun a b => (equals a b).map not) (fun _ _ _ => .ok []) [] 0
        (elements prev) (elements curr)) = .ok entries) :
    ∃ value', replay entries value = some value' ∧ ReadAs (array get item) value' curr := by
  refine replay_diffArray get item hdistinct (fun _ _ _ _ => rfl) ?_ hread hprev hcurr hjson
    (comparesItems_true _ _ _) hdiff
  intro value prev curr entries hvalue _ _ _ hmismatch _ hdiffItem
  cases hdiffItem
  have hequals : equals prev curr = some true := by
    cases h : equals prev curr with
    | none => simp [h] at hmismatch
    | some b => simpa [h] using hmismatch
  refine ⟨value, rfl, ?_⟩
  rw [hleaf] at hvalue ⊢
  exact hvalue.trans htrans (.inr hequals)

theorem keys_equal {name : String} {get : σ → Option JsValue} {equals : Comparator}
    {children : List (String × Transform σ)} {ps cs : List (String × JsValue)}
    (h : hasKeyMismatch ((name, key get equals) :: children) (.obj ps) (.obj cs) = some false) :
    equals (prop ps name) (prop cs name) = some true ∧
      hasKeyMismatch children (.obj ps) (.obj cs) = some false := by
  unfold hasKeyMismatch at h
  obtain ⟨_, hvalue, h⟩ := Option.bind_eq_some_iff.mp h
  cases hvalue
  obtain ⟨b, hequals, h⟩ := Option.bind_eq_some_iff.mp h
  cases b with
  | true => exact ⟨hequals, h⟩
  | false => cases h

mutual

/-- The entries of a diff turn a value that was read for the previous one into one that
is read for the current one. -/
theorem replay_diff : ∀ (t : Transform σ) {value prev curr : JsValue} {entries : List Entry},
    AllEquals Transitive t → DistinctNames t → ReadAs t value prev → Shape t prev →
    Shape t curr → Representable curr → Diffable t prev curr →
    diff t [] prev curr = .ok entries →
    ∃ value', replay entries value = some value' ∧ ReadAs t value' curr
  | key _ _, _, _, _, _, htrans, _, hread, _, _, hjson, _, hdiff =>
    replay_diffValue htrans hread hjson hdiff
  | primitive _ _, _, _, _, _, htrans, _, hread, _, _, hjson, _, hdiff =>
    replay_diffValue htrans hread hjson hdiff
  | array get (key g equals), _, _, _, _, htrans, hdistinct, hread, hprev, hcurr, hjson, _, hdiff =>
    replay_diffLeaves get (key g equals) htrans hdistinct (fun _ _ => Iff.rfl) hread hprev hcurr hjson hdiff
  | array get (primitive g equals), _, _, _, _, htrans, hdistinct, hread, hprev, hcurr, hjson, _,
      hdiff =>
    replay_diffLeaves get (primitive g equals) htrans hdistinct (fun _ _ => Iff.rfl) hread hprev hcurr hjson hdiff
  | array get (array g item), value, prev, curr, entries, _, hdistinct, hread, hprev, hcurr, hjson,
      _, hdiff => by
    refine replay_diffArray get (array g item) hdistinct (fun _ _ _ _ => rfl) ?_ hread hprev hcurr hjson
      (comparesItems_true _ _ _) hdiff
    intro _ _ _ _ _ _ _ _ hmismatch
    cases hmismatch
  | array get (object g children isSealed), value, prev, curr, entries, htrans, hdistinct, hread,
      hprev, hcurr, hjson, hcompares, hdiff => by
    refine replay_diffArray get (object g children isSealed) hdistinct
      (fun i => relocate_object (.index i) (relocate_diffChildren (.index i) children true)) ?_
      hread hprev hcurr hjson hcompares hdiff
    intro value prev curr entries hvalue hprevItem hcurrItem hjsonItem _ hok hdiffItem
    exact replay_diffObject htrans hdistinct.1 hdistinct.2
      (replay_diffChildren children true htrans hdistinct.1 hdistinct.2) hvalue hprevItem
      hcurrItem hok.1 hjsonItem (fun _ => hok.2) hdiffItem
  | object _ children isSealed, value, prev, curr, entries, htrans, hdistinct, hread, hprev,
      hcurr, hjson, hcompares, hdiff => by
    unfold diff at hdiff
    split_ifs at hdiff with hnullish
    · cases hdiff
      exact replay_diffNullish hread (readAsObject_json hdistinct.1 hdistinct.2 hcurr hjson)
    · have hprevSome : prev.isNullish = false := by
        cases h : prev.isNullish
        · rfl
        · simp [h] at hnullish
      have hcurrSome : curr.isNullish = false := by
        cases h : curr.isNullish
        · rfl
        · simp [h] at hnullish
      have hnulls : NullsMatch prev curr := by
        intro h
        simp [hprevSome, hcurrSome] at h
      exact replay_diffObject htrans hdistinct.1 hdistinct.2
        (replay_diffChildren children true htrans hdistinct.1 hdistinct.2) hread hprev hcurr
        hnulls hjson (hcompares hprevSome hcurrSome) hdiff

theorem replay_diffChildren : ∀ (children : List (String × Transform σ)) (inKeys : Bool),
    AllEqualsIn Transitive children → (names children).Nodup → DistinctNamesIn children →
    ReplaysChildren children inKeys
  | [], _, _, _, _ => by
    intro vs ps cs entries _ _ _ _ _ _ hdiff
    cases hdiff
    exact ⟨vs, rfl, trivial, fun _ _ => rfl⟩
  | (name, transform) :: children, inKeys, htrans, hnames, hdistinct => by
    intro vs ps cs entries hread hprev hcurr hjson hcompares hkeys hdiff
    obtain ⟨hname, hothers⟩ := List.nodup_cons.mp hnames
    unfold diffChildren at hdiff
    split_ifs at hdiff with hskip
    · -- the loop over the keys has found this one equal
      obtain ⟨rfl, hkey⟩ := (Bool.and_eq_true _ _).mp hskip
      cases transform with
      | key get equals =>
        obtain ⟨hequals, hrest⟩ := keys_equal (hkeys rfl)
        obtain ⟨vs', hreplay, hin, hother⟩ := replay_diffChildren children true htrans.2 hothers
          hdistinct.2 vs ps cs entries hread.2 hprev.2 hcurr.2 hjson hcompares.2
          (fun _ => hrest) hdiff
        refine ⟨vs', hreplay, ⟨?_, hin⟩, fun other hne => ?_⟩
        · rw [hother name hname]
          exact ReadLeaf.trans htrans.1 hread.1 (.inr hequals)
        · exact hother other fun hmem => hne (List.mem_cons_of_mem _ hmem)
      | _ => cases hkey
    · obtain ⟨_, hvalue, hdiff⟩ := bind_eq_ok.mp hdiff
      cases hvalue
      obtain ⟨_, hfirst, hdiff⟩ := bind_eq_ok.mp hdiff
      obtain ⟨rest, hrest, hdiff⟩ := bind_eq_ok.mp hdiff
      cases hdiff
      -- the entries of the property, seen from the property
      obtain ⟨first, hdiffFirst, rfl⟩ :=
        relocate_eq_ok.mp ((relocate_diff (.name name) transform _ _ _).trans hfirst)
      obtain ⟨value', hreplayFirst, hreadFirst⟩ := replay_diff transform htrans.1 hdistinct.1
        hread.1 hprev.1 hcurr.1 (hjson.prop name) hcompares.1 hdiffFirst
      obtain ⟨vs₁, hreplayProp, hprop, hother₁⟩ := replay_under_name hreplayFirst
      have hkept : ∀ other ∈ names children, prop vs₁ other = prop vs other := by
        intro other hmem
        apply hother₁
        rintro rfl
        exact hname hmem
      obtain ⟨vs', hreplay, hin, hother⟩ := replay_diffChildren children false htrans.2 hothers
        hdistinct.2 vs₁ ps cs rest (alikeIn_congr hkept hread.2) hprev.2 hcurr.2 hjson
        hcompares.2 (fun h => by cases h) hrest
      refine ⟨vs', ?_, ⟨?_, hin⟩, fun other hne => ?_⟩
      · rw [replay_append, hreplayProp]
        exact hreplay
      · rw [hother name hname, hprop]
        exact hreadFirst
      · simp only [names, List.map_cons, List.mem_cons, not_or] at hne
        rw [hother other hne.2, hother₁ other hne.1]

end

end Transform

end NexgileIde.Chat
