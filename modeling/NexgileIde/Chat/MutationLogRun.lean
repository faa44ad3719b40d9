import NexgileIde.Chat.MutationLogDiff

/-!
# Runs of a mutation log

Each write is persisted and confirmed, or fails. A fresh log then reads from the file
what was persisted last.
-/
namespace NexgileIde.Chat

open Library JsValue

variable {σ : Type}

/-! ## Entries of the root -/

namespace Transform

variable {children : List (String × Transform σ)}

/-- A diff of properties has no entry for the object itself. -/
theorem exists_under_of_diffChildren {prev curr : JsValue} :
    ∀ {inKeys : Bool} {entries : List Entry},
      diffChildren children inKeys [] prev curr = .ok entries →
      ∀ e ∈ entries, ∃ name e', e = Entry.under (.name name) e' := by
  induction children with
  | nil =>
    intro inKeys entries h
    cases h
    simp
  | cons child children ih =>
    intro inKeys entries h
    unfold diffChildren at h
    split_ifs at h
    · exact ih h
    · obtain ⟨_, -, h⟩ := bind_eq_ok.mp h
      obtain ⟨_, hfirst, h⟩ := bind_eq_ok.mp h
      obtain ⟨rest, hrest, h⟩ := bind_eq_ok.mp h
      cases h
      obtain ⟨first, -, rfl⟩ :=
        relocate_eq_ok.mp ((relocate_diff (.name child.1) child.2 _ _ _).trans hfirst)
      intro e he
      rcases List.mem_append.mp he with hmem | hmem
      · obtain ⟨e', -, rfl⟩ := List.mem_map.mp hmem
        exact ⟨child.1, e', rfl⟩
      · exact ih hrest e hmem

theorem hasKeyMismatch_of_no_keys (hkeys : ∀ child ∈ children, child.2.isKey = false)
    (prev curr : JsValue) : hasKeyMismatch children prev curr = some false := by
  cases children with
  | nil => rfl
  | cons child children =>
    obtain ⟨name, transform⟩ := child
    have hkey : transform.isKey = false := hkeys _ List.mem_cons_self
    cases transform with
    | key get equals => cases hkey
    | _ => rfl

theorem exists_under_of_diff {get : σ → Option (Source σ)}
    {isSealed : Option (JsValue → Bool → Option Bool)}
    (hkeys : ∀ child ∈ children, child.2.isKey = false) {ps cs : List (String × JsValue)}
    {entries : List Entry}
    (h : diff (object get children isSealed) [] (.obj ps) (.obj cs) = .ok entries) :
    ∀ e ∈ entries, ∃ name e', e = Entry.under (.name name) e' := by
  unfold diff diffObject at h
  rw [if_neg (by simp [isNullish]), hasKeyMismatch_of_no_keys hkeys] at h
  obtain ⟨_, hb, h⟩ := bind_eq_ok.mp h
  cases hb
  obtain ⟨b, -, h⟩ := bind_eq_ok.mp h
  cases b with
  | true =>
    cases h
    simp
  | false => exact exists_under_of_diffChildren h

theorem extract_object {get : σ → Option (Source σ)}
    {isSealed : Option (JsValue → Bool → Option Bool)} {source : σ} {value : JsValue}
    (hobject : get source ≠ some .undefined ∧ get source ≠ some .null)
    (h : extract (object get children isSealed) source = .ok value) :
    ∃ props, value = .obj props := by
  unfold extract at h
  obtain ⟨x, hx, h⟩ := bind_eq_ok.mp h
  cases hget : get source with
  | none =>
    rw [hget] at hx
    cases hx
  | some y =>
    rw [hget] at hx
    cases hx
    cases x with
    | undefined => exact absurd hget hobject.1
    | null => exact absurd hget hobject.2
    | present x =>
      obtain ⟨props, -, h⟩ := bind_eq_ok.mp h
      cases h
      exact ⟨props, rfl⟩

/-- An object is read for an object. -/
theorem readAs_obj {get : σ → Option (Source σ)}
    {isSealed : Option (JsValue → Bool → Option Bool)} {value : JsValue}
    {props : List (String × JsValue)} (h : ReadAs (object get children isSealed) value (.obj props)) :
    ∃ props', value = .obj props' := by
  rcases h with ⟨hnullish, rfl⟩ | ⟨props', _, rfl, -, -⟩
  · cases hnullish
  · exact ⟨props', rfl⟩

end Transform

theorem applyEntry_under {segment : Segment} {e : Entry} {value value' : JsValue}
    (hvalue : value ≠ .undefined) (h : (e.under segment).applyTo value = some value') :
    applyEntry value (e.under segment).json = .ok value' := by
  cases e with
  | initial v => cases h
  | _ =>
    cases value with
    | undefined => exact absurd rfl hvalue
    | _ =>
      simp only [Entry.under, Entry.applyTo] at h
      simp [Entry.under, Entry.json, applyEntry, applySet, applyPush, h]

/-- Lines below the root are read as their entries are replayed. -/
theorem foldlM_applyEntry {entries : List Entry}
    (hunder : ∀ e ∈ entries, ∃ name e', e = Entry.under (.name name) e') :
    ∀ {props : List (String × JsValue)} {value : JsValue},
      replay entries (.obj props) = some value →
      (entries.map Entry.json).foldlM applyEntry (.obj props) = .ok value := by
  induction entries with
  | nil =>
    intro props value h
    cases h
    rfl
  | cons e entries ih =>
    intro props value h
    obtain ⟨next, hnext, hrest⟩ := Option.bind_eq_some_iff.mp h
    obtain ⟨name, e', rfl⟩ := hunder e List.mem_cons_self
    have hline := applyEntry_under (by simp) hnext
    rw [applyTo_under_name] at hnext
    obtain ⟨v, -, rfl⟩ := Option.map_eq_some_iff.mp hnext
    rw [List.map_cons, List.foldlM_cons, hline]
    exact ih (fun other hother => hunder other (List.mem_cons_of_mem _ hother)) hrest

/-! ## Writes -/

theorem mapError_eq_ok {ε ε' α : Type} {f : ε → ε'} {e : Except ε α} {a : α} :
    e.mapError f = .ok a ↔ e = .ok a := by
  cases e <;> simp [Except.mapError]

namespace ObjectMutationLog

/-- A write leaves the confirmed state alone, and returns what is to be confirmed. -/
theorem write_cases {log log' : ObjectMutationLog σ} {current : σ} {op : Op} {data : List Entry}
    (h : log.write current = .ok ((op, data), log')) :
    log'.transform = log.transform ∧ log'.previous = log.previous ∧
    ∃ v, log.transform.extract current = .ok v ∧
      ((log.startsOver = true ∧ op = .replace ∧ data = [(Entry.initial v).json] ∧
        log'.hasPendingWrite = true ∧ log'.pendingPrevious = v) ∨
      (log.startsOver = false ∧ op = .append ∧ ∃ entries,
        log.transform.diff [] log.previous v = .ok entries ∧ data = entries.map Entry.json ∧
        (log'.hasPendingWrite = true ∧ log'.pendingPrevious = v ∨
          log'.hasPendingWrite = false ∧ entries = []))) := by
  unfold write at h
  obtain ⟨v, hextract, h⟩ := bind_eq_ok.mp h
  have hextract := mapError_eq_ok.mp hextract
  split_ifs at h with hover
  · cases h
    exact ⟨rfl, rfl, v, hextract, .inl ⟨hover, rfl, rfl, rfl, rfl⟩⟩
  · have hover := Bool.eq_false_iff.mpr hover
    obtain ⟨entries, hdiff, h⟩ := bind_eq_ok.mp h
    have hdiff := mapError_eq_ok.mp hdiff
    split_ifs at h with hempty
    · obtain rfl := List.isEmpty_iff.mp hempty
      cases h
      exact ⟨rfl, rfl, v, hextract, .inr ⟨hover, rfl, [], hdiff, rfl, .inr ⟨rfl, rfl⟩⟩⟩
    · cases h
      exact ⟨rfl, rfl, v, hextract, .inr ⟨hover, rfl, entries, hdiff, rfl, .inl ⟨rfl, rfl⟩⟩⟩

theorem confirmWrite_transform (log : ObjectMutationLog σ) :
    log.confirmWrite.transform = log.transform := by
  unfold confirmWrite
  split_ifs <;> rfl

theorem confirmWrite_previous (log : ObjectMutationLog σ) : log.confirmWrite.previous =
    if log.hasPendingWrite then log.pendingPrevious else log.previous := by
  unfold confirmWrite
  split_ifs <;> rfl

end ObjectMutationLog

/-! ## Runs -/

/-- A write, which the file system may refuse. -/
structure Attempt (σ : Type) where
  current : σ
  persisted : Bool

/-- The log with its file, and the extraction of the last persisted object. -/
structure Store (σ : Type) where
  log : ObjectMutationLog σ
  file : List Entry
  last : Option JsValue

namespace Store

def new (transform : Transform σ) (compactAfterEntries : ℕ) : Store σ where
  log := .new transform compactAfterEntries
  file := []
  last := none

/-- A write is confirmed once it is persisted. One that throws changes nothing. -/
def step (s : Store σ) (a : Attempt σ) : Store σ :=
  match s.log.write a.current with
  | .error _ => s
  | .ok ((op, data), log) =>
    if a.persisted then
      { log := log.confirmWrite
        file := match op with
          | .append => s.file ++ data
          | .replace => data
        last := (s.log.transform.extract a.current).toOption }
    else { s with log := log }

def run (s : Store σ) (attempts : List (Attempt σ)) : Store σ := attempts.foldl step s

/-- What a write that is persisted does, and that others change nothing that matters. -/
theorem step_cases (s : Store σ) (a : Attempt σ) :
    (s.step a).log.transform = s.log.transform ∧
    (((s.step a).log.previous = s.log.previous ∧ (s.step a).file = s.file ∧
      (s.step a).last = s.last) ∨
    (a.persisted = true ∧ ∃ v, s.log.transform.extract a.current = .ok v ∧
      (s.step a).last = some v ∧
      ((s.log.startsOver = true ∧ (s.step a).log.previous = v ∧
        (s.step a).file = [(Entry.initial v).json]) ∨
      (s.log.startsOver = false ∧ ∃ entries,
        s.log.transform.diff [] s.log.previous v = .ok entries ∧
        ((s.step a).log.previous = v ∨
          (s.step a).log.previous = s.log.previous ∧ entries = []) ∧
        (s.step a).file = s.file ++ entries.map Entry.json)))) := by
  unfold step
  cases hwrite : s.log.write a.current with
  | error err => exact ⟨rfl, .inl ⟨rfl, rfl, rfl⟩⟩
  | ok result =>
    obtain ⟨⟨op, data⟩, log⟩ := result
    obtain ⟨htransform, hprevious, v, hextract, hcases⟩ := ObjectMutationLog.write_cases hwrite
    cases hpersisted : a.persisted with
    | false => exact ⟨htransform, .inl ⟨hprevious, rfl, rfl⟩⟩
    | true =>
      refine ⟨log.confirmWrite_transform.trans htransform, .inr ⟨rfl, v, hextract, ?_, ?_⟩⟩
      · rw [hextract]
        rfl
      · rcases hcases with ⟨hover, rfl, rfl, hpending, hv⟩ | ⟨hover, rfl, entries, hdiff, rfl, hv⟩
        · have hconfirm := log.confirmWrite_previous
          rw [if_pos hpending, hv] at hconfirm
          exact .inl ⟨hover, hconfirm, rfl⟩
        · refine .inr ⟨hover, entries, hdiff, ?_, rfl⟩
          have hconfirm := log.confirmWrite_previous
          rcases hv with ⟨hpending, hv⟩ | ⟨hpending, hempty⟩
          · rw [if_pos hpending, hv] at hconfirm
            exact .inl hconfirm
          · rw [if_neg (Bool.eq_false_iff.mp hpending), hprevious] at hconfirm
            exact .inr ⟨hconfirm, hempty⟩

/-! ## What the file holds -/

/-- The file is read as what was confirmed, and as what was persisted last. -/
structure Holds (t : Transform σ) (s : Store σ) (p f : List (String × JsValue)) : Prop where
  previous : s.log.previous = .obj p
  shape : t.Shape (.obj p)
  file : s.file.foldlM applyEntry .undefined = .ok (.obj f)
  readAs_previous : t.ReadAs (.obj f) (.obj p)
  readAs_last : ∃ x, s.last = some x ∧ t.ReadAs (.obj f) x

/-- Nothing is confirmed before something is persisted. -/
structure Inv (t : Transform σ) (s : Store σ) : Prop where
  transform : s.log.transform = t
  holds : (s.log.previous = .undefined ∧ s.last = none) ∨ ∃ p f, Holds t s p f

/-- The sealed objects of a schema do not change from one object to another. -/
abbrev SealedUnchanged (t : Transform σ) : JsValue → JsValue → Prop :=
  t.Compares Transform.UnchangedObject fun _ _ => True

/-- JSON loses only properties that are `undefined`, and where items are appended to the
file, a null item is compared with the same null item only. -/
def PersistsCleanly (s : Store σ) (a : Attempt σ) : Prop :=
  a.persisted = true → ∀ v, s.log.transform.extract a.current = .ok v → Representable v ∧
    (s.log.startsOver = false →
      s.log.transform.Compares (fun _ _ _ => True) Transform.NullsMatch s.log.previous v)

section Root

variable {get : σ → Option (Source σ)} {children : List (String × Transform σ)}
  {isSealed : Option (JsValue → Bool → Option Bool)} {s : Store σ} {a : Attempt σ}

/-- The getter does not return `undefined` or `null`. -/
def IsObject (get : σ → Option (Source σ)) (source : σ) : Prop :=
  get source ≠ some .undefined ∧ get source ≠ some .null

theorem inv_step (htrans : Transform.AllEqualsIn Transitive children)
    (hdistinct : (Transform.object get children isSealed).DistinctNames)
    (hkeys : ∀ child ∈ children, child.2.isKey = false)
    (hinv : Inv (.object get children isSealed) s) (hobject : IsObject get a.current)
    (hsealed : ∀ v, (Transform.object get children isSealed).extract a.current = .ok v →
      SealedUnchanged (.object get children isSealed) s.log.previous v)
    (hclean : s.PersistsCleanly a) : Inv (.object get children isSealed) (s.step a) := by
  obtain ⟨htransform, hkept | ⟨hpersisted, v, hextract, hlast, hwritten⟩⟩ := s.step_cases a
  · obtain ⟨hprevious, hfile, hlast⟩ := hkept
    refine ⟨htransform.trans hinv.transform, ?_⟩
    rcases hinv.holds with ⟨hnone, hnothing⟩ | ⟨p, f, hholds⟩
    · exact .inl ⟨hprevious.trans hnone, hlast.trans hnothing⟩
    · refine .inr ⟨p, f, hprevious.trans hholds.previous, hholds.shape, ?_,
        hholds.readAs_previous, ?_⟩
      · rw [hfile]
        exact hholds.file
      · rw [hlast]
        exact hholds.readAs_last
  · obtain ⟨hjson, hnulls⟩ := hclean hpersisted v hextract
    rw [hinv.transform] at hextract hnulls hwritten
    have hshape := Transform.shape_extract _ hdistinct hextract
    obtain ⟨c, rfl⟩ := Transform.extract_object hobject hextract
    have hreadCurr := Transform.readAs_json _ hdistinct hshape hjson
    refine ⟨htransform.trans hinv.transform, .inr ?_⟩
    rcases hwritten with ⟨-, hprevious, hfile⟩ | ⟨hover, entries, hdiff, hprevious, hfile⟩
    · refine ⟨c, jsonProps c, hprevious, hshape, ?_, hreadCurr, .obj c, hlast, hreadCurr⟩
      rw [hfile]
      rfl
    · rcases hinv.holds with ⟨hnone, -⟩ | ⟨p, f, hholds⟩
      · -- without a confirmed state the write starts over
        unfold ObjectMutationLog.startsOver at hover
        rw [hnone] at hover
        cases hover
      · rw [hholds.previous] at hdiff hprevious hsealed hnulls
        have hdiffable := Transform.diffable_of _ (hsealed _ hextract) (hnulls hover)
        obtain ⟨value', hreplay, hread⟩ := Transform.replay_diff
          (.object get children isSealed) htrans hdistinct hholds.readAs_previous hholds.shape hshape hjson hdiffable hdiff
        have hlines := foldlM_applyEntry (Transform.exists_under_of_diff hkeys hdiff) hreplay
        have hfile' : (s.step a).file.foldlM applyEntry .undefined = .ok value' := by
          rw [hfile, List.foldlM_append, hholds.file]
          exact hlines
        obtain ⟨f', rfl⟩ := Transform.readAs_obj hread
        rcases hprevious with hprevious | ⟨hprevious, rfl⟩
        · exact ⟨c, f', hprevious, hshape, hfile', hread, .obj c, hlast, hread⟩
        · -- nothing has changed for the comparators, and nothing is confirmed
          cases hreplay
          exact ⟨p, f, hprevious, hholds.shape, hfile', hholds.readAs_previous, .obj c, hlast, hread⟩

end Root

/-! ## Reading the file -/

/-- A fresh log reads from the file what was persisted last. -/
def ReadsLast (t : Transform σ) (compactAfterEntries : ℕ) (s : Store σ) : Prop :=
  ∀ x, s.last = some x → ∃ value log,
    (ObjectMutationLog.new t compactAfterEntries).read s.file = .ok (value, log) ∧
      t.ReadAs value x

theorem Inv.readsLast {t : Transform σ} {s : Store σ} (hinv : Inv t s) (m : ℕ) :
    s.ReadsLast t m := by
  intro x hx
  rcases hinv.holds with ⟨-, hnothing⟩ | ⟨p, f, hholds⟩
  · rw [hnothing] at hx
    cases hx
  · obtain ⟨y, hy, hread⟩ := hholds.readAs_last
    rw [hy] at hx
    cases hx
    have hfile := hholds.file
    unfold ObjectMutationLog.read
    cases hlines : s.file with
    | nil =>
      rw [hlines] at hfile
      cases hfile
    | cons line lines =>
      rw [hlines] at hfile
      rw [hfile]
      exact ⟨.obj f, _, rfl, hread⟩

/-- Every write of the run persists cleanly. -/
def CleanRun (s : Store σ) : List (Attempt σ) → Prop
  | [] => True
  | a :: attempts => s.PersistsCleanly a ∧ CleanRun (s.step a) attempts

/-- A schema and a sequence of objects that are written with it: comparators are
equivalences on what they compare, no property of the root is a key, and sealed objects
do not change. -/
structure Writable (get : σ → Option (Source σ)) (children : List (String × Transform σ))
    (isSealed : Option (JsValue → Bool → Option Bool)) (attempts : List (Attempt σ)) : Prop where
  symmetric : Transform.AllEqualsIn Symmetric children
  transitive : Transform.AllEqualsIn Transitive children
  distinct : (Transform.object get children isSealed).DistinctNames
  no_keys : ∀ child ∈ children, child.2.isKey = false
  objects : ∀ a ∈ attempts, IsObject get a.current
  unchanged : attempts.Pairwise fun a b => ∀ x y,
    (Transform.object get children isSealed).extract a.current = .ok x →
    (Transform.object get children isSealed).extract b.current = .ok y →
    SealedUnchanged (.object get children isSealed) x y

theorem previous_step (s : Store σ) (a : Attempt σ) :
    (s.step a).log.previous = s.log.previous ∨
      s.log.transform.extract a.current = .ok (s.step a).log.previous := by
  obtain ⟨-, hkept | ⟨-, v, hextract, -, hwritten⟩⟩ := s.step_cases a
  · exact .inl hkept.1
  · rcases hwritten with ⟨-, hprevious, -⟩ | ⟨-, _, -, hprevious | ⟨hprevious, -⟩, -⟩
    · exact .inr (hprevious ▸ hextract)
    · exact .inr (hprevious ▸ hextract)
    · exact .inl hprevious

theorem inv_run {get : σ → Option (Source σ)} {children : List (String × Transform σ)}
    {isSealed : Option (JsValue → Bool → Option Bool)} {attempts : List (Attempt σ)} :
    ∀ {s : Store σ}, Writable get children isSealed attempts →
      Inv (.object get children isSealed) s →
      (∀ a ∈ attempts, ∀ v, (Transform.object get children isSealed).extract a.current = .ok v →
        SealedUnchanged (.object get children isSealed) s.log.previous v) →
      s.CleanRun attempts → Inv (.object get children isSealed) (s.run attempts) := by
  induction attempts with
  | nil =>
    intro s _ hinv _ _
    exact hinv
  | cons a attempts ih =>
    intro s hw hinv hsealed hclean
    obtain ⟨hfirst, hrest⟩ := List.pairwise_cons.mp hw.unchanged
    have hstep := inv_step hw.transitive hw.distinct hw.no_keys hinv
      (hw.objects a List.mem_cons_self) (hsealed a List.mem_cons_self) hclean.1
    have hw' : Writable get children isSealed attempts :=
      { hw with
        objects := fun b hb => hw.objects b (List.mem_cons_of_mem _ hb)
        unchanged := hrest }
    refine ih hw' hstep ?_ hclean.2
    intro b hb v hv
    rcases s.previous_step a with hprevious | hextract
    · rw [hprevious]
      exact hsealed b (List.mem_cons_of_mem _ hb) v hv
    · rw [hinv.transform] at hextract
      exact hfirst b hb _ v hextract hv

/-- Whatever the file system refuses, the file is read as the last object that it took. -/
theorem readsLast_of_cleanRun {get : σ → Option (Source σ)}
    {children : List (String × Transform σ)} {isSealed : Option (JsValue → Bool → Option Bool)}
    {attempts : List (Attempt σ)} (n m : ℕ) (hw : Writable get children isSealed attempts)
    (hclean : (new (.object get children isSealed) n).CleanRun attempts) :
    ((new (.object get children isSealed) n).run attempts).ReadsLast
      (.object get children isSealed) m := by
  refine (inv_run hw ⟨rfl, .inl ⟨rfl, rfl⟩⟩ ?_ hclean).readsLast m
  -- nothing is compared with `undefined`
  intro a _ v _ hprev
  cases hprev

/-! ## Logs of plain values -/

def valueAt (name : String) (source : JsValue) : Option JsValue := source.get? (.name name)

def itemsAt (name : String) (source : JsValue) : Option (Option (List JsValue)) :=
  match source.get? (.name name) with
  | some (.arr items) => some (some items)
  | some .undefined | some .null => some none
  | _ => none

def itself : JsValue → Option (Source JsValue)
  | .undefined => some .undefined
  | .null => some .null
  | value => some (.present value)

/-- Requests that are sealed once they are complete. -/
def requestSchema : List (String × Transform JsValue) :=
  [("requests", .array (itemsAt "requests") (.object itself
    [("id", .key (valueAt "id") strictEquals), ("text", .primitive (valueAt "text") strictEquals),
      ("complete", .primitive (valueAt "complete") strictEquals)]
    (some fun request _ => strictEquals (Transform.optionalProp request "complete") (.bool true))))]

def request (id : ℚ) (text : String) (complete : Bool) : JsValue :=
  .obj [("id", .num id), ("text", .str text), ("complete", .bool complete)]

/-- The second write is refused, and the third is compared with the first. -/
def requestAttempts : List (Attempt JsValue) :=
  [⟨.obj [("requests", .arr [request 1 "a" true])], true⟩,
    ⟨.obj [("requests", .arr [])], false⟩,
    ⟨.obj [("requests", .arr [request 1 "a" true, request 2 "b" false])], true⟩]

theorem writable_requestAttempts : Writable itself requestSchema none requestAttempts where
  symmetric := ⟨⟨strictEquals_symmetric, strictEquals_symmetric, strictEquals_symmetric, trivial⟩,
    trivial⟩
  transitive := ⟨⟨strictEquals_transitive, strictEquals_transitive, strictEquals_transitive,
    trivial⟩, trivial⟩
  distinct := by simp [requestSchema, Transform.DistinctNames, Transform.DistinctNamesIn, Transform.names]
  no_keys := by simp [requestSchema, Transform.isKey]
  objects := by simp [requestAttempts, IsObject, itself]
  unchanged := by
    refine .cons ?_ (.cons ?_ (.cons ?_ .nil))
    · intro b hb x y hx hy
      cases hx
      rcases List.mem_pair.mp hb with rfl | rfl
      · cases hy
        exact fun _ _ _ => ⟨fun h => by (cases h), fun _ => ⟨trivial, trivial⟩⟩
      · cases hy
        refine fun _ _ _ => ⟨fun h => by (cases h), fun _ => ⟨?_, trivial⟩⟩
        refine fun _ => ⟨⟨trivial, fun _ => ?_, fun h => ?_⟩, trivial⟩
        · exact .inr ⟨_, _, rfl, rfl, ⟨.inl rfl, .inl rfl, .inl rfl, trivial⟩, fun _ _ => rfl⟩
        · exact ⟨trivial, trivial, trivial, trivial⟩
    · intro b hb x y hx hy
      cases hx
      rw [List.mem_singleton] at hb
      subst hb
      cases hy
      exact fun _ _ _ => ⟨fun h => by (cases h), fun _ => ⟨trivial, trivial⟩⟩
    · simp

theorem readsLast_requestAttempts :
    ((new (.object itself requestSchema none) 2).run requestAttempts).ReadsLast
      (.object itself requestSchema none) 2 := by
  apply readsLast_of_cleanRun 2 2 writable_requestAttempts
  refine ⟨?_, ?_, ?_, trivial⟩
  · intro _ v hv
    cases hv
    exact ⟨rfl, fun h => by (cases h)⟩
  · intro h
    cases h
  · intro _ v hv
    cases hv
    refine ⟨rfl, fun _ _ _ _ => ⟨fun h => by (cases h), fun _ => ⟨?_, trivial⟩⟩⟩
    refine fun _ => ⟨⟨?_, fun _ => trivial, fun _ => ⟨trivial, trivial, trivial, trivial⟩⟩, trivial⟩
    rintro (h | h) <;> cases h

/-- `{ n: value() }` -/
def numberSchema : List (String × Transform JsValue) :=
  [("n", .primitive (valueAt "n") strictEquals)]

def numberAttempts : List (Attempt JsValue) := [⟨.obj [("n", .nan)], true⟩]

/-- `{ arr: array(object({ a: value() })) }` -/
def arraySchema : List (String × Transform JsValue) :=
  [("arr", .array (itemsAt "arr") (.object itself
    [("a", .primitive (valueAt "a") strictEquals)] none))]

def arrayAttempts : List (Attempt JsValue) :=
  [⟨.obj [("arr", .arr [.null])], true⟩, ⟨.obj [("arr", .arr [.obj [("a", .num 1)]])], true⟩]

/-- JSON has no `NaN`, and a diff against a null item writes entries below it, which
cannot be replayed. -/
theorem not_readsLast :
    (Writable itself numberSchema none numberAttempts ∧
      ¬ ((new (.object itself numberSchema none) 512).run numberAttempts).ReadsLast
        (.object itself numberSchema none) 512) ∧
    (Writable itself arraySchema none arrayAttempts ∧
      ¬ ((new (.object itself arraySchema none) 512).run arrayAttempts).ReadsLast
        (.object itself arraySchema none) 512) := by
  refine ⟨⟨⟨⟨strictEquals_symmetric, trivial⟩, ⟨strictEquals_transitive, trivial⟩, ?_, ?_, ?_, ?_⟩,
    ?_⟩, ⟨⟨⟨strictEquals_symmetric, trivial⟩, trivial⟩, ⟨⟨strictEquals_transitive, trivial⟩, trivial⟩,
    ?_, ?_, ?_, ?_⟩, ?_⟩
  · simp [numberSchema, Transform.DistinctNames, Transform.DistinctNamesIn, Transform.names]
  · simp [numberSchema, Transform.isKey]
  · simp [numberAttempts, IsObject, itself]
  · simp [numberAttempts]
  · intro hreads
    obtain ⟨value, log, hread, hvalue⟩ := hreads (.obj [("n", .nan)]) rfl
    cases hread
    rcases hvalue with ⟨hnullish, -⟩ | ⟨_, _, hps, hqs, ⟨⟨a, hnull, hsame⟩, -⟩, -⟩
    · cases hnullish
    · cases hps
      cases hqs
      -- only `null` is written as `null`
      have ha : a = .null := by
        by_contra hne
        exact dropUndefined_ne_null hne hnull.symm
      subst ha
      rcases hsame with h | h <;> cases h
  · simp [arraySchema, Transform.DistinctNames, Transform.DistinctNamesIn, Transform.names]
  · simp [arraySchema, Transform.isKey]
  · simp [arrayAttempts, IsObject, itself]
  · refine .cons ?_ (.cons (by simp) .nil)
    intro b hb x y hx hy
    cases hx
    rw [List.mem_singleton] at hb
    subst hb
    cases hy
    refine fun _ _ _ => ⟨fun h => by (cases h), fun _ => ⟨fun _ => ⟨⟨trivial, ?_⟩, trivial⟩, trivial⟩⟩
    exact ⟨fun h => by (cases h), fun _ => ⟨trivial, trivial⟩⟩
  · intro hreads
    obtain ⟨value, log, hread, -⟩ := hreads (.obj [("arr", .arr [.obj [("a", .num 1)]])]) rfl
    cases hread

end Store

end NexgileIde.Chat
