import NexgileIde.Edits.Edit
import NexgileIde.Edits.EditCompose
import NexgileIde.Library.Patch

/-!
# String edits

Replacements of offset ranges by strings, as the editor applies, normalises and
composes them. The effect of an edit is that of the patches it denotes.
-/
namespace NexgileIde.Edits

open Text Library

structure StringReplacement where
  replaceRange : OffsetRange
  newText : Str
  deriving DecidableEq, Repr

namespace StringReplacement

def tryJoinTouching (r other : StringReplacement) :
    Except BugIndicatingError (Option StringReplacement) := do
  let joined ← r.replaceRange.joinRightTouching other.replaceRange
  return some ⟨joined, r.newText ++ other.newText⟩

def slice (r : StringReplacement) (range rangeInReplacement : OffsetRange) : StringReplacement :=
  ⟨range, rangeInReplacement.substring r.newText⟩

def toPatch (r : StringReplacement) : Patch CodeUnit :=
  ⟨r.replaceRange.start, r.replaceRange.endExclusive, r.newText⟩

@[simp] theorem toPatch_start (r : StringReplacement) : r.toPatch.start = r.replaceRange.start := rfl
@[simp] theorem toPatch_stop (r : StringReplacement) :
    r.toPatch.stop = r.replaceRange.endExclusive := rfl
@[simp] theorem toPatch_text (r : StringReplacement) : r.toPatch.text = r.newText := rfl

end StringReplacement

instance : BaseReplacement StringReplacement where
  replaceRange := StringReplacement.replaceRange
  getNewLength r := r.newText.length
  tryJoinTouching := StringReplacement.tryJoinTouching
  slice := StringReplacement.slice

abbrev StringEdit := BaseEdit StringReplacement

@[simp] theorem replaceRange_eq (r : StringReplacement) :
    BaseReplacement.replaceRange r = r.replaceRange := rfl
@[simp] theorem getNewLength_eq (r : StringReplacement) :
    BaseReplacement.getNewLength r = (r.newText.length : Int) := rfl

def patches (rs : List StringReplacement) : List (Patch CodeUnit) := rs.map (·.toPatch)

@[simp] theorem patches_nil : patches [] = [] := rfl
@[simp] theorem patches_cons (r : StringReplacement) (rs : List StringReplacement) :
    patches (r :: rs) = r.toPatch :: patches rs := rfl

/-- The loop of `BaseStringEdit.apply`. -/
def applyFrom (base : Str) : Int → List StringReplacement → Str
  | pos, [] => substringFrom base pos
  | pos, edit :: rest =>
    substring base pos edit.replaceRange.start ++ edit.newText ++
      applyFrom base edit.replaceRange.endExclusive rest

def StringEdit.apply (e : StringEdit) (base : Str) : Str := applyFrom base 0 e.replacements

/-- Every replaced range lies in a text of length `n`. -/
def StringEdit.Within (e : StringEdit) (n : ℕ) : Prop :=
  ∀ r ∈ e.replacements, 0 ≤ r.replaceRange.start ∧ r.replaceRange.endExclusive ≤ n

instance (e : StringEdit) (n : ℕ) : Decidable (e.Within n) :=
  inferInstanceAs (Decidable (∀ r ∈ e.replacements, _))

instance : BaseStringReplacement StringReplacement CodeUnit where
  newText := StringReplacement.newText
  getNewLength_eq _ := rfl
  slice_replaceRange _ _ _ := rfl
  slice_newText _ _ _ := rfl
  joins l r htouch := by
    have hjoin := OffsetRange.joinRightTouching_of_eq htouch
    simp only [replaceRange_eq] at hjoin
    simp only [BaseReplacement.tryJoinTouching, StringReplacement.tryJoinTouching, hjoin]
    exact .inr ⟨_, rfl, rfl, rfl, rfl⟩

@[simp] theorem newText_eq (r : StringReplacement) : newText r = r.newText := rfl

theorem applyFrom_eq (base : Str) (pos : Int) (rs : List StringReplacement) :
    BaseStringEdit.applyFrom base pos rs = applyFrom base pos rs := by
  induction rs generalizing pos with
  | nil => rfl
  | cons r rs ih =>
    unfold BaseStringEdit.applyFrom applyFrom
    rw [ih]
    rfl

/-- String edits are applied the way every edit with texts is. -/
theorem StringEdit.apply_eq (e : StringEdit) (base : Str) :
    BaseStringEdit.apply e base = e.apply base := applyFrom_eq base 0 e.replacements

/-- An edit within a text of length `n` denotes patches that fit into the text. -/
theorem StringEdit.Within.fits {e : StringEdit} {n : ℕ} (h : e.Within n) :
    Patch.Fits 0 n (patches e.replacements) := BaseEdit.Inside.fits h

theorem StringEdit.Within.apply_eq_run {e : StringEdit} {base : Str} (h : e.Within base.length) :
    e.apply base = Patch.run 0 (patches e.replacements) base := by
  rw [← StringEdit.apply_eq]
  exact BaseEdit.Inside.apply_eq_run h

/-- The constructor accepts replacements that fit into some text. -/
theorem createNew_of_fits {n : Int} {rs : List StringReplacement}
    (h : Patch.Fits 0 n (patches rs)) :
    ∃ e : StringEdit, BaseEdit.createNew rs = .ok e ∧ e.replacements = rs :=
  createNew_of_patches h

theorem within_of_fits {n : ℕ} {e : StringEdit} (h : Patch.Fits 0 n (patches e.replacements)) :
    e.Within n := inside_of_fits h

end NexgileIde.Edits

/-!
## Composition of string edits is sequential application

The general composition of edits, for string edits and the way these are applied.
-/
namespace NexgileIde.Edits

open Text

theorem StringEdit.compose_spec (base : Str) (e other : StringEdit)
    (he : e.Within base.length) (ho : other.Within (e.apply base).length) :
    ∃ composed : StringEdit, e.compose other = .ok composed ∧ composed.Within base.length ∧
      composed.apply base = other.apply (e.apply base) ∧
      ∃ raw : StringEdit, raw.normalize = .ok composed := by
  rw [← StringEdit.apply_eq] at ho
  obtain ⟨composed, hcomposed, hwithin, happly, hraw⟩ := BaseEdit.compose_spec base e other he ho
  simp only [StringEdit.apply_eq] at happly
  exact ⟨composed, hcomposed, hwithin, happly, hraw⟩

/-- Composition never fails and is sequential application. -/
theorem StringEdit.compose_apply (base : Str) (e other : StringEdit)
    (he : e.Within base.length) (ho : other.Within (e.apply base).length) :
    ∃ composed : StringEdit, e.compose other = .ok composed ∧
      composed.apply base = other.apply (e.apply base) := by
  obtain ⟨composed, hcomposed, -, happly, -⟩ := StringEdit.compose_spec base e other he ho
  exact ⟨composed, hcomposed, happly⟩

/-- `abc` with `b` replaced by `xy`, and then `ya` of the result replaced by nothing. -/
theorem StringEdit.compose_apply_overlap :
    ∃ composed : StringEdit,
      BaseEdit.compose (T := StringReplacement) ⟨[⟨⟨1, 2, by decide⟩, [120, 121]⟩], rfl⟩
        ⟨[⟨⟨2, 4, by decide⟩, []⟩], rfl⟩ = .ok composed ∧ composed.apply [97, 98, 99] = [97, 120] :=
  StringEdit.compose_apply [97, 98, 99] ⟨[⟨⟨1, 2, by decide⟩, [120, 121]⟩], rfl⟩
    ⟨[⟨⟨2, 4, by decide⟩, []⟩], rfl⟩ (by decide) (by decide)

end NexgileIde.Edits

/-!
## Normalised string edits are canonical

Touching replacements of strings always join, so a normalised edit denotes
canonical patches, and these are determined by the effect of the edit.
-/
namespace NexgileIde.Edits

open Text Library Patch

def OffsetRange.equals (r other : OffsetRange) : Bool :=
  r.start == other.start && r.endExclusive == other.endExclusive

def StringReplacement.equals (r other : StringReplacement) : Bool :=
  r.replaceRange.equals other.replaceRange && r.newText == other.newText

/-- `BaseEdit.equals` for string edits. -/
def StringEdit.equals (e other : StringEdit) : Bool :=
  e.replacements.length == other.replacements.length &&
    (e.replacements.zip other.replacements).all fun pair => pair.1.equals pair.2

theorem StringReplacement.equals_iff (r other : StringReplacement) :
    r.equals other = true ↔ r = other := by
  obtain ⟨⟨start, stop, hle⟩, text⟩ := r
  obtain ⟨⟨start', stop', hle'⟩, text'⟩ := other
  simp [StringReplacement.equals, OffsetRange.equals]

theorem StringEdit.equals_iff (e other : StringEdit) :
    e.equals other = true ↔ e.replacements = other.replacements := by
  unfold StringEdit.equals
  generalize e.replacements = rs
  generalize other.replacements = rs'
  induction rs generalizing rs' with
  | nil => cases rs' <;> simp
  | cons r rs ih =>
    cases rs' with
    | nil => simp
    | cons r' rs' =>
      have hrest := ih rs'
      simp only [Bool.and_eq_true, beq_iff_eq, List.all_eq_true] at hrest
      simp only [List.length_cons, List.zip_cons_cons, List.all_cons, Bool.and_eq_true, beq_iff_eq,
        StringReplacement.equals_iff, List.cons.injEq, List.all_eq_true, ← hrest]
      constructor
      · rintro ⟨hlen, hr, hall⟩
        exact ⟨hr, by omega, hall⟩
      · rintro ⟨hr, hlen, hall⟩
        exact ⟨by omega, hr, hall⟩

theorem patches_injective {rs rs' : List StringReplacement} (h : patches rs = patches rs') :
    rs = rs' := by
  refine List.map_injective_iff.mpr (fun r r' hr => ?_) h
  obtain ⟨⟨start, stop, hle⟩, text⟩ := r
  obtain ⟨⟨start', stop', hle'⟩, text'⟩ := r'
  simpa [StringReplacement.toPatch, and_assoc] using hr

theorem proper_of_not_empty {r : StringReplacement}
    (h : ¬ ((r.newText.length : Int) = 0 ∧ r.replaceRange.length = 0)) : r.toPatch.Proper := by
  rintro ⟨htext, hrange⟩
  simp only [StringReplacement.toPatch_text] at htext
  simp only [StringReplacement.toPatch_start, StringReplacement.toPatch_stop] at hrange
  refine h ⟨by rw [htext]; rfl, ?_⟩
  rw [OffsetRange.length, hrange, sub_self]

/-- With a replacement pending, the result starts where that one does. -/
theorem normalizeLoop_canonical_some {k : Int} {l : StringReplacement}
    {rs out : List StringReplacement} (hsorted : SortedFrom k (l :: rs)) (hl : l.toPatch.Proper)
    (h : normalizeLoop (some l) rs = .ok out) :
    Canonical (patches out) ∧ ∃ p ∈ (patches out).head?, p.start = l.replaceRange.start := by
  induction rs generalizing k l out with
  | nil =>
    obtain rfl : [l] = out := by simpa [normalizeLoop] using h
    exact ⟨⟨hl, by simp, trivial⟩, l.toPatch, rfl, rfl⟩
  | cons r rs ih =>
    obtain ⟨hstart, hlr, hrest⟩ := hsorted
    simp only [replaceRange_eq] at hstart hlr hrest
    have hpush : r.toPatch.Proper → l.replaceRange.endExclusive ≠ r.replaceRange.start →
        (do return l :: (← normalizeLoop (some r) rs)) = .ok out →
        Canonical (patches out) ∧ ∃ p ∈ (patches out).head?, p.start = l.replaceRange.start := by
      intro hr htouch hok
      cases htail : normalizeLoop (some r) rs with
      | error e => simp [htail, bind, Except.bind] at hok
      | ok out' =>
        obtain rfl : l :: out' = out := by
          simpa [htail, bind, Except.bind, pure, Except.pure] using hok
        obtain ⟨hcanonical, p, hp, hps⟩ := ih ⟨hlr, hrest⟩ hr htail
        refine ⟨⟨hl, fun q hq => ?_, hcanonical⟩, l.toPatch, rfl, rfl⟩
        obtain rfl : p = q := Option.mem_unique hp hq
        rw [hps]
        exact lt_of_le_of_ne hlr htouch
    simp only [normalizeLoop, getNewLength_eq, replaceRange_eq] at h
    split_ifs at h with hempty htouch
    · have hrange := hempty.2
      rw [OffsetRange.length] at hrange
      refine ih ⟨hstart, ?_⟩ hl h
      cases rs with
      | nil => trivial
      | cons r' rs =>
        have hr' := hrest.1
        simp only [replaceRange_eq] at hr' ⊢
        exact ⟨by simp only [replaceRange_eq]; omega, hrest.2⟩
    · have hjoin := OffsetRange.joinRightTouching_of_eq htouch
      simp only [BaseReplacement.tryJoinTouching, StringReplacement.tryJoinTouching, hjoin, bind,
        Except.bind, pure, Except.pure] at h
      have hle := r.replaceRange.le
      have hle' := l.replaceRange.le
      exact ih (l := ⟨⟨l.replaceRange.start, r.replaceRange.endExclusive, by omega⟩,
        l.newText ++ r.newText⟩) ⟨hstart, hrest⟩ (fun hproper => by
          obtain ⟨htext, hrange⟩ := hproper
          simp only [StringReplacement.toPatch_text, List.append_eq_nil_iff] at htext
          simp only [StringReplacement.toPatch_start, StringReplacement.toPatch_stop] at hrange
          exact hl ⟨htext.1, by
            simp only [StringReplacement.toPatch_start, StringReplacement.toPatch_stop]; omega⟩) h
    · exact hpush (proper_of_not_empty hempty) htouch h

theorem normalizeLoop_canonical {k : Int} {rs out : List StringReplacement}
    (hsorted : SortedFrom k rs) (h : normalizeLoop none rs = .ok out) :
    Canonical (patches out) := by
  induction rs generalizing k with
  | nil =>
    obtain rfl : [] = out := by simpa [normalizeLoop] using h
    trivial
  | cons r rs ih =>
    simp only [normalizeLoop, getNewLength_eq, replaceRange_eq] at h
    split_ifs at h with hempty
    · exact ih hsorted.2 h
    · exact (normalizeLoop_canonical_some hsorted (proper_of_not_empty hempty) h).1

/-- A normalised edit denotes canonical patches. -/
theorem StringEdit.normalize_patches {e e' : StringEdit} (h : e.normalize = .ok e') :
    Canonical (patches e'.replacements) := by
  unfold BaseEdit.normalize at h
  cases hloop : normalizeLoop none e.replacements with
  | error err => simp [hloop, bind, Except.bind] at h
  | ok out =>
    simp only [hloop, bind, Except.bind, BaseEdit.createNew] at h
    split at h
    · obtain rfl := Except.ok.inj h
      exact normalizeLoop_canonical (checkSorted_eq_ok.mp e.sorted) hloop
    · cases h

instance : Nontrivial CodeUnit := ⟨0, 1, by decide⟩

/-- Normalised edits with the same effect on all texts of one length are the same. -/
theorem StringEdit.eq_of_apply_eq {e f e' f' : StringEdit} {n : ℕ} (he : e.normalize = .ok e')
    (hf : f.normalize = .ok f') (hwe : e'.Within n) (hwf : f'.Within n)
    (h : ∀ s : Str, s.length = n → e'.apply s = f'.apply s) :
    e'.replacements = f'.replacements := by
  refine patches_injective (Canonical.unique hwe.fits hwf.fits (normalize_patches he)
    (normalize_patches hf) fun t ht => ?_)
  obtain rfl : t.length = n := by omega
  rw [← hwe.apply_eq_run, ← hwf.apply_eq_run]
  exact h t rfl

/-- Normalising keeps the effect on every text the edit fits into, and two edits have the
same effect on all texts of a length they fit into exactly when they normalise alike. -/
theorem StringEdit.normalize_canonical (e f : StringEdit) (n : ℕ) (he : e.Within n)
    (hf : f.Within n) :
    ∃ e' f' : StringEdit, e.normalize = .ok e' ∧ f.normalize = .ok f' ∧
      (∀ s : Str, e.Within s.length → e'.apply s = e.apply s) ∧
      ((∀ s : Str, s.length = n → e.apply s = f.apply s) ↔ e'.equals f' = true) := by
  obtain ⟨e', he', hwe, happe⟩ := BaseEdit.normalize_spec he
  obtain ⟨f', hf', hwf, happf⟩ := BaseEdit.normalize_spec hf
  simp only [StringEdit.apply_eq] at happe happf
  refine ⟨e', f', he', hf', fun s hs => ?_, ?_⟩
  · obtain ⟨e'', he'', -, happ⟩ := BaseEdit.normalize_spec hs
    obtain rfl : e' = e'' := Except.ok.inj (he'.symm.trans he'')
    simpa only [StringEdit.apply_eq] using happ s rfl
  · rw [StringEdit.equals_iff]
    constructor
    · intro h
      refine StringEdit.eq_of_apply_eq he' hf' hwe hwf fun s hs => ?_
      rw [happe s hs.symm, happf s hs.symm, h s hs]
    · intro h s hs
      rw [← happe s hs.symm, ← happf s hs.symm, StringEdit.apply, StringEdit.apply, h]

/-- An insertion split in two is told from one at another place by the normal forms. -/
theorem StringEdit.normalize_canonical_insert :
    let e : StringEdit := ⟨[⟨⟨1, 1, by decide⟩, [120]⟩, ⟨⟨1, 1, by decide⟩, [121]⟩], rfl⟩
    let f : StringEdit := ⟨[⟨⟨2, 2, by decide⟩, [120, 121]⟩], rfl⟩
    ∃ e' f' : StringEdit, e.normalize = .ok e' ∧ f.normalize = .ok f' ∧
      ((∀ s : Str, s.length = 3 → e.apply s = f.apply s) ↔ e'.equals f' = true) := by
  intro e f
  obtain ⟨e', f', he', hf', -, hiff⟩ :=
    StringEdit.normalize_canonical e f 3 (by decide) (by decide)
  exact ⟨e', f', he', hf', hiff⟩

end NexgileIde.Edits
