import NexgileIde.Edits.StringEdit
import NexgileIde.Library.Rebase

/-!
# Rebasing string edits

Two edits made on the same text are moved over each other. The walk over both
lists takes the replacement that stands first, gives up (or skips) where two
replacements conflict, and otherwise merges the lists; the merged list does not
depend on which of the two edits is moved.
-/
namespace NexgileIde.Edits

open Text Library

namespace OffsetRange

/-- Two ranges share an offset. An empty range shares none. -/
def intersects (r other : OffsetRange) : Bool :=
  max r.start other.start < min r.endExclusive other.endExclusive

end OffsetRange

/-- Both ranges are inserts at one position, so their order would matter. -/
def areConcurrentInserts (r1 r2 : OffsetRange) : Bool :=
  r1.isEmpty && r2.isEmpty && r1.start = r2.start

def isInsertStrictlyInsideRange (insert range : OffsetRange) : Bool :=
  insert.isEmpty && range.start < insert.start && insert.start < range.endExclusive

/-- The replacements may not be applied together. -/
def isConflicting (ourRange baseRange : OffsetRange) : Bool :=
  ourRange.intersects baseRange || areConcurrentInserts ourRange baseRange ||
    isInsertStrictlyInsideRange ourRange baseRange || isInsertStrictlyInsideRange baseRange ourRange

/-- Our edit starts first, or is an insert at the start of base's range. -/
def startsFirst (ourRange baseRange : OffsetRange) : Bool :=
  ourRange.start < baseRange.start || ourRange.isEmpty && ourRange.start = baseRange.start

/-- The loop of `_tryRebase`; `none` where it returns `undefined`. -/
def tryRebaseLoop (noOverlap : Bool) : Int → List StringReplacement → List StringReplacement →
    Option (List StringReplacement)
  | _, [], _ => some []
  | offset, ourEdit :: ours, [] => do
    let rest ← tryRebaseLoop noOverlap offset ours []
    return ⟨ourEdit.replaceRange.delta offset, ourEdit.newText⟩ :: rest
  | offset, ourEdit :: ours, baseEdit :: base =>
    if isConflicting ourEdit.replaceRange baseEdit.replaceRange then
      if noOverlap then none
      else tryRebaseLoop noOverlap offset ours (baseEdit :: base)
    else if startsFirst ourEdit.replaceRange baseEdit.replaceRange then do
      let rest ← tryRebaseLoop noOverlap offset ours (baseEdit :: base)
      return ⟨ourEdit.replaceRange.delta offset, ourEdit.newText⟩ :: rest
    else
      tryRebaseLoop noOverlap
        (offset + (baseEdit.newText.length - baseEdit.replaceRange.length)) (ourEdit :: ours) base
termination_by _ ours base => ours.length + base.length

/-- `_tryRebase`: the constructor of the result checks its order again. -/
def StringEdit.tryRebaseWith (e base : StringEdit) (noOverlap : Bool) :
    Except BugIndicatingError (Option StringEdit) :=
  match tryRebaseLoop noOverlap 0 e.replacements base.replacements with
  | none => .ok none
  | some newEdits => do
    let result ← BaseEdit.createNew newEdits
    return some result

def StringEdit.tryRebase (e base : StringEdit) :
    Except BugIndicatingError (Option StringEdit) := e.tryRebaseWith base true

/-- A conflict is seen from both sides. -/
theorem isConflicting_comm (r1 r2 : OffsetRange) : isConflicting r1 r2 = isConflicting r2 r1 := by
  have hintersects : r1.intersects r2 = r2.intersects r1 := by
    simp only [OffsetRange.intersects, max_comm, min_comm]
  have hinserts : areConcurrentInserts r1 r2 = areConcurrentInserts r2 r1 := by
    simp only [areConcurrentInserts, Bool.and_comm r1.isEmpty, eq_comm (a := r1.start)]
  rw [isConflicting, isConflicting, hintersects, hinserts, Bool.or_assoc,
    Bool.or_comm (isInsertStrictlyInsideRange r1 r2), ← Bool.or_assoc]

theorem stop_le_of_startsFirst {r1 r2 : OffsetRange} (hconflict : isConflicting r1 r2 = false)
    (hfirst : startsFirst r1 r2 = true) : r1.endExclusive ≤ r2.start := by
  have h1 := r1.le
  have h2 := r2.le
  simp only [isConflicting, OffsetRange.intersects, areConcurrentInserts,
    isInsertStrictlyInsideRange, OffsetRange.isEmpty, Bool.or_eq_false_iff, Bool.and_eq_false_iff,
    decide_eq_false_iff_not] at hconflict
  simp only [startsFirst, OffsetRange.isEmpty, Bool.or_eq_true, Bool.and_eq_true,
    decide_eq_true_eq] at hfirst
  omega

/-- Of two replacements without conflict exactly one starts first. -/
theorem startsFirst_comm {r1 r2 : OffsetRange} (hconflict : isConflicting r1 r2 = false) :
    startsFirst r2 r1 = !startsFirst r1 r2 := by
  have h1 := r1.le
  have h2 := r2.le
  simp only [isConflicting, OffsetRange.intersects, areConcurrentInserts,
    isInsertStrictlyInsideRange, OffsetRange.isEmpty, Bool.or_eq_false_iff, Bool.and_eq_false_iff,
    decide_eq_false_iff_not] at hconflict
  cases hfirst : startsFirst r1 r2
  · simp only [startsFirst, OffsetRange.isEmpty, Bool.or_eq_false_iff, Bool.and_eq_false_iff,
      decide_eq_false_iff_not] at hfirst
    simp only [startsFirst, OffsetRange.isEmpty, Bool.not_false, Bool.or_eq_true, Bool.and_eq_true,
      decide_eq_true_eq]
    omega
  · simp only [startsFirst, OffsetRange.isEmpty, Bool.or_eq_true, Bool.and_eq_true,
      decide_eq_true_eq] at hfirst
    simp only [startsFirst, OffsetRange.isEmpty, Bool.not_true, Bool.or_eq_false_iff,
      Bool.and_eq_false_iff, decide_eq_false_iff_not]
    omega

theorem toPatch_delta (r : StringReplacement) (d : Int) :
    StringReplacement.toPatch ⟨r.replaceRange.delta d, r.newText⟩ = r.toPatch.shift d := rfl

theorem tryRebaseLoop_nil (noOverlap : Bool) (offset : Int) (ours : List StringReplacement) :
    ∃ out, tryRebaseLoop noOverlap offset ours [] = some out ∧
      patches out = (patches ours).map (Patch.shift offset) := by
  induction ours with
  | nil => exact ⟨[], by rw [tryRebaseLoop], rfl⟩
  | cons r ours ih =>
    obtain ⟨out, hout, hpatches⟩ := ih
    refine ⟨⟨r.replaceRange.delta offset, r.newText⟩ :: out, ?_, ?_⟩
    · rw [tryRebaseLoop, hout]
      rfl
    · rw [patches_cons, patches_cons, hpatches, List.map_cons, toPatch_delta]

/-- What the loop returns is what becomes of our replacements after the base's. -/
theorem tryRebaseLoop_rebased {noOverlap : Bool} {offset : Int}
    {ours base out : List StringReplacement}
    (h : tryRebaseLoop noOverlap offset ours base = some out) :
    ∃ merged, Patch.Rebased offset (patches ours) (patches base) (patches out) merged := by
  induction offset, ours, base using tryRebaseLoop.induct noOverlap generalizing out with
  | case1 offset base =>
    rw [tryRebaseLoop] at h
    cases h
    exact ⟨_, .done offset _⟩
  | case2 offset ourEdit ours _ =>
    obtain ⟨out', hout', hpatches⟩ := tryRebaseLoop_nil noOverlap offset (ourEdit :: ours)
    rw [hout'] at h
    cases h
    rw [hpatches]
    exact ⟨_, .last offset _⟩
  | case3 offset ourEdit ours baseEdit base hconflict hno =>
    rw [tryRebaseLoop, if_pos hconflict, if_pos hno] at h
    cases h
  | case4 offset ourEdit ours baseEdit base hconflict hno ih =>
    rw [tryRebaseLoop, if_pos hconflict, if_neg hno] at h
    obtain ⟨merged, hmerged⟩ := ih h
    exact ⟨merged, .skip hmerged⟩
  | case5 offset ourEdit ours baseEdit base hconflict hfirst ih =>
    rw [tryRebaseLoop, if_neg hconflict, if_pos hfirst] at h
    obtain ⟨rest, hrest, hout⟩ := Option.bind_eq_some_iff.mp h
    cases hout
    obtain ⟨merged, hmerged⟩ := ih hrest
    have hstop := stop_le_of_startsFirst (Bool.eq_false_of_not_eq_true hconflict) hfirst
    exact ⟨_, .ours hstop hmerged⟩
  | case6 offset ourEdit ours baseEdit base hconflict hfirst ih =>
    rw [tryRebaseLoop, if_neg hconflict, if_neg hfirst] at h
    obtain ⟨merged, hmerged⟩ := ih h
    have hconflict' := Bool.eq_false_of_not_eq_true hconflict
    have hfirst' := startsFirst_comm hconflict'
    rw [Bool.eq_false_of_not_eq_true hfirst, Bool.not_false] at hfirst'
    have hstop := stop_le_of_startsFirst ((isConflicting_comm _ _).trans hconflict') hfirst'
    exact ⟨_, .base hstop hmerged⟩

/-- Without a conflict both directions succeed, and they merge to the same list. -/
theorem tryRebaseLoop_both {offset : Int} {ours base out : List StringReplacement} (offset' : Int)
    (h : tryRebaseLoop true offset ours base = some out) :
    ∃ out' merged, tryRebaseLoop true offset' base ours = some out' ∧
      Patch.Rebased offset (patches ours) (patches base) (patches out) merged ∧
      Patch.Rebased offset' (patches base) (patches ours) (patches out') merged := by
  induction offset, ours, base using tryRebaseLoop.induct true generalizing out offset' with
  | case1 offset base =>
    rw [tryRebaseLoop] at h
    cases h
    obtain ⟨out', hout', hpatches⟩ := tryRebaseLoop_nil true offset' base
    refine ⟨out', _, hout', .done offset _, ?_⟩
    rw [hpatches]
    exact .last offset' _
  | case2 offset ourEdit ours _ =>
    obtain ⟨out₁, hout₁, hpatches⟩ := tryRebaseLoop_nil true offset (ourEdit :: ours)
    rw [hout₁] at h
    cases h
    refine ⟨[], _, by rw [tryRebaseLoop], ?_, .done offset' _⟩
    rw [hpatches]
    exact .last offset _
  | case3 offset ourEdit ours baseEdit base hconflict _ =>
    rw [tryRebaseLoop, if_pos hconflict, if_pos rfl] at h
    cases h
  | case4 offset ourEdit ours baseEdit base _ hno _ => exact absurd rfl hno
  | case5 offset ourEdit ours baseEdit base hconflict hfirst ih =>
    rw [tryRebaseLoop, if_neg hconflict, if_pos hfirst] at h
    obtain ⟨rest, hrest, hout⟩ := Option.bind_eq_some_iff.mp h
    cases hout
    have hconflict' := Bool.eq_false_of_not_eq_true hconflict
    have hstop := stop_le_of_startsFirst hconflict' hfirst
    have hsecond := startsFirst_comm hconflict'
    rw [hfirst, Bool.not_true] at hsecond
    rw [isConflicting_comm] at hconflict'
    obtain ⟨out', merged, hout', hours, hbase⟩ :=
      ih (offset' + (ourEdit.newText.length - ourEdit.replaceRange.length)) hrest
    refine ⟨out', _, ?_, .ours hstop hours, .base hstop hbase⟩
    rw [tryRebaseLoop, if_neg (by rw [hconflict']; decide), if_neg (by rw [hsecond]; decide), hout']
  | case6 offset ourEdit ours baseEdit base hconflict hfirst ih =>
    rw [tryRebaseLoop, if_neg hconflict, if_neg hfirst] at h
    have hconflict' := Bool.eq_false_of_not_eq_true hconflict
    have hsecond := startsFirst_comm hconflict'
    rw [Bool.eq_false_of_not_eq_true hfirst, Bool.not_false] at hsecond
    rw [isConflicting_comm] at hconflict'
    have hstop := stop_le_of_startsFirst hconflict' hsecond
    obtain ⟨out', merged, hout', hours, hbase⟩ := ih offset' h
    refine ⟨⟨baseEdit.replaceRange.delta offset', baseEdit.newText⟩ :: out', _, ?_,
      .base hstop hours, .ours hstop hbase⟩
    rw [tryRebaseLoop, if_neg (by rw [hconflict']; decide), if_pos hsecond, hout']
    rfl

/-- The constructor never rejects the rebased replacements. -/
theorem tryRebaseWith_eq {a b : StringEdit} {n : ℕ} (ha : a.Within n) (hb : b.Within n)
    {noOverlap : Bool} {out : List StringReplacement}
    (h : tryRebaseLoop noOverlap 0 a.replacements b.replacements = some out) :
    ∃ a' : StringEdit, a.tryRebaseWith b noOverlap = .ok (some a') ∧ a'.replacements = out ∧
      ∀ s : Str, s.length = n → a'.Within (b.apply s).length := by
  obtain ⟨merged, hmerged⟩ := tryRebaseLoop_rebased h
  have hfit := (hmerged.fits ha.fits hb.fits).1
  rw [add_zero, add_zero] at hfit
  obtain ⟨a', hcreate, hreplacements⟩ := createNew_of_fits hfit
  refine ⟨a', ?_, hreplacements, ?_⟩
  · simp only [StringEdit.tryRebaseWith, h, hcreate]
    rfl
  · intro s hs
    subst hs
    apply within_of_fits
    rw [hb.apply_eq_run, hreplacements]
    have hlength := Patch.length_run (k := 0) (t := s) (by rw [zero_add]; exact hb.fits)
    rw [hlength]
    exact hfit

theorem StringEdit.tryRebase_defined {a b : StringEdit} {n : ℕ} (ha : a.Within n)
    (hb : b.Within n) :
    (∃ a', a.tryRebase b = .ok (some a')) ↔
      ∃ out, tryRebaseLoop true 0 a.replacements b.replacements = some out := by
  constructor
  · rintro ⟨a', ha'⟩
    cases hloop : tryRebaseLoop true 0 a.replacements b.replacements with
    | none =>
      simp only [StringEdit.tryRebase, StringEdit.tryRebaseWith, hloop] at ha'
      cases ha'
    | some out => exact ⟨out, rfl⟩
  · rintro ⟨out, hout⟩
    obtain ⟨a', ha', -⟩ := tryRebaseWith_eq ha hb hout
    exact ⟨a', ha'⟩

/-- Edits rebased over each other lead to the same text. -/
theorem StringEdit.apply_rebased {a b a' b' : StringEdit} {s : Str} (ha : a.Within s.length)
    (hb : b.Within s.length) (ha' : a.tryRebase b = .ok (some a'))
    (hb' : b.tryRebase a = .ok (some b')) : a'.apply (b.apply s) = b'.apply (a.apply s) := by
  obtain ⟨out, hout⟩ := (StringEdit.tryRebase_defined ha hb).mp ⟨a', ha'⟩
  obtain ⟨out', merged, hout', hours, hbase⟩ := tryRebaseLoop_both 0 hout
  obtain ⟨a₁, ha₁, hreplacements, hwithin⟩ := tryRebaseWith_eq ha hb hout
  obtain ⟨b₁, hb₁, hreplacements', hwithin'⟩ := tryRebaseWith_eq hb ha hout'
  obtain rfl : a₁ = a' := Option.some.inj (Except.ok.inj (ha₁.symm.trans ha'))
  obtain rfl : b₁ = b' := Option.some.inj (Except.ok.inj (hb₁.symm.trans hb'))
  have hrun := hours.run (t := s) ha.fits hb.fits (by omega)
  have hrun' := hbase.run (t := s) hb.fits ha.fits (by omega)
  rw [add_zero] at hrun hrun'
  rw [(hwithin s rfl).apply_eq_run, (hwithin' s rfl).apply_eq_run, ha.apply_eq_run,
    hb.apply_eq_run, hreplacements, hreplacements', hrun, hrun']

/-- Rebased edits converge, each direction is defined when the other is, and the
constructor's check never fails. -/
theorem StringEdit.tryRebase_converges (a b : StringEdit) (s : Str) (ha : a.Within s.length)
    (hb : b.Within s.length) :
    (∀ a' b', a.tryRebase b = .ok (some a') → b.tryRebase a = .ok (some b') →
      a'.apply (b.apply s) = b'.apply (a.apply s)) ∧
    ((∃ a', a.tryRebase b = .ok (some a')) ↔ ∃ b', b.tryRebase a = .ok (some b')) ∧
    ∃ result, a.tryRebase b = .ok result := by
  refine ⟨?_, ?_, ?_⟩
  · exact fun a' b' ha' hb' => StringEdit.apply_rebased ha hb ha' hb'
  · rw [StringEdit.tryRebase_defined ha hb, StringEdit.tryRebase_defined hb ha]
    constructor
    · rintro ⟨out, hout⟩
      obtain ⟨out', -, hout', -⟩ := tryRebaseLoop_both 0 hout
      exact ⟨out', hout'⟩
    · rintro ⟨out, hout⟩
      obtain ⟨out', -, hout', -⟩ := tryRebaseLoop_both 0 hout
      exact ⟨out', hout'⟩
  · cases hloop : tryRebaseLoop true 0 a.replacements b.replacements with
    | none =>
      refine ⟨none, ?_⟩
      simp only [StringEdit.tryRebase, StringEdit.tryRebaseWith, hloop]
    | some out =>
      obtain ⟨a', ha', -⟩ := tryRebaseWith_eq ha hb hloop
      exact ⟨some a', ha'⟩

/-- On `abc`, `x` inserted before `b` against `b` replaced by `yz`. -/
theorem StringEdit.tryRebase_converges_insert :
    let a : StringEdit := ⟨[⟨⟨1, 1, by decide⟩, [120]⟩], rfl⟩
    let b : StringEdit := ⟨[⟨⟨1, 2, by decide⟩, [121, 122]⟩], rfl⟩
    (∀ a' b', a.tryRebase b = .ok (some a') → b.tryRebase a = .ok (some b') →
      a'.apply (b.apply [97, 98, 99]) = b'.apply (a.apply [97, 98, 99])) ∧
    ((∃ a', a.tryRebase b = .ok (some a')) ↔ ∃ b', b.tryRebase a = .ok (some b')) ∧
    ∃ result, a.tryRebase b = .ok result :=
  StringEdit.tryRebase_converges ⟨[⟨⟨1, 1, by decide⟩, [120]⟩], rfl⟩
    ⟨[⟨⟨1, 2, by decide⟩, [121, 122]⟩], rfl⟩ [97, 98, 99] (by decide) (by decide)

end NexgileIde.Edits

/-!
## Swapping sequential edits

The second edit is moved before the first one by rebasing it over an inverse of the
first edit, whose texts only need the right lengths. Where the first edit can then
be rebased over the result, rebasing back gives the second edit again.
-/
namespace NexgileIde.Edits

open Text Library

/-- The loop of `inverseOnSlice`. -/
def inverseOnSliceLoop (getOriginalSlice : Int → Int → Str) : Int → List StringReplacement →
    Except BugIndicatingError (List StringReplacement)
  | _, [] => .ok []
  | offset, e :: rest => do
    let range ← OffsetRange.ofStartAndLength (e.replaceRange.start + offset) e.newText.length
    let edits ← inverseOnSliceLoop getOriginalSlice
      (offset + (e.newText.length - e.replaceRange.length)) rest
    return ⟨range, getOriginalSlice e.replaceRange.start e.replaceRange.endExclusive⟩ :: edits

def StringEdit.inverseOnSlice (e : StringEdit) (getOriginalSlice : Int → Int → Str) :
    Except BugIndicatingError StringEdit := do
  BaseEdit.createNew (← inverseOnSliceLoop getOriginalSlice 0 e.replacements)

/-- `' '.repeat(endEx - start)` -/
def spaces (start endEx : Int) : Str := List.replicate (endEx - start).toNat 32

def StringEdit.trySwap (e1 e2 : StringEdit) :
    Except BugIndicatingError (Option (StringEdit × StringEdit)) := do
  let e1Inv ← e1.inverseOnSlice spaces
  match ← e2.tryRebase e1Inv with
  | none => return none
  | some e1' =>
    match ← e1.tryRebase e1' with
    | none => return none
    | some e2' => return some (e1', e2')

/-- `inverse` replaces the texts of `edits` by texts of the replaced lengths, at the places
where `edits` puts them when `d` is how far the original lies ahead. -/
inductive Inverts : Int → List StringReplacement → List StringReplacement → Prop
  | nil (d : Int) : Inverts d [] []
  | cons {d : Int} {i p : StringReplacement} {inverse edits : List StringReplacement} :
      i.replaceRange.start + d = p.replaceRange.start →
      i.replaceRange.length = p.newText.length → (i.newText.length : Int) = p.replaceRange.length →
      Inverts (d + (p.replaceRange.length - p.newText.length)) inverse edits →
      Inverts d (i :: inverse) (p :: edits)

theorem inverseOnSliceLoop_inverts (offset : Int) (edits : List StringReplacement) :
    ∃ inverse, inverseOnSliceLoop spaces offset edits = .ok inverse ∧
      Inverts (-offset) inverse edits := by
  induction edits generalizing offset with
  | nil => exact ⟨[], rfl, .nil _⟩
  | cons e rest ih =>
    obtain ⟨inverse, hok, hinverts⟩ := ih (offset + (e.newText.length - e.replaceRange.length))
    have hle := e.replaceRange.le
    have hrange : e.replaceRange.start + offset ≤
        e.replaceRange.start + offset + e.newText.length := by omega
    refine ⟨⟨⟨_, _, hrange⟩, spaces e.replaceRange.start e.replaceRange.endExclusive⟩ :: inverse,
      ?_, .cons ?_ ?_ ?_ ?_⟩
    · simp only [inverseOnSliceLoop, OffsetRange.ofStartAndLength, OffsetRange.create_of_le hrange,
        hok, bind, Except.bind, pure, Except.pure]
    · simp only
      omega
    · simp only [OffsetRange.length]
      omega
    · simp only [spaces, List.length_replicate, OffsetRange.length]
      omega
    · convert hinverts using 1
      omega

/-- An inverse fits into the text that the edit makes of a text it fits into. -/
theorem Inverts.fits {d k n : Int} {inverse edits : List StringReplacement}
    (h : Inverts d inverse edits) (hfits : Patch.Fits k n (patches edits)) :
    Patch.Fits (k - d) (n - d + Patch.growth (patches edits)) (patches inverse) ∧
      Patch.growth (patches inverse) = - Patch.growth (patches edits) := by
  induction h generalizing k with
  | nil d => exact ⟨by simpa [patches, Patch.Fits, Patch.growth] using hfits, rfl⟩
  | @cons d i p inverse edits hstart hlen htext _ ih =>
    obtain ⟨h1, h2, h3⟩ := hfits
    have hi := i.replaceRange.le
    simp only [StringReplacement.toPatch_start, StringReplacement.toPatch_stop] at h1 h2 h3
    simp only [OffsetRange.length] at hlen htext ih
    obtain ⟨hrest, hgrowth⟩ := ih h3
    have hlow : p.replaceRange.endExclusive -
        (d + (p.replaceRange.endExclusive - p.replaceRange.start - p.newText.length)) =
        i.replaceRange.endExclusive := by omega
    have hhigh : n - (d + (p.replaceRange.endExclusive - p.replaceRange.start -
        p.newText.length)) + Patch.growth (patches edits) =
        n - d + Patch.growth (patches (p :: edits)) := by
      simp only [patches_cons, Patch.growth, StringReplacement.toPatch_text,
        StringReplacement.toPatch_start, StringReplacement.toPatch_stop]
      omega
    rw [hlow, hhigh] at hrest
    refine ⟨⟨?_, hi, hrest⟩, ?_⟩
    · simp only [StringReplacement.toPatch_start]
      omega
    · simp only [patches_cons, Patch.growth, StringReplacement.toPatch_text,
        StringReplacement.toPatch_start, StringReplacement.toPatch_stop, hgrowth]
      omega

theorem startsFirst_of_stop_le {r1 r2 : OffsetRange} (h : r1.endExclusive ≤ r2.start) :
    startsFirst r1 r2 = true := by
  have h1 := r1.le
  simp only [startsFirst, OffsetRange.isEmpty, Bool.or_eq_true, Bool.and_eq_true,
    decide_eq_true_eq]
  omega

theorem delta_delta_neg (r : StringReplacement) (d : Int) :
    (⟨(r.replaceRange.delta d).delta (-d), r.newText⟩ : StringReplacement) = r := by
  obtain ⟨⟨start, stop, hle⟩, text⟩ := r
  simp [OffsetRange.delta]

theorem tryRebaseLoop_delta (d : Int) (ours : List StringReplacement) :
    ∃ out, tryRebaseLoop true d ours [] = some out ∧ tryRebaseLoop true (-d) out [] = some ours := by
  induction ours with
  | nil => exact ⟨[], by rw [tryRebaseLoop], by rw [tryRebaseLoop]⟩
  | cons r ours ih =>
    obtain ⟨out, hout, hback⟩ := ih
    refine ⟨⟨r.replaceRange.delta d, r.newText⟩ :: out, ?_, ?_⟩
    · rw [tryRebaseLoop, hout]
      rfl
    · rw [tryRebaseLoop, hback]
      simp only [delta_delta_neg]
      rfl

/-- Without skipping, as many replacements come out as go in. -/
theorem length_tryRebaseLoop {d : Int} {ours base out : List StringReplacement}
    (h : tryRebaseLoop true d ours base = some out) : out.length = ours.length := by
  induction d, ours, base using tryRebaseLoop.induct true generalizing out with
  | case1 d base =>
    rw [tryRebaseLoop] at h
    cases h
    rfl
  | case2 d ourEdit ours ih =>
    rw [tryRebaseLoop] at h
    obtain ⟨rest, hrest, hout⟩ := Option.bind_eq_some_iff.mp h
    cases hout
    rw [List.length_cons, List.length_cons, ih hrest]
  | case3 d ourEdit ours baseEdit base hconflict hno =>
    rw [tryRebaseLoop, if_pos hconflict, if_pos hno] at h
    cases h
  | case4 d ourEdit ours baseEdit base hconflict hno _ => exact absurd rfl hno
  | case5 d ourEdit ours baseEdit base hconflict hfirst ih =>
    rw [tryRebaseLoop, if_neg hconflict, if_pos hfirst] at h
    obtain ⟨rest, hrest, hout⟩ := Option.bind_eq_some_iff.mp h
    cases hout
    rw [List.length_cons, List.length_cons, ih hrest]
  | case6 d ourEdit ours baseEdit base hconflict hfirst ih =>
    rw [tryRebaseLoop, if_neg hconflict, if_neg hfirst] at h
    exact ih h

/-- Rebasing over an inverse and back over the edit itself gives the replacements again,
unless the way back meets a conflict. -/
theorem tryRebaseLoop_back {d k n : Int} {ours inverse edits out back : List StringReplacement}
    (hinverts : Inverts d inverse edits) (hours : Patch.Fits k n (patches ours))
    (hinverse : Patch.Fits k n (patches inverse))
    (h : tryRebaseLoop true d ours inverse = some out)
    (hback : tryRebaseLoop true (-d) out edits = some back) : back = ours := by
  induction d, ours, inverse using tryRebaseLoop.induct true generalizing out back edits k with
  | case1 d inverse =>
    rw [tryRebaseLoop] at h
    cases h
    rw [tryRebaseLoop] at hback
    exact (Option.some.inj hback).symm
  | case2 d ourEdit ours _ =>
    cases hinverts
    obtain ⟨out', hout, hsome⟩ := tryRebaseLoop_delta d (ourEdit :: ours)
    obtain rfl : out' = out := Option.some.inj (hout.symm.trans h)
    exact Option.some.inj (hback.symm.trans hsome)
  | case3 d ourEdit ours baseEdit base hconflict hno =>
    rw [tryRebaseLoop, if_pos hconflict, if_pos hno] at h
    cases h
  | case4 d ourEdit ours baseEdit base hconflict hno _ => exact absurd rfl hno
  | case5 d ourEdit ours baseEdit base hconflict hfirst ih =>
    rw [tryRebaseLoop, if_neg hconflict, if_pos hfirst] at h
    obtain ⟨rest, hrest, hout⟩ := Option.bind_eq_some_iff.mp h
    cases hout
    have hstop := stop_le_of_startsFirst (Bool.eq_false_of_not_eq_true hconflict) hfirst
    cases hinverts with
    | @cons _ _ p _ edits hstart hlen htext htail =>
      have hfirst' : startsFirst (ourEdit.replaceRange.delta d) p.replaceRange = true := by
        refine startsFirst_of_stop_le ?_
        rw [OffsetRange.delta_endExclusive]
        omega
      rw [tryRebaseLoop] at hback
      by_cases hconflict' : isConflicting (ourEdit.replaceRange.delta d) p.replaceRange = true
      · rw [if_pos hconflict', if_pos rfl] at hback
        cases hback
      rw [if_neg hconflict', if_pos hfirst'] at hback
      obtain ⟨back', hback', hcons⟩ := Option.bind_eq_some_iff.mp hback
      cases hcons
      obtain rfl := ih (.cons hstart hlen htext htail) hours.2.2 ⟨hstop, hinverse.2⟩ hrest hback'
      rw [delta_delta_neg]
  | case6 d ourEdit ours baseEdit base hconflict hfirst ih =>
    rw [tryRebaseLoop, if_neg hconflict, if_neg hfirst] at h
    have hconflict' := Bool.eq_false_of_not_eq_true hconflict
    have hsecond := startsFirst_comm hconflict'
    rw [Bool.eq_false_of_not_eq_true hfirst, Bool.not_false] at hsecond
    have hstop := stop_le_of_startsFirst ((isConflicting_comm _ _).trans hconflict') hsecond
    have hours' : Patch.Fits baseEdit.replaceRange.endExclusive n (patches (ourEdit :: ours)) :=
      ⟨hstop, hours.2⟩
    cases hinverts with
    | @cons _ _ p _ edits hstart hlen htext htail =>
      have hd : d + (baseEdit.newText.length - baseEdit.replaceRange.length) =
          d + (p.replaceRange.length - p.newText.length) := by rw [hlen, htext]
      rw [hd] at h ih
      obtain ⟨merged, hmerged⟩ := tryRebaseLoop_rebased h
      have hfits := (hmerged.fits hours' hinverse.2.2).1
      simp only [OffsetRange.length] at hlen htext hfits
      have hp := p.replaceRange.le
      cases out with
      | nil =>
        have hlength := length_tryRebaseLoop h
        simp at hlength
      | cons first out =>
        have hle : p.replaceRange.endExclusive ≤ first.replaceRange.start := by
          have hfirst' := hfits.1
          simp only [StringReplacement.toPatch_start] at hfirst'
          omega
        have hp' := startsFirst_of_stop_le hle
        rw [tryRebaseLoop] at hback
        by_cases hconflict'' : isConflicting first.replaceRange p.replaceRange = true
        · rw [if_pos hconflict'', if_pos rfl] at hback
          cases hback
        have hcomm := startsFirst_comm (Bool.eq_false_of_not_eq_true hconflict'')
        rw [hp', eq_comm, Bool.not_eq_true'] at hcomm
        rw [if_neg hconflict'', if_neg (by rw [hcomm]; decide)] at hback
        refine ih htail hours' hinverse.2.2 h ?_
        convert hback using 2
        omega

/-- The inverse on made-up texts fits into the edited text and leads back to its length. -/
theorem StringEdit.inverseOnSlice_spec {e : StringEdit} {s : Str} (h : e.Within s.length) :
    ∃ inverse : StringEdit, e.inverseOnSlice spaces = .ok inverse ∧
      Inverts 0 inverse.replacements e.replacements ∧ inverse.Within (e.apply s).length ∧
      ∀ t : Str, t.length = (e.apply s).length → (inverse.apply t).length = s.length := by
  obtain ⟨inverse, hok, hinverts⟩ := inverseOnSliceLoop_inverts 0 e.replacements
  rw [neg_zero] at hinverts
  obtain ⟨hfits, hgrowth⟩ := hinverts.fits h.fits
  have hlength := Patch.length_run (k := 0) (t := s) (by rw [zero_add]; exact h.fits)
  rw [← h.apply_eq_run] at hlength
  rw [sub_zero, sub_zero, ← hlength] at hfits
  obtain ⟨result, hcreate, hreplacements⟩ := createNew_of_fits hfits
  rw [← hreplacements] at hfits hinverts hgrowth
  have hwithin := within_of_fits hfits
  refine ⟨result, ?_, hinverts, hwithin, fun t ht => ?_⟩
  · simp only [StringEdit.inverseOnSlice, hok]
    exact hcreate
  · rw [← ht] at hwithin hfits
    have hback := Patch.length_run (k := 0) (t := t) (by rw [zero_add]; exact hfits)
    rw [hwithin.apply_eq_run]
    omega

/-- Swapped edits lead to the same text as the edits in their own order. -/
theorem StringEdit.trySwap_apply (e1 e2 f1 f2 : StringEdit) (s0 : Str) (h1 : e1.Within s0.length)
    (h2 : e2.Within (e1.apply s0).length) (h : StringEdit.trySwap e1 e2 = .ok (some (f1, f2))) :
    f2.apply (f1.apply s0) = e2.apply (e1.apply s0) := by
  obtain ⟨inverse, hinverse, hinverts, hwithin, hlength⟩ := StringEdit.inverseOnSlice_spec h1
  simp only [StringEdit.trySwap, hinverse, bind, Except.bind] at h
  cases hfirst : e2.tryRebase inverse with
  | error e => simp [hfirst] at h
  | ok first =>
    cases first with
    | none => simp [hfirst, pure, Except.pure] at h
    | some e1' =>
      cases hsecond : e1.tryRebase e1' with
      | error e => simp [hfirst, hsecond] at h
      | ok second =>
        cases second with
        | none => simp [hfirst, hsecond, pure, Except.pure] at h
        | some e2' =>
          simp only [hfirst, hsecond, pure, Except.pure, Except.ok.injEq, Option.some.injEq,
            Prod.mk.injEq] at h
          obtain ⟨rfl, rfl⟩ := h
          obtain ⟨out, hout⟩ := (StringEdit.tryRebase_defined h2 hwithin).mp ⟨_, hfirst⟩
          obtain ⟨first, hfirst', hout', hfirstwithin⟩ := tryRebaseWith_eq h2 hwithin hout
          obtain rfl : first = e1' := Option.some.inj (Except.ok.inj (hfirst'.symm.trans hfirst))
          have hf := hfirstwithin (e1.apply s0) rfl
          rw [hlength _ rfl] at hf
          -- back over the first edit, the second one is found again
          obtain ⟨out2, hout2⟩ := (StringEdit.tryRebase_defined h1 hf).mp ⟨_, hsecond⟩
          obtain ⟨back, -, hback, -⟩ := tryRebaseLoop_both 0 hout2
          obtain ⟨e2'', hagain, hreplacements, -⟩ := tryRebaseWith_eq hf h1 hback
          rw [hout', ← neg_zero] at hback
          obtain rfl := tryRebaseLoop_back hinverts h2.fits hwithin.fits hout hback
          rw [StringEdit.apply_rebased h1 hf hsecond hagain, StringEdit.apply, hreplacements]
          rfl

/-- `a` inserted before `x` of `xy`, and then `y` deleted. -/
theorem StringEdit.trySwap_apply_insert :
    ∃ f1 f2 : StringEdit, StringEdit.trySwap ⟨[⟨⟨0, 0, by decide⟩, [97]⟩], rfl⟩
        ⟨[⟨⟨2, 3, by decide⟩, []⟩], rfl⟩ = .ok (some (f1, f2)) ∧
      f2.apply (f1.apply [120, 121]) = [97, 120] := by
  let f1 : StringEdit := ⟨[⟨⟨1, 2, by decide⟩, []⟩], rfl⟩
  let f2 : StringEdit := ⟨[⟨⟨0, 0, by decide⟩, [97]⟩], rfl⟩
  have hswap : StringEdit.trySwap ⟨[⟨⟨0, 0, by decide⟩, [97]⟩], rfl⟩
      ⟨[⟨⟨2, 3, by decide⟩, []⟩], rfl⟩ = .ok (some (f1, f2)) := by
    simp [StringEdit.trySwap, StringEdit.inverseOnSlice, inverseOnSliceLoop, spaces,
      OffsetRange.ofStartAndLength, OffsetRange.create, OffsetRange.length, StringEdit.tryRebase,
      StringEdit.tryRebaseWith, tryRebaseLoop, isConflicting, OffsetRange.intersects,
      areConcurrentInserts, isInsertStrictlyInsideRange, OffsetRange.isEmpty, startsFirst,
      OffsetRange.delta, BaseEdit.createNew, checkSorted, bind, Except.bind, pure, Except.pure,
      f1, f2]
  exact ⟨f1, f2, hswap, StringEdit.trySwap_apply ⟨[⟨⟨0, 0, by decide⟩, [97]⟩], rfl⟩
    ⟨[⟨⟨2, 3, by decide⟩, []⟩], rfl⟩ f1 f2 [120, 121] (by decide) (by decide) hswap⟩

end NexgileIde.Edits
