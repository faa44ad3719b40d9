import NexgileIde.MergeEditor.LineRangeMapping
import NexgileIde.Text.CodeUnits

/-!
# Line edits

A line replacement puts lines in the place of a range of lines, numbered from one.
-/
namespace NexgileIde.Edits

open Text MergeEditor

/-- The constructor throws when the range ends before it starts. -/
def newLineRange (startLineNumber endLineNumberExclusive : ℤ) : Option LineRange :=
  if h : startLineNumber ≤ endLineNumberExclusive then
    some ⟨startLineNumber, endLineNumberExclusive, h⟩
  else none

structure LineReplacement where
  lineRange : LineRange
  newLines : List Str
deriving DecidableEq

/-- The loop of `LineEdit.apply` from a line on. -/
def applyLinesFrom (lines : List Str) (currentLineIndex : ℕ) : List LineReplacement → List Str
  | [] => lines.drop currentLineIndex
  | edit :: replacements =>
    lines.extract currentLineIndex (edit.lineRange.startLineNumber - 1).toNat ++ edit.newLines ++
      applyLinesFrom lines (edit.lineRange.endLineNumberExclusive - 1).toNat replacements

/-- `LineEdit.apply` -/
def applyLineEdit (replacements : List LineReplacement) (lines : List Str) : List Str :=
  applyLinesFrom lines 0 replacements

/-- The ranges are in order, do not overlap and lie within `n` lines. -/
structure InOrder (n : ℕ) (replacements : List LineReplacement) : Prop where
  sorted : replacements.Pairwise fun a b =>
    a.lineRange.endLineNumberExclusive ≤ b.lineRange.startLineNumber
  within : ∀ edit ∈ replacements, 1 ≤ edit.lineRange.startLineNumber ∧
    edit.lineRange.endLineNumberExclusive ≤ n + 1

theorem newLineRange_of_le {a b : ℤ} (h : a ≤ b) : newLineRange a b = some ⟨a, b, h⟩ :=
  dif_pos h

/-- The replacements so far, followed by the original lines up to the `next` one, write
these lines. -/
structure Written (lines : List Str) (replacements : List LineReplacement) (next : ℕ)
    (written : List Str) : Prop where
  next_le : next ≤ lines.length
  inOrder : InOrder next replacements
  reads : ∃ text first, first ≤ next ∧ written = text ++ lines.extract first next ∧
    ∀ rest, applyLinesFrom lines 0 (replacements ++ rest) = text ++ applyLinesFrom lines first rest

namespace Written

variable {lines written : List Str} {replacements : List LineReplacement} {next : ℕ}

theorem start (lines : List Str) : Written lines [] 0 [] where
  next_le := Nat.zero_le _
  inOrder := ⟨.nil, nofun⟩
  reads := ⟨[], 0, le_refl 0, by simp, fun _ => rfl⟩

theorem extract_append {first mid last : ℕ} (h : first ≤ mid) (h' : mid ≤ last) :
    lines.extract first mid ++ lines.extract mid last = lines.extract first last := by
  obtain ⟨i, rfl⟩ := Nat.exists_eq_add_of_le h
  obtain ⟨j, rfl⟩ := Nat.exists_eq_add_of_le h'
  have hlast : first + i + j - first = i + j := by omega
  simp only [List.extract_eq_take_drop, Nat.add_sub_cancel_left, hlast]
  rw [List.take_add, List.drop_drop]

/-- Original lines that stay. -/
theorem advance (h : Written lines replacements next written) {last : ℕ} (hle : next ≤ last)
    (hto : last ≤ lines.length) :
    Written lines replacements last (written ++ lines.extract next last) := by
  obtain ⟨text, first, hfrom, hwritten, hreads⟩ := h.reads
  refine ⟨hto, ⟨h.inOrder.sorted, fun edit hedit => ?_⟩, text, first, hfrom.trans hle, ?_, hreads⟩
  · have := h.inOrder.within edit hedit
    omega
  · rw [hwritten, List.append_assoc, extract_append hfrom hle]

/-- Original lines that are replaced. -/
theorem replace (h : Written lines replacements next written) {last : ℕ} (hle : next ≤ last)
    (hto : last ≤ lines.length) {edit : LineReplacement}
    (hstart : edit.lineRange.startLineNumber = next + 1)
    (hend : edit.lineRange.endLineNumberExclusive = last + 1) :
    Written lines (replacements ++ [edit]) last (written ++ edit.newLines) := by
  obtain ⟨text, first, hfrom, hwritten, hreads⟩ := h.reads
  refine ⟨hto, ⟨?_, ?_⟩, text ++ lines.extract first next ++ edit.newLines, last, le_refl last, ?_, ?_⟩
  · apply List.pairwise_append.2
    refine ⟨h.inOrder.sorted, List.pairwise_singleton _ _, fun a ha b hb => ?_⟩
    have := (h.inOrder.within a ha).2
    rw [List.mem_singleton.1 hb, hstart]
    exact_mod_cast this
  · intro a ha
    rcases List.mem_append.1 ha with ha | ha
    · have := h.inOrder.within a ha
      omega
    · rw [List.mem_singleton.1 ha, hstart, hend]
      omega
  · simp [hwritten]
  · intro rest
    have hback : (edit.lineRange.startLineNumber - 1).toNat = next := by omega
    have hfront : (edit.lineRange.endLineNumberExclusive - 1).toNat = last := by omega
    rw [List.append_assoc, hreads, List.singleton_append, applyLinesFrom, hback, hfront]
    simp only [List.append_assoc]

/-- Once all original lines were passed, these are the lines that the replacements give. -/
theorem apply_eq (h : Written lines replacements lines.length written) :
    applyLineEdit replacements lines = written := by
  obtain ⟨text, first, hfrom, hwritten, hreads⟩ := h.reads
  have hall := hreads []
  rw [List.append_nil] at hall
  rw [applyLineEdit, hall, hwritten, applyLinesFrom, List.extract_eq_take_drop,
    List.take_of_length_le (by simp)]

end Written

end NexgileIde.Edits
