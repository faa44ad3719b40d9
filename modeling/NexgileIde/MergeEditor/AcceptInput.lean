import NexgileIde.MergeEditor.MappingAlignmentRun
import NexgileIde.MergeEditor.ModifiedBaseRange

/-!
# Accepting one input

Line differences cut both texts into the same parts. Taking the edits of one input for all
modified base ranges replaces just the parts that differ, also where the edit of the last
lines borrows the line break before them.
-/

namespace NexgileIde.MergeEditor

open Text MappingAlignment LineRangeMapping

variable {T : Type} {toMapping : T → LineRangeMapping}

section Lines

variable {ls : List Str} {a b c : ℤ}

def linesBetween (ls : List Str) (start stop : ℤ) : List Str :=
  (ls.take (stop - 1).toNat).drop (start - 1).toNat

def linesFrom (ls : List Str) (start : ℤ) : List Str := ls.drop (start - 1).toNat

/-- The lines with a line break after each. -/
def body (ls : List Str) : Str := ls.flatMap (· ++ [LineFeed])

/-- The lines with a line break before each. -/
def tailLines (ls : List Str) : Str := ls.flatMap (LineFeed :: ·)

theorem linesBetween_length (ha : 1 ≤ a) (hab : a ≤ b) (hb : b ≤ ls.length + 1) :
    ((linesBetween ls a b).length : ℤ) = b - a := by
  unfold linesBetween
  rw [List.length_drop, List.length_take]
  omega

theorem drop_take_append_drop (l : List Str) {i j : ℕ} (h : i ≤ j) :
    (l.take j).drop i ++ l.drop j = l.drop i := by
  by_cases hj : j ≤ l.length
  · have hi : i ≤ (l.take j).length := by
      rw [List.length_take]
      omega
    rw [← List.drop_append_of_le_length hi, List.take_append_drop]
  · rw [List.take_of_length_le (by omega), List.drop_eq_nil_of_le (by omega : l.length ≤ j),
      List.append_nil]

theorem linesBetween_append (hab : a ≤ b) (hbc : b ≤ c) :
    linesBetween ls a b ++ linesBetween ls b c = linesBetween ls a c := by
  have htake : ls.take (b - 1).toNat = (ls.take (c - 1).toNat).take (b - 1).toNat := by
    rw [List.take_take]
    congr 1
    omega
  unfold linesBetween
  rw [htake]
  exact drop_take_append_drop _ (by omega)

theorem linesBetween_append_linesFrom (hab : a ≤ b) :
    linesBetween ls a b ++ linesFrom ls b = linesFrom ls a :=
  drop_take_append_drop ls (by omega)

theorem joinLines_append_right (xs : List Str) {ys : List Str} (h : ys ≠ []) :
    joinLines (xs ++ ys) = body xs ++ joinLines ys := by
  induction xs with
  | nil => rfl
  | cons x xs ih =>
    have hne : xs ++ ys ≠ [] := by simp [h]
    have hcons : joinLines (x :: (xs ++ ys)) = x ++ [LineFeed] ++ joinLines (xs ++ ys) :=
      List.intercalate_cons_of_ne_nil hne
    rw [List.cons_append, hcons, ih]
    simp [body]

theorem joinLines_cons (x : Str) (ys : List Str) : joinLines (x :: ys) = x ++ tailLines ys := by
  induction ys generalizing x with
  | nil => simp [joinLines, tailLines]
  | cons y ys ih =>
    have hcons : joinLines (x :: y :: ys) = x ++ [LineFeed] ++ joinLines (y :: ys) :=
      List.intercalate_cons_of_ne_nil (List.cons_ne_nil y ys)
    rw [hcons, ih]
    simp [tailLines]

theorem joinLines_append_left {xs : List Str} (h : xs ≠ []) (ys : List Str) :
    joinLines (xs ++ ys) = joinLines xs ++ tailLines ys := by
  obtain ⟨x, xs, rfl⟩ := List.exists_cons_of_ne_nil h
  rw [List.cons_append, joinLines_cons, joinLines_cons]
  simp [tailLines]

/-- A line without line breaks. -/
def NoBreak (l : Str) : Prop := ∀ c ∈ l, c ≠ CarriageReturn ∧ c ≠ LineFeed

theorem splitLines_append {l rest : Str} (h : NoBreak l) :
    splitLines (l ++ rest) = (splitLines rest).modifyHead (l ++ ·) := by
  induction l with
  | nil =>
    rw [List.nil_append]
    cases splitLines rest <;> rfl
  | cons c l ih =>
    unfold NoBreak at h ih
    rw [List.forall_mem_cons] at h
    obtain ⟨⟨hcr, hlf⟩, h⟩ := h
    have hend : ¬ IsLineEnd c (l ++ rest) := by simp [IsLineEnd, hcr, hlf]
    rw [List.cons_append, splitLines_cons, if_neg hend, if_neg hcr, ih h]
    cases splitLines rest <;> rfl

theorem splitLines_lineFeed (rest : Str) : splitLines (LineFeed :: rest) = [] :: splitLines rest := by
  rw [splitLines_cons, if_pos (isLineEnd_lineFeed rest)]

theorem splitLines_joinLines {ls : List Str} (hne : ls ≠ []) (h : ∀ l ∈ ls, NoBreak l) :
    splitLines (joinLines ls) = ls := by
  obtain ⟨l, ls, rfl⟩ := List.exists_cons_of_ne_nil hne
  rw [joinLines_cons]
  clear hne
  induction ls generalizing l with
  | nil =>
    rw [splitLines_append (h l (by simp))]
    simp [tailLines, splitLines]
  | cons l' ls ih =>
    have htail : tailLines (l' :: ls) = LineFeed :: (l' ++ tailLines ls) := by simp [tailLines]
    rw [splitLines_append (h l (by simp)), htail, splitLines_lineFeed,
      ih l' fun x hx => h x (List.mem_cons_of_mem l hx)]
    simp

end Lines

section Apply

/-- The offset of a position, which is clamped to the text. -/
def offsetAt (model : TextModel) (p : Position) : ℕ :=
  let before := (p.lineNumber - 1).toNat
  match model.lines[before]? with
  | none => (joinLines model.lines).length
  | some line => (body (model.lines.take before)).length + min (p.column - 1).toNat line.length

/-- The text from `pos` on, with the replacements that start there or later. -/
def replaceFrom (text : Str) : ℕ → List (ℕ × ℕ × Str) → Str
  | pos, [] => text.drop pos
  | pos, (start, stop, newText) :: edits =>
    (text.take start).drop pos ++ newText ++ replaceFrom text stop edits

/-- The lines after sorted edits were applied to the text at once. -/
def applyEdits (model : TextModel) (edits : List SingleEditOperation) : List Str :=
  splitLines (replaceFrom (joinLines model.lines) 0 (edits.map fun e =>
    (offsetAt model e.range.startPosition, offsetAt model e.range.endPosition, e.text)))

variable {model : TextModel} {a b : ℤ}

theorem linesFrom_ne_nil {ls : List Str} (ha : 1 ≤ a) (h : a ≤ ls.length) : linesFrom ls a ≠ [] := by
  unfold linesFrom
  rw [Ne, List.drop_eq_nil_iff]
  omega

theorem exists_line (ha : 1 ≤ a) (h : a ≤ model.getLineCount) :
    ∃ line ∈ model.lines, model.lines[(a - 1).toNat]? = some line ∧
      model.lines.take a.toNat = model.lines.take (a - 1).toNat ++ [line] := by
  unfold TextModel.getLineCount at h
  obtain ⟨k, rfl⟩ : ∃ k : ℕ, a = k + 1 := ⟨(a - 1).toNat, by omega⟩
  have hk : k < model.lines.length := by omega
  have hpred : ((k : ℤ) + 1 - 1).toNat = k := by omega
  have hsucc : ((k : ℤ) + 1).toNat = k + 1 := by omega
  rw [hpred, hsucc]
  refine ⟨model.lines[k], List.getElem_mem hk, List.getElem?_eq_getElem hk, ?_⟩
  rw [List.take_add_one, List.getElem?_eq_getElem hk]
  rfl

/-- The text up to a line of the model. -/
theorem offsetAt_lineStart (ha : 1 ≤ a) (h : a ≤ model.getLineCount) :
    offsetAt model ⟨a, 1⟩ = (body (model.lines.take (a - 1).toNat)).length := by
  obtain ⟨line, -, hline, -⟩ := exists_line ha h
  unfold offsetAt
  dsimp only
  rw [hline]
  simp

/-- The end of a line, which a column that is large enough means. -/
theorem offsetAt_lineEnd (ha : 1 ≤ a) (h : a ≤ model.getLineCount) :
    offsetAt model ⟨a, MAX_SAFE_INTEGER⟩ = (joinLines (model.lines.take a.toNat)).length := by
  obtain ⟨line, hmem, hline, htake⟩ := exists_line ha h
  have hshort := model.short line hmem
  have hmin : min (MAX_SAFE_INTEGER - 1).toNat line.length = line.length := by
    unfold MAX_SAFE_INTEGER at hshort ⊢
    omega
  have hlast : joinLines [line] = line := List.intercalate_singleton
  rw [htake, joinLines_append_right _ (List.cons_ne_nil line []), hlast, List.length_append]
  unfold offsetAt
  dsimp only
  rw [hline]
  dsimp only
  rw [hmin]

end Apply

section Differences

/-- The texts outside of the mappings are equal, from one line of both texts on; the ranges lie
in their texts. -/
def EqualOutside (base input : List Str) : ℤ → ℤ → List LineRangeMapping → Prop
  | p, q, [] => linesFrom base p = linesFrom input q
  | p, q, m :: ms =>
    (p ≤ m.inputRange.startLineNumber ∧
        m.inputRange.endLineNumberExclusive ≤ base.length + 1) ∧
      (q ≤ m.outputRange.startLineNumber ∧
        m.outputRange.endLineNumberExclusive ≤ input.length + 1) ∧
      linesBetween base p m.inputRange.startLineNumber =
        linesBetween input q m.outputRange.startLineNumber ∧
      EqualOutside base input m.inputRange.endLineNumberExclusive
        m.outputRange.endLineNumberExclusive ms

/-- Line differences of two texts: sorted and non-touching, with equal text outside. -/
structure LineDiff (base input : List Str) (ms : List LineRangeMapping) : Prop where
  nonTouching : ms.IsChain Before
  outside : EqualOutside base input 1 1 ms

variable {base input : List Str} {p q : ℤ} {m m' : LineRangeMapping} {ms ms' : List LineRangeMapping}

/-- The ranges of all mappings lie in their texts. -/
theorem EqualOutside.bounds (h : EqualOutside base input p q ms) (hp : 1 ≤ p) (hq : 1 ≤ q) :
    ∀ m ∈ ms, p ≤ m.inputRange.startLineNumber ∧
      m.inputRange.endLineNumberExclusive ≤ base.length + 1 ∧
      q ≤ m.outputRange.startLineNumber ∧
      m.outputRange.endLineNumberExclusive ≤ input.length + 1 := by
  induction ms generalizing p q with
  | nil => nofun
  | cons m ms ih =>
    obtain ⟨⟨h1, h2⟩, ⟨h3, h4⟩, -, h⟩ := h
    have hin := m.inputRange.start_le_end
    have hout := m.outputRange.start_le_end
    rw [List.forall_mem_cons]
    refine ⟨⟨h1, h2, h3, h4⟩, fun m' hm' => ?_⟩
    have := ih h (by omega) (by omega) m' hm'
    omega

/-- Equal text outside means equal distances. -/
theorem EqualOutside.follows (h : EqualOutside base input p q ms) (hp : 1 ≤ p) (hq : 1 ≤ q)
    (hchain : ms.IsChain Before) :
    Consecutive ms ∧
      ∀ m ∈ ms.head?, m.inputRange.startLineNumber - p = m.outputRange.startLineNumber - q := by
  induction ms generalizing p q with
  | nil => exact ⟨.nil, nofun⟩
  | cons m ms ih =>
    obtain ⟨⟨h1, h2⟩, ⟨h3, h4⟩, heq, h⟩ := h
    have hin := m.inputRange.start_le_end
    have hout := m.outputRange.start_le_end
    have hlen : ((linesBetween base p m.inputRange.startLineNumber).length : ℤ) =
        (linesBetween input q m.outputRange.startLineNumber).length := by rw [heq]
    rw [linesBetween_length hp h1 (by omega), linesBetween_length hq h3 (by omega)] at hlen
    obtain ⟨hrest, hhead⟩ := ih h (by omega) (by omega) hchain.tail
    refine ⟨?_, fun m' hm' => by cases hm'; exact hlen⟩
    cases ms with
    | nil => exact .singleton m
    | cons m' ms =>
      refine List.isChain_cons_cons.mpr ⟨⟨(List.isChain_cons_cons.mp hchain).1, ?_⟩, hrest⟩
      exact hhead m' rfl

theorem LineDiff.consecutive (h : LineDiff base input ms) : Consecutive ms ∧ StartsEqual ms := by
  obtain ⟨hms, hhead⟩ := h.outside.follows le_rfl le_rfl h.nonTouching
  refine ⟨hms, fun m hm => ?_⟩
  have := hhead m hm
  unfold LineRangeMapping.startDelta
  omega

/-- Joining the first two mappings keeps the rest of the texts. -/
theorem EqualOutside.join (h : EqualOutside base input p q (m :: m' :: ms)) :
    EqualOutside base input p q (m.join m' :: ms) := by
  obtain ⟨⟨h1, h2⟩, ⟨h3, h4⟩, heq, ⟨h5, h6⟩, ⟨h7, h8⟩, -, h⟩ := h
  have hin := m.inputRange.start_le_end
  have hout := m.outputRange.start_le_end
  have hin' := m'.inputRange.start_le_end
  have hout' := m'.outputRange.start_le_end
  have hs : min m.inputRange.startLineNumber m'.inputRange.startLineNumber =
    m.inputRange.startLineNumber := by omega
  have he : max m.inputRange.endLineNumberExclusive m'.inputRange.endLineNumberExclusive =
    m'.inputRange.endLineNumberExclusive := by omega
  have hs' : min m.outputRange.startLineNumber m'.outputRange.startLineNumber =
    m.outputRange.startLineNumber := by omega
  have he' : max m.outputRange.endLineNumberExclusive m'.outputRange.endLineNumberExclusive =
    m'.outputRange.endLineNumberExclusive := by omega
  simp only [EqualOutside, LineRangeMapping.join, LineRange.join, hs, he, hs', he']
  exact ⟨⟨h1, h6⟩, ⟨h3, h8⟩, heq, h⟩

theorem EqualOutside.joinAll {j : LineRangeMapping}
    (h : EqualOutside base input p q (ms ++ ms')) (hj : joinAll ms = some j) :
    EqualOutside base input p q (j :: ms') := by
  cases ms with
  | nil => cases hj
  | cons m ms =>
    cases hj
    induction ms generalizing m with
    | nil => exact h
    | cons m' ms ih => exact ih (m.join m') h.join

end Differences

section Replace

variable {base input : TextModel} {p q : ℤ} {m : LineRangeMapping} {ms : List LineRangeMapping}

theorem Range.new_eq {a b c d : ℤ} (h : a < c ∨ a = c ∧ b ≤ d) :
    Range.new a b c d = ⟨⟨a, b⟩, ⟨c, d⟩⟩ := by
  unfold Range.new
  rw [if_neg]
  omega

/-- The edit that takes the output lines of a mapping. -/
def takeOutput (input : TextModel) (m : LineRangeMapping) : LineRangeEdit :=
  ⟨m.inputRange, linesBetween input.lines m.outputRange.startLineNumber
    m.outputRange.endLineNumberExclusive⟩

/-- An edit as offsets and a text. -/
def replacement (base : TextModel) (e : SingleEditOperation) : ℕ × ℕ × Str :=
  (offsetAt base e.range.startPosition, offsetAt base e.range.endPosition, e.text)

theorem take_eq_append (ls : List Str) {a b : ℤ} (ha : 1 ≤ a) (hab : a ≤ b) :
    ls.take (b - 1).toNat = ls.take (a - 1).toNat ++ linesBetween ls a b := by
  have h : linesBetween ls 1 a ++ linesBetween ls a b = linesBetween ls 1 b :=
    linesBetween_append ha hab
  simpa [linesBetween] using h.symm

theorem linesBetween_ne_nil {ls : List Str} {a b : ℤ} (ha : 1 ≤ a) (hab : a < b)
    (hb : b ≤ ls.length + 1) : linesBetween ls a b ≠ [] := by
  intro hnil
  have := linesBetween_length ha hab.le hb
  rw [hnil] at this
  simp only [List.length_nil] at this
  omega

/-- Lines follow in the input when they do in the base. -/
theorem EqualOutside.linesFrom_ne_nil
    (h : EqualOutside base.lines input.lines p q ms) (hp : 1 ≤ p) (hpn : p ≤ base.getLineCount)
    (hfirst : ∀ m ∈ ms.head?, p < m.inputRange.startLineNumber) :
    linesFrom input.lines q ≠ [] := by
  cases ms with
  | nil =>
    rw [← h]
    exact MergeEditor.linesFrom_ne_nil hp hpn
  | cons m ms =>
    obtain ⟨⟨h1, h2⟩, ⟨h3, h4⟩, heq, -⟩ := h
    have hin := m.inputRange.start_le_end
    have hne := linesBetween_ne_nil hp (hfirst m rfl) (by omega :
      m.inputRange.startLineNumber ≤ base.lines.length + 1)
    rw [heq] at hne
    rw [← linesBetween_append_linesFrom h3]
    simp [hne]

section Text

variable {newLines : List Str} {a b : ℤ} {h : a ≤ b}

theorem joinLines_split (hp : 1 ≤ p) (hpn : p ≤ base.getLineCount) :
    joinLines base.lines =
      body (base.lines.take (p - 1).toNat) ++ joinLines (linesFrom base.lines p) := by
  rw [← joinLines_append_right _ (MergeEditor.linesFrom_ne_nil hp hpn), linesFrom,
    List.take_append_drop]

theorem body_take (ls : List Str) (ha : 1 ≤ a) (hab : a ≤ b) :
    body (ls.take (b - 1).toNat) = body (ls.take (a - 1).toNat) ++ body (linesBetween ls a b) := by
  rw [take_eq_append ls ha hab]
  simp [body]

/-- An edit before the last line ends at the beginning of a line. -/
theorem replacement_lineStart (ha : 1 ≤ a) (hb : b ≤ base.getLineCount) :
    replacement base ((⟨⟨a, b, h⟩, newLines⟩ : LineRangeEdit).toEdit base.getLineCount) =
      ((body (base.lines.take (a - 1).toNat)).length,
        (body (base.lines.take (b - 1).toNat)).length, body newLines) := by
  unfold LineRangeEdit.toEdit replacement
  rw [if_pos hb, Range.new_eq (by dsimp only; omega)]
  dsimp only
  rw [offsetAt_lineStart ha (by omega), offsetAt_lineStart (by omega) hb]
  rfl

theorem offsetAt_end (hn : 1 ≤ base.getLineCount) :
    offsetAt base ⟨base.getLineCount, MAX_SAFE_INTEGER⟩ = (joinLines base.lines).length := by
  rw [offsetAt_lineEnd hn le_rfl]
  simp [TextModel.getLineCount]

/-- An edit of the whole document. -/
theorem replacement_all (hn : 1 ≤ base.getLineCount) (ha : a = 1) (hb : base.getLineCount < b) :
    replacement base ((⟨⟨a, b, h⟩, newLines⟩ : LineRangeEdit).toEdit base.getLineCount) =
      (0, (joinLines base.lines).length, joinLines newLines) := by
  unfold LineRangeEdit.toEdit replacement
  rw [if_neg (by simpa using hb), if_pos ha, Range.new_eq (by unfold MAX_SAFE_INTEGER; omega)]
  dsimp only
  rw [offsetAt_end hn, offsetAt_lineStart le_rfl hn]
  rfl

/-- An edit up to the end takes the line break before it. -/
theorem replacement_lineEnd (hn : 1 ≤ base.getLineCount) (ha : 1 < a)
    (han : a ≤ base.getLineCount + 1) (hb : base.getLineCount < b) :
    replacement base ((⟨⟨a, b, h⟩, newLines⟩ : LineRangeEdit).toEdit base.getLineCount) =
      ((joinLines (base.lines.take (a - 1).toNat)).length, (joinLines base.lines).length,
        tailLines newLines) := by
  unfold LineRangeEdit.toEdit replacement
  rw [if_neg (by simpa using hb), if_neg (by dsimp only; omega),
    Range.new_eq (by dsimp only; omega)]
  dsimp only
  rw [offsetAt_end hn, offsetAt_lineEnd (by omega) (by omega)]
  rfl

end Text

/-- Replacing the ranges of the base gives the text of the input. -/
theorem replaceFrom_eq (hp : 1 ≤ p) (hpn : p ≤ base.getLineCount) (hq : 1 ≤ q)
    (h : EqualOutside base.lines input.lines p q ms) (hchain : ms.IsChain Before)
    (hfirst : p = 1 ∨ ∀ m ∈ ms.head?, p < m.inputRange.startLineNumber) :
    replaceFrom (joinLines base.lines) (body (base.lines.take (p - 1).toNat)).length
      (ms.map fun m => replacement base ((takeOutput input m).toEdit base.getLineCount)) =
        joinLines (linesFrom input.lines q) := by
  induction ms generalizing p q with
  | nil =>
    rw [List.map_nil, replaceFrom, joinLines_split hp hpn, List.drop_left]
    exact congrArg joinLines h
  | cons m ms ih =>
    obtain ⟨⟨h1, h2⟩, ⟨h3, h4⟩, heq, h⟩ := h
    have hin := m.inputRange.start_le_end
    have hout := m.outputRange.start_le_end
    have hn : 1 ≤ base.getLineCount := by omega
    have hinput : linesFrom input.lines q =
        linesBetween base.lines p m.inputRange.startLineNumber ++
          (linesBetween input.lines m.outputRange.startLineNumber
            m.outputRange.endLineNumberExclusive ++
              linesFrom input.lines m.outputRange.endLineNumberExclusive) := by
      rw [heq, linesBetween_append_linesFrom hout, linesBetween_append_linesFrom h3]
    rw [List.map_cons, hinput]
    by_cases ht : m.inputRange.endLineNumberExclusive ≤ base.getLineCount
    · have hnext : ∀ m' ∈ ms.head?,
          m.inputRange.endLineNumberExclusive < m'.inputRange.startLineNumber := by
        intro m' hm'
        cases ms with
        | nil => cases hm'
        | cons x ms =>
          cases hm'
          exact (List.isChain_cons_cons.mp hchain).1
      have hne := h.linesFrom_ne_nil (by omega) ht hnext
      have hrest := ih (by omega) ht (by omega) h hchain.tail (.inr hnext)
      have hrep : replacement base ((takeOutput input m).toEdit base.getLineCount) = _ :=
        replacement_lineStart (a := m.inputRange.startLineNumber)
          (b := m.inputRange.endLineNumberExclusive) (by omega) ht
      rw [hrep, replaceFrom, hrest, joinLines_split (p := m.inputRange.startLineNumber)
          (by omega) (by omega), body_take base.lines hp h1, List.take_left, List.drop_left,
        joinLines_append_right _ (by simp [hne]), joinLines_append_right _ hne, List.append_assoc]
    · have hnil : ms = [] := by
        cases ms with
        | nil => rfl
        | cons m' ms =>
          have hlt : m.inputRange.endLineNumberExclusive < m'.inputRange.startLineNumber :=
            (List.isChain_cons_cons.mp hchain).1
          have := m'.inputRange.start_le_end
          have := h.1.2
          unfold TextModel.getLineCount at ht
          omega
      subst hnil
      have hlast : linesFrom input.lines m.outputRange.endLineNumberExclusive = [] := by
        rw [← h, linesFrom, List.drop_eq_nil_iff]
        unfold TextModel.getLineCount at ht
        omega
      rw [hlast, List.append_nil, List.map_nil]
      have htext : ∀ xs : Str, xs.drop xs.length = [] := fun xs => List.drop_length
      by_cases hs : m.inputRange.startLineNumber = 1
      · obtain rfl : p = 1 := by omega
        have hrep : replacement base ((takeOutput input m).toEdit base.getLineCount) = _ :=
          replacement_all (a := m.inputRange.startLineNumber)
            (b := m.inputRange.endLineNumberExclusive) hn hs (by omega)
        have hempty : linesBetween base.lines 1 m.inputRange.startLineNumber = [] := by
          simp [linesBetween, hs]
        rw [hrep, replaceFrom, replaceFrom, htext, hempty, List.take_zero, List.drop_nil,
          List.nil_append, List.nil_append, List.append_nil]
      · have hlt : p < m.inputRange.startLineNumber := by
          rcases hfirst with rfl | hfirst
          · omega
          · exact hfirst m rfl
        have hrep : replacement base ((takeOutput input m).toEdit base.getLineCount) = _ :=
          replacement_lineEnd (a := m.inputRange.startLineNumber)
            (b := m.inputRange.endLineNumberExclusive) hn (by omega)
            (by unfold TextModel.getLineCount; omega) (by omega)
        have hbetween : linesBetween base.lines p m.inputRange.startLineNumber ≠ [] :=
          linesBetween_ne_nil hp hlt (by omega)
        have hinit : joinLines (base.lines.take (m.inputRange.startLineNumber - 1).toNat) =
            body (base.lines.take (p - 1).toNat) ++
              joinLines (linesBetween base.lines p m.inputRange.startLineNumber) := by
          rw [take_eq_append base.lines hp h1, joinLines_append_right _ hbetween]
        have hsplit : joinLines base.lines =
            joinLines (base.lines.take (m.inputRange.startLineNumber - 1).toNat) ++
              tailLines (base.lines.drop (m.inputRange.startLineNumber - 1).toNat) := by
          rw [← joinLines_append_left, List.take_append_drop]
          rw [take_eq_append base.lines hp h1]
          simp [hbetween]
        rw [hrep, replaceFrom, replaceFrom, htext, List.append_nil, hsplit, List.take_left,
          hinit, List.drop_left, joinLines_append_left hbetween]

end Replace

section Edits

variable {base input : TextModel} {ms : List LineRangeMapping}

/-- Edits for line differences, applied at once, give the lines of the input. -/
theorem applyEdits_eq (h : LineDiff base.lines input.lines ms) :
    applyEdits base (LineEdits.toEdits (ms.map (takeOutput input)) base.getLineCount) =
      input.lines := by
  have hn : 1 ≤ base.getLineCount := by
    have := List.length_pos_iff.mpr base.lines_ne_nil
    unfold TextModel.getLineCount
    omega
  have hreplace := replaceFrom_eq le_rfl hn le_rfl h.outside h.nonTouching (.inl rfl)
  have hall : linesFrom input.lines 1 = input.lines := rfl
  unfold applyEdits LineEdits.toEdits
  rw [List.map_map, List.map_map]
  exact (congrArg splitLines hreplace).trans
    (by rw [hall, splitLines_joinLines input.lines_ne_nil input.no_break])

/-- No edit reaches beyond the beginning of a later one. -/
def NonOverlapping (edits : List SingleEditOperation) : Prop :=
  edits.Pairwise fun e f => e.range.endPosition.isBeforeOrEqual f.range.startPosition

theorem toEdit_before {e f : LineRangeEdit} {n : ℤ}
    (hef : e.range.endLineNumberExclusive < f.range.startLineNumber)
    (he : 1 ≤ e.range.startLineNumber) (hf : f.range.endLineNumberExclusive ≤ n + 1) :
    (e.toEdit n).range.endPosition.isBeforeOrEqual (f.toEdit n).range.startPosition = true := by
  have h1 := e.range.start_le_end
  have h2 := f.range.start_le_end
  have hend : (e.toEdit n).range.endPosition = ⟨e.range.endLineNumberExclusive, 1⟩ := by
    unfold LineRangeEdit.toEdit
    rw [if_pos (by omega), Range.new_eq (by omega)]
  have hne : f.range.startLineNumber ≠ 1 := by omega
  rw [hend]
  unfold LineRangeEdit.toEdit
  -- The later edit begins with its line, or with the line break before it.
  by_cases ht : f.range.endLineNumberExclusive ≤ n
  · rw [if_pos ht, Range.new_eq (by omega)]
    simp only [Position.isBeforeOrEqual, Bool.or_eq_true, decide_eq_true_eq]
    exact .inl hef
  · rw [if_neg ht, if_neg hne, Range.new_eq (by omega)]
    simp only [Position.isBeforeOrEqual, Bool.or_eq_true, Bool.and_eq_true, decide_eq_true_eq]
    have hcolumn : 1 ≤ MAX_SAFE_INTEGER := by decide
    omega

theorem toEdits_nonOverlapping (h : LineDiff base.lines input.lines ms) :
    NonOverlapping (LineEdits.toEdits (ms.map (takeOutput input)) base.getLineCount) := by
  have hbounds := h.outside.bounds le_rfl le_rfl
  unfold NonOverlapping LineEdits.toEdits
  rw [List.pairwise_map, List.pairwise_map]
  apply (h.nonTouching.pairwise).imp_of_mem
  intro m m' hm hm' hlt
  exact toEdit_before hlt (hbounds m hm).1 (hbounds m' hm').2.1

end Edits

section Joined

variable {as : List (MappingAlignment T)} {base input : List Str} {p q : ℤ} {source : Fin 2}

/-- The joined mappings of one output, one for each alignment that has some. -/
def joined (toMapping : T → LineRangeMapping) (as : List (MappingAlignment T)) (source : Fin 2) :
    List LineRangeMapping :=
  as.filterMap fun a => joinAll ((a.lineMappings source).map toMapping)

theorem EqualOutside.joined (h : EqualOutside base input p q ((settled as source).map toMapping)) :
    EqualOutside base input p q (joined toMapping as source) := by
  induction as generalizing p q with
  | nil => exact h
  | cons a as ih =>
    rw [settled_cons, List.map_append] at h
    unfold MergeEditor.joined at ih ⊢
    rw [List.filterMap_cons]
    cases hj : LineRangeMapping.joinAll ((a.lineMappings source).map toMapping) with
    | none =>
      have hnil : (a.lineMappings source).map toMapping = [] := by
        cases hm : (a.lineMappings source).map toMapping with
        | nil => rfl
        | cons m ms =>
          rw [hm] at hj
          cases hj
      rw [hnil] at h
      exact ih h
    | some j =>
      obtain ⟨h1, h2, heq, hrest⟩ := h.joinAll hj
      exact ⟨h1, h2, heq, ih hrest⟩

theorem joinAll_containsRange {r : LineRange} {ms : List LineRangeMapping} {j : LineRangeMapping}
    (h : ∀ m ∈ ms, r.containsRange m.inputRange = true) (hj : joinAll ms = some j) :
    r.containsRange j.inputRange = true := by
  cases ms with
  | nil => cases hj
  | cons m ms =>
    cases hj
    induction ms generalizing m with
    | nil => exact h m (by simp)
    | cons m' ms ih =>
      rw [List.forall_mem_cons, List.forall_mem_cons] at h
      apply ih (m.join m')
      rw [List.forall_mem_cons]
      refine ⟨?_, h.2.2⟩
      have h1 := LineRange.containsRange_iff.mp h.1
      have h2 := LineRange.containsRange_iff.mp h.2.1
      rw [LineRange.containsRange_iff]
      simp only [join, LineRange.join]
      omega

theorem Placed.joined_before (h : Placed toMapping as) :
    (joined toMapping as source).IsChain Before := by
  have hcontains : ∀ a ∈ as, ∀ j, joinAll ((a.lineMappings source).map toMapping) = some j →
      a.inputRange.containsRange j.inputRange = true := by
    intro a ha j hj
    apply joinAll_containsRange _ hj
    simpa using h.contains a ha source
  apply List.Pairwise.isChain
  unfold joined
  rw [List.pairwise_filterMap]
  apply h.sorted.imp_of_mem
  intro a b ha hb hlt j hj j' hj'
  have h1 := LineRange.containsRange_iff.mp (hcontains a ha j hj)
  have h2 := LineRange.containsRange_iff.mp (hcontains b hb j' hj')
  unfold Before
  omega

end Joined

end NexgileIde.MergeEditor
