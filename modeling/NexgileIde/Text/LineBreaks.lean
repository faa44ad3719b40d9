import NexgileIde.Text.CodeUnits

/-!
# Line breaks

A line ends behind `\r\n`, a lone `\r` and a lone `\n`. The scans of the source skip
the `\n` of a `\r\n`; the proofs use that a `\r` ends a line unless a `\n` follows, so
that one code unit is read at a time.
-/
namespace NexgileIde.Text

/-- `createLineStartsFast(str)`, behind the entry for the first line; `i` counts the
code units read. -/
def lineStartsFrom : ℕ → Str → List ℕ
  | _, [] => []
  | i, [chr] => if chr = CarriageReturn ∨ chr = LineFeed then [i + 1] else []
  | i, chr :: next :: rest =>
    if chr = CarriageReturn then
      if next = LineFeed then (i + 2) :: lineStartsFrom (i + 2) rest
      else (i + 1) :: lineStartsFrom (i + 1) (next :: rest)
    else if chr = LineFeed then (i + 1) :: lineStartsFrom (i + 1) (next :: rest)
    else lineStartsFrom (i + 1) (next :: rest)

def createLineStartsFast (str : Str) : List ℕ := 0 :: lineStartsFrom 0 str

/-- `str.split(/\r\n|\r|\n/)` -/
def splitLines : Str → List Str
  | [] => [[]]
  | [chr] => if chr = CarriageReturn ∨ chr = LineFeed then [[], []] else [[chr]]
  | chr :: next :: rest =>
    if chr = CarriageReturn ∧ next = LineFeed then [] :: splitLines rest
    else if chr = CarriageReturn ∨ chr = LineFeed then [] :: splitLines (next :: rest)
    else (splitLines (next :: rest)).modifyHead (chr :: ·)

/-- `str.replace(/\r\n|\r|\n/g, eol)` -/
def replaceEOL (eol : Str) : Str → Str
  | [] => []
  | [chr] => if chr = CarriageReturn ∨ chr = LineFeed then eol else [chr]
  | chr :: next :: rest =>
    if chr = CarriageReturn ∧ next = LineFeed then eol ++ replaceEOL eol rest
    else if chr = CarriageReturn ∨ chr = LineFeed then eol ++ replaceEOL eol (next :: rest)
    else chr :: replaceEOL eol (next :: rest)

/-- `str.replace(/(\r\n|\r|\n)$/, '')` -/
def stripLineEnd (str : Str) : Str :=
  if [CarriageReturn, LineFeed] <:+ str then str.take (str.length - 2)
  else if str.getLast? = some CarriageReturn ∨ str.getLast? = some LineFeed then str.dropLast
  else str

/-- Whether a line ends behind a code unit followed by `rest`. -/
def IsLineEnd (chr : CodeUnit) (rest : Str) : Prop :=
  chr = LineFeed ∨ chr = CarriageReturn ∧ rest.head? ≠ some LineFeed

instance (chr : CodeUnit) (rest : Str) : Decidable (IsLineEnd chr rest) :=
  inferInstanceAs (Decidable (_ ∨ _))

/-- The offsets at which lines end, counted from `i`. -/
def lineEnds : ℕ → Str → List ℕ
  | _, [] => []
  | i, chr :: rest =>
    if IsLineEnd chr rest then (i + 1) :: lineEnds (i + 1) rest else lineEnds (i + 1) rest

theorem lineEnds_cons (i : ℕ) (chr : CodeUnit) (rest : Str) :
    lineEnds i (chr :: rest) =
      if IsLineEnd chr rest then (i + 1) :: lineEnds (i + 1) rest else lineEnds (i + 1) rest := rfl

/-- The number of line breaks, a `\r\n` counted once. -/
def countBreaks (str : Str) : ℕ := (lineEnds 0 str).length

theorem countBreaks_eq (str : Str) : countBreaks str = (lineEnds 0 str).length := rfl

/-- A `\r\n` is cut in two between `u` and `v`. -/
def Seam (u v : Str) : Prop := u.getLast? = some CarriageReturn ∧ v.head? = some LineFeed

instance (u v : Str) : Decidable (Seam u v) := inferInstanceAs (Decidable (_ ∧ _))

theorem Seam.head_eq {u v : Str} {chr : CodeUnit} (h : Seam u (chr :: v)) : chr = LineFeed :=
  Option.some.inj h.2

theorem Seam.last_eq {u v : Str} {chr : CodeUnit} (h : Seam (u ++ [chr]) v) :
    chr = CarriageReturn := by
  have hlast := h.1
  rw [List.getLast?_concat] at hlast
  exact Option.some.inj hlast

theorem isLineEnd_lineFeed (rest : Str) : IsLineEnd LineFeed rest := .inl rfl

theorem not_isLineEnd_crlf (rest : Str) : ¬ IsLineEnd CarriageReturn (LineFeed :: rest) := by
  simp [IsLineEnd]

theorem isLineEnd_singleton {chr : CodeUnit} :
    IsLineEnd chr [] ↔ chr = CarriageReturn ∨ chr = LineFeed := by
  simp [IsLineEnd, or_comm]

theorem isLineEnd_cons {chr next : CodeUnit} {rest : Str}
    (h : ¬ (chr = CarriageReturn ∧ next = LineFeed)) :
    IsLineEnd chr (next :: rest) ↔ chr = CarriageReturn ∨ chr = LineFeed := by
  simp only [IsLineEnd, List.head?_cons, Ne, Option.some.injEq]
  tauto

theorem lineStartsFrom_eq (i : ℕ) (str : Str) : lineStartsFrom i str = lineEnds i str := by
  induction i, str using lineStartsFrom.induct with
  | case1 i => rfl
  | case2 i chr h => simp only [lineStartsFrom, lineEnds, isLineEnd_singleton]
  | case3 i chr h => simp only [lineStartsFrom, lineEnds, isLineEnd_singleton]
  | case4 i rest ih =>
    rw [lineStartsFrom, if_pos rfl, if_pos rfl, lineEnds, if_neg (not_isLineEnd_crlf rest),
      lineEnds, if_pos (isLineEnd_lineFeed rest), ih]
  | case5 i next rest hlf ih =>
    rw [lineStartsFrom, if_pos rfl, if_neg hlf, lineEnds,
      if_pos ((isLineEnd_cons (by tauto)).mpr (.inl rfl)), ih]
  | case6 i next rest hcr ih =>
    rw [lineStartsFrom, if_neg hcr, if_pos rfl, lineEnds, if_pos (isLineEnd_lineFeed _), ih]
  | case7 i chr next rest hcr hlf ih =>
    rw [lineStartsFrom, if_neg hcr, if_neg hlf, lineEnds,
      if_neg ((isLineEnd_cons (by tauto)).not.mpr (by tauto)), ih]

theorem splitLines_cons (chr : CodeUnit) (rest : Str) : splitLines (chr :: rest) =
    if IsLineEnd chr rest then [] :: splitLines rest
    else if chr = CarriageReturn then splitLines rest
    else (splitLines rest).modifyHead (chr :: ·) := by
  cases rest with
  | nil =>
    by_cases h : chr = CarriageReturn ∨ chr = LineFeed
    · simp [splitLines, isLineEnd_singleton, h]
    · simp [splitLines, isLineEnd_singleton, (not_or.mp h).1]
  | cons next rest =>
    rw [splitLines]
    by_cases hcrlf : chr = CarriageReturn ∧ next = LineFeed
    · obtain ⟨rfl, rfl⟩ := hcrlf
      have hlf : splitLines (LineFeed :: rest) = [] :: splitLines rest := by
        cases rest <;> simp [splitLines]
      simp [not_isLineEnd_crlf, hlf]
    · rw [if_neg hcrlf]
      simp only [isLineEnd_cons hcrlf]
      split_ifs with h h' <;> tauto

theorem replaceEOL_cons (eol : Str) (chr : CodeUnit) (rest : Str) : replaceEOL eol (chr :: rest) =
    if IsLineEnd chr rest then eol ++ replaceEOL eol rest
    else if chr = CarriageReturn then replaceEOL eol rest
    else chr :: replaceEOL eol rest := by
  cases rest with
  | nil =>
    by_cases h : chr = CarriageReturn ∨ chr = LineFeed
    · simp [replaceEOL, isLineEnd_singleton, h]
    · simp [replaceEOL, isLineEnd_singleton, (not_or.mp h).1]
  | cons next rest =>
    rw [replaceEOL]
    by_cases hcrlf : chr = CarriageReturn ∧ next = LineFeed
    · obtain ⟨rfl, rfl⟩ := hcrlf
      have hlf : replaceEOL eol (LineFeed :: rest) = eol ++ replaceEOL eol rest := by
        cases rest <;> simp [replaceEOL]
      simp [not_isLineEnd_crlf, hlf]
    · rw [if_neg hcrlf]
      simp only [isLineEnd_cons hcrlf]
      split_ifs with h h' <;> tauto

theorem lineEnds_add (i j : ℕ) (str : Str) :
    lineEnds (i + j) str = (lineEnds j str).map (i + ·) := by
  induction str generalizing j with
  | nil => rfl
  | cons chr rest ih =>
    rw [lineEnds_cons, lineEnds_cons, Nat.add_assoc, ih]
    split_ifs <;> rfl

theorem isLineEnd_append {chr : CodeUnit} {u v : Str} (hv : ¬ Seam (chr :: u) v) :
    IsLineEnd chr (u ++ v) ↔ IsLineEnd chr u := by
  cases u with
  | nil =>
    simp only [Seam, List.getLast?_singleton, Option.some.injEq, not_and] at hv
    simp only [IsLineEnd, List.nil_append, List.head?_nil]
    constructor
    · rintro (h | ⟨h, -⟩)
      · exact .inl h
      · exact .inr ⟨h, by simp⟩
    · rintro (h | ⟨h, -⟩)
      · exact .inl h
      · exact .inr ⟨h, hv h⟩
  | cons d u => rfl

theorem not_seam_of_cons {chr : CodeUnit} {u v : Str} (h : ¬ Seam (chr :: u) v) :
    ¬ Seam u v := by
  rintro ⟨hu, hv⟩
  refine h ⟨?_, hv⟩
  cases u with
  | nil => cases hu
  | cons d u => rwa [List.getLast?_cons_cons]

theorem not_seam_of_noCarriageReturn {u : Str} (h : CarriageReturn ∉ u) (v : Str) : ¬ Seam u v := by
  intro hseam
  exact h (List.mem_of_getLast? hseam.1)

/-- Where no `\r\n` is cut in two, the lines of both parts end where they ended. -/
theorem lineEnds_append {u v : Str} (i : ℕ) (h : ¬ Seam u v) :
    lineEnds i (u ++ v) = lineEnds i u ++ lineEnds (i + u.length) v := by
  induction u generalizing i with
  | nil => rfl
  | cons chr u ih =>
    rw [List.cons_append, lineEnds_cons, lineEnds_cons, ih (i + 1) (not_seam_of_cons h),
      List.length_cons, Nat.add_right_comm, Nat.add_assoc i u.length 1]
    simp only [isLineEnd_append h]
    split_ifs <;> rfl

theorem countBreaks_append {u v : Str} (h : ¬ Seam u v) :
    countBreaks (u ++ v) = countBreaks u + countBreaks v := by
  have hshift := lineEnds_add u.length 0 v
  rw [Nat.add_zero] at hshift
  rw [countBreaks_eq, lineEnds_append 0 h, List.length_append, Nat.zero_add, hshift,
    List.length_map]
  rfl

end NexgileIde.Text

/-!
## Replacing the line ends

Every line end becomes the same one. The number of lines does not change, and parts that
cut no `\r\n` in two can be treated one by one.
-/
namespace NexgileIde.Text

/-- No `\r\n` is cut in two where the texts meet, empty ones among them or not. -/
def Uncut (texts : List Str) : Prop :=
  ∀ front back, texts = front ++ back → ¬ Seam front.flatten back.flatten

theorem replaceEOL_append (eol : Str) {u v : Str} (h : ¬ Seam u v) :
    replaceEOL eol (u ++ v) = replaceEOL eol u ++ replaceEOL eol v := by
  induction u with
  | nil => rfl
  | cons chr u ih =>
    rw [List.cons_append, replaceEOL_cons, replaceEOL_cons, ih (not_seam_of_cons h)]
    simp only [isLineEnd_append h]
    split_ifs
    · rw [List.append_assoc]
    · rfl
    · rfl

theorem replaceEOL_flatten (eol : Str) {texts : List Str} (h : Uncut texts) :
    (texts.map (replaceEOL eol)).flatten = replaceEOL eol texts.flatten := by
  induction texts with
  | nil => rfl
  | cons text texts ih =>
    have hseam := h [text] texts rfl
    rw [List.flatten_singleton] at hseam
    have hrest : Uncut texts := by
      intro front back hsplit hcut
      apply h (text :: front) back (by rw [hsplit, List.cons_append])
      obtain ⟨hlast, hhead⟩ := hcut
      refine ⟨?_, hhead⟩
      rw [List.flatten_cons, List.getLast?_append, hlast]
      rfl
    rw [List.map_cons, List.flatten_cons, List.flatten_cons, replaceEOL_append eol hseam, ih hrest]

/-- Groups of texts are cut where the texts are. -/
theorem Uncut.groups {groups : List (List Str)} (h : Uncut groups.flatten) :
    Uncut (groups.map List.flatten) := by
  intro front back hsplit
  obtain ⟨front', back', rfl, rfl, rfl⟩ := List.map_eq_append_iff.mp hsplit
  rw [← List.flatten_flatten, ← List.flatten_flatten]
  exact h front'.flatten back'.flatten List.flatten_append

theorem countBreaks_cons (chr : CodeUnit) (rest : Str) :
    countBreaks (chr :: rest) = (if IsLineEnd chr rest then 1 else 0) + countBreaks rest := by
  have hshift := lineEnds_add 1 0 rest
  rw [countBreaks_eq, lineEnds_cons, countBreaks_eq, hshift]
  split_ifs
  · simp [add_comm]
  · simp

/-- A line end as it is written by the editor. -/
structure IsEol (eol : Str) : Prop where
  breaks : countBreaks eol = 1
  last : eol.getLast? = some LineFeed

theorem IsEol.not_seam {eol v : Str} (h : IsEol eol) : ¬ Seam eol v := by
  rintro ⟨hlast, -⟩
  rw [h.last] at hlast
  cases hlast

theorem countBreaks_replaceEOL {eol : Str} (h : IsEol eol) (str : Str) :
    countBreaks (replaceEOL eol str) = countBreaks str := by
  induction str with
  | nil => rfl
  | cons chr rest ih =>
    rw [replaceEOL_cons, countBreaks_cons]
    split_ifs with hend hcr
    · rw [countBreaks_append h.not_seam, h.breaks, ih]
    · rw [Nat.zero_add, ih]
    · have hlf : chr ≠ LineFeed := fun hlf => hend (.inl hlf)
      rw [countBreaks_cons, if_neg (by simp [IsLineEnd, hlf, hcr]), ih]

theorem replaceEOL_eq_nil {eol : Str} (h : eol ≠ []) {str : Str} :
    replaceEOL eol str = [] ↔ str = [] := by
  induction str with
  | nil => exact Iff.rfl
  | cons chr rest ih =>
    rw [replaceEOL_cons]
    split_ifs with hend hcr
    · simp [h]
    · -- the `\r` of a `\r\n`
      have hne : rest ≠ [] := by
        rintro rfl
        exact hend (.inr ⟨hcr, by simp⟩)
      simp [ih, hne]
    · simp

/-- No `\r` is left at the end. -/
theorem getLast?_replaceEOL {eol : Str} (h : IsEol eol) (str : Str) :
    (replaceEOL eol str).getLast? ≠ some CarriageReturn := by
  induction str with
  | nil => simp [replaceEOL]
  | cons chr rest ih =>
    rw [replaceEOL_cons]
    split_ifs with hend hcr
    · rw [List.getLast?_append]
      cases hlast : (replaceEOL eol rest).getLast? with
      | none =>
        rw [Option.none_or, h.last]
        simp [LineFeed, CarriageReturn]
      | some last =>
        rw [Option.some_or, ← hlast]
        exact ih
    · exact ih
    · cases hrest : replaceEOL eol rest with
      | nil => simpa using hcr
      | cons next rest' =>
        rw [List.getLast?_cons_cons, ← hrest]
        exact ih

/-- A line end without `\r` leaves none in the text. -/
theorem not_mem_replaceEOL {eol : Str} (h : CarriageReturn ∉ eol) (str : Str) :
    CarriageReturn ∉ replaceEOL eol str := by
  induction str with
  | nil => simp [replaceEOL]
  | cons chr rest ih =>
    rw [replaceEOL_cons]
    split_ifs with hend hcr
    · rw [List.mem_append]
      exact not_or.mpr ⟨h, ih⟩
    · exact ih
    · rw [List.mem_cons]
      exact not_or.mpr ⟨Ne.symm hcr, ih⟩

end NexgileIde.Text
