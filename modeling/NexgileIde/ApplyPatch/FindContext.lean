import NexgileIde.Text.CodeUnits

/-!
# Where the context of a patch is found

A patch names the place it changes by some lines of the file. They are looked for in passes
that forgive more and more differences: punctuation, whitespace, written out tabs and line
breaks, and in the end a few characters by edit distance.
-/
namespace NexgileIde.ApplyPatch

open Text

/-- A line of a text. -/
structure Line where
  text : Str
  no_break : LineFeed ∉ text
  deriving DecidableEq, Repr

/-- The flags of a match are the bits of a number. -/
abbrev Fuzz := ℕ

namespace Fuzz

def None : Fuzz := 0
def IgnoredTrailingWhitespace : Fuzz := 1 <<< 1
def NormalizedExplicitTab : Fuzz := 1 <<< 2
def IgnoredWhitespace : Fuzz := 1 <<< 3
def EditDistanceMatch : Fuzz := 1 <<< 4
def NormalizedExplicitNL : Fuzz := 1 <<< 7

/-- `fuzz & flag` -/
def has (fuzz flag : Fuzz) : Bool := fuzz &&& flag ≠ 0

end Fuzz

/-- White space and line terminators, as `trim` and `\s` have them. -/
def isWhiteSpace (c : CodeUnit) : Bool :=
  (9 ≤ c && c ≤ 13) || c == 32 || c == 160 || c == 0x1680 || (0x2000 ≤ c && c ≤ 0x200A) ||
    c == 0x2028 || c == 0x2029 || c == 0x202F || c == 0x205F || c == 0x3000 || c == 0xFEFF

/-- Where `^` matches behind, with the flag for several lines. -/
def isLineTerminator (c : CodeUnit) : Bool :=
  c == LineFeed || c == CarriageReturn || c == 0x2028 || c == 0x2029

def trimEnd (s : Str) : Str := s.rdropWhile isWhiteSpace

def trimStart (s : Str) : Str := s.dropWhile isWhiteSpace

def trim (s : Str) : Str := trimStart (trimEnd s)

/-- `lines.join('\n')` -/
def join (lines : List Str) : Str := [LineFeed].intercalate lines

/-- `s.split('\n')` -/
def split (s : Str) : List Str := s.splitOn LineFeed

/-- `\` and `/` and `#` -/
def Backslash : CodeUnit := 92
def Slash : CodeUnit := 47
def Hash : CodeUnit := 35

/-- The replacement within `/^(?:\s|\\t|\/|#)*/gm`; `leading` says that the expression still
matches, which it does from every start of a line on. -/
def replaceExplicitTabsFrom : Bool → Str → Str
  | _, [] => []
  | _, [c] => [c]
  | leading, c :: d :: rest =>
    if leading then
      if c = Backslash ∧ d = 116 then 9 :: replaceExplicitTabsFrom true rest
      else
        c :: replaceExplicitTabsFrom (isWhiteSpace c || c == Slash || c == Hash) (d :: rest)
    else c :: replaceExplicitTabsFrom (isLineTerminator c) (d :: rest)

/-- `replace_explicit_tabs` -/
def replaceExplicitTabs (s : Str) : Str := replaceExplicitTabsFrom true s

/-- `s.replaceAll('\\n', '\n')` -/
def replaceAllNl : Str → Str
  | [] => []
  | [c] => [c]
  | c :: d :: rest =>
    if c = Backslash ∧ d = 110 then LineFeed :: replaceAllNl rest else c :: replaceAllNl (d :: rest)

/-- `replace_explicit_nl` -/
def replaceExplicitNl (s : Str) : Str := replaceExplicitTabs (replaceAllNl s)

/-- An index given to `slice`: negative ones count from the end. -/
def sliceIndex (length : ℕ) (i : ℤ) : ℕ := if i < 0 then (length + i).toNat else i.toNat

/-- `lines.slice(start, stop)` -/
def slice (lines : List Str) (start stop : ℤ) : List Str :=
  (lines.drop (sliceIndex lines.length start)).take
    (sliceIndex lines.length stop - sliceIndex lines.length start)

/-- `for (let i = start; i < length; i++)` that ends with the first `i` that passes a check,
for `n` values of `i`. -/
def scan (check : ℤ → Bool) : ℕ → ℤ → Option ℤ
  | 0, _ => none
  | n + 1, i => if check i then some i else scan check n (i + 1)

structure ContextMatch where
  line : ℤ
  fuzz : Fuzz
  indent : Option Str
  deriving DecidableEq, Repr

/-- What `find_context_core` comes to; a line past either end of the list is not there to read
from. -/
inductive Outcome
  | throws
  | notFound
  | found (result : ContextMatch)
  deriving DecidableEq, Repr

/-- The first line where consecutive lines are the text of the context. -/
def findText (workingLines : List Str) (start : ℤ) (count : ℕ) (context : Str) : Option ℤ :=
  scan (fun i => join (slice workingLines i (i + count)) = context)
    (workingLines.length - start).toNat start

section EditDistance

variable (computeLevenshteinDistance : Str → Str → ℕ) (maxDistance : ℕ)

/-- The loop over `j`, for the lines from `i` on; none where it reads past the last one. -/
def totalDistance : List Str → List Str → ℕ → Option ℕ
  | _, [], total => some total
  | workingLines, contextLine :: context, total =>
    if total < maxDistance then
      match workingLines with
      | [] => none
      | line :: workingLines =>
        totalDistance workingLines context (total + computeLevenshteinDistance line contextLine)
    else some total

/-- The loop over `i` of the last pass. -/
def findDistance (context : List Str) (fuzz : Fuzz) : ℕ → List Str → Outcome
  | _, [] => .notFound
  | i, line :: workingLines =>
    match totalDistance computeLevenshteinDistance maxDistance (line :: workingLines) context 0 with
    | none => .throws
    | some total =>
      if total ≤ maxDistance then .found ⟨i, fuzz, none⟩
      else findDistance context fuzz (i + 1) workingLines

end EditDistance

/-- `Math.floor(context.length * EDIT_DISTANCE_ALLOWANCE_PER_LINE)` -/
def maxDistanceFor (contextLength : ℕ) : ℕ := contextLength * 34 / 100

section FindContext

variable (canon : Line → Line) (computeLevenshteinDistance : Str → Str → ℕ)

/-- From pass 2 on the lines from `start` on are trimmed in place. -/
def trimFrom (start : ℕ) (f : Str → Str) (workingLines : List Str) : List Str :=
  workingLines.take start ++ (workingLines.drop start).map f

/-- Pass 5 and the pass with edit distances. -/
def findTrimmed (contextLength : ℕ) (ctxPass3 : Str) (fuzz : Fuzz) (workingLines : List Str)
    (start : ℕ) : Outcome :=
  let ctxPass5 := join ((split ctxPass3).map trim)
  let fuzz := fuzz ||| Fuzz.IgnoredWhitespace
  let workingLines := trimFrom start trimStart workingLines
  match findText workingLines start contextLength ctxPass5 with
  | some i => .found ⟨i, fuzz, workingLines[i.toNat]?⟩
  | none =>
    let maxDistance := maxDistanceFor contextLength
    let fuzz := fuzz ||| Fuzz.EditDistanceMatch
    if maxDistance > 0 then
      findDistance computeLevenshteinDistance maxDistance (split ctxPass5) fuzz start
        (workingLines.drop start)
    else .notFound

/-- Pass 4, for a context of one line. -/
def findExplicitNl (contextLength : ℕ) (ctxPass3 : Str) (fuzz : Fuzz) (workingLines : List Str)
    (start : ℕ) : Option ContextMatch :=
  let ctxPass4 := replaceExplicitNl ctxPass3
  if contextLength = 1 ∧ ctxPass4 ≠ ctxPass3 then
    (findText workingLines start (ctxPass4.count LineFeed + 1) ctxPass4).map fun i =>
      ⟨i, fuzz ||| Fuzz.NormalizedExplicitNL ||| Fuzz.NormalizedExplicitTab, none⟩
  else none

/-- `find_context_core`. `canon` treats every line by itself. -/
def findContextCore (lines context : List Line) (start : ℤ) : Outcome :=
  if context.isEmpty then .found ⟨start, Fuzz.None, none⟩
  else
    let ctxPass1 := join (context.map fun l => (canon l).text)
    let workingLines := lines.map fun l => (canon l).text
    match findText workingLines start context.length ctxPass1 with
    | some i => .found ⟨i, Fuzz.None, none⟩
    | none =>
      let ctxPass2 := join ((split ctxPass1).map trimEnd)
      let fuzz := Fuzz.IgnoredTrailingWhitespace
      -- `workingLines[i].trimEnd()` for a negative `i`
      if start < 0 then .throws
      else
        let workingLines := trimFrom start.toNat trimEnd workingLines
        match findText workingLines start context.length ctxPass2 with
        | some i => .found ⟨i, fuzz, none⟩
        | none =>
          let ctxPass3 := replaceExplicitTabs ctxPass2
          let fuzz' := if ctxPass3 ≠ ctxPass2 then fuzz ||| Fuzz.NormalizedExplicitTab else fuzz
          let pass3 :=
            if ctxPass3 ≠ ctxPass2 then findText workingLines start context.length ctxPass3
            else none
          match pass3 with
          | some i => .found ⟨i, fuzz', none⟩
          | none =>
            match findExplicitNl context.length ctxPass3 fuzz' workingLines start.toNat with
            | some result => .found result
            | none => findTrimmed computeLevenshteinDistance context.length ctxPass3 fuzz'
                workingLines start.toNat

end FindContext

section Lines

variable {s : Str} {lines ws : List Str}

theorem split_ne_nil (s : Str) : split s ≠ [] := List.splitOn_ne_nil LineFeed s

theorem split_join (h : ∀ l ∈ lines, LineFeed ∉ l) (hne : lines ≠ []) :
    split (join lines) = lines := List.splitOn_intercalate LineFeed h hne

theorem join_split (s : Str) : join (split s) = s := List.intercalate_splitOn LineFeed

theorem length_split (s : Str) : (split s).length = s.count LineFeed + 1 := by
  unfold split
  induction s with
  | nil => rfl
  | cons c s ih =>
    rw [List.splitOn_cons_eq_if_modifyHead, List.count_cons]
    split_ifs
    · rw [List.length_cons, ih]
    · rw [List.length_modifyHead, ih]

theorem lineFeed_not_mem_split (s : Str) : ∀ l ∈ split s, LineFeed ∉ l := by
  unfold split
  induction s with
  | nil => simp
  | cons c s ih =>
    rw [List.splitOn_cons_eq_if_modifyHead]
    split_ifs with hc
    · rw [List.forall_mem_cons]
      exact ⟨List.not_mem_nil, ih⟩
    · obtain ⟨l, ls, hls⟩ := List.exists_cons_of_ne_nil (List.splitOn_ne_nil LineFeed s)
      rw [hls] at ih ⊢
      rw [List.forall_mem_cons] at ih
      rw [List.modifyHead_cons, List.forall_mem_cons]
      refine ⟨?_, ih.2⟩
      rw [List.mem_cons, not_or]
      exact ⟨fun h => hc (by simp [h]), ih.1⟩

theorem lineFeed_not_mem_trimEnd (h : LineFeed ∉ s) : LineFeed ∉ trimEnd s :=
  fun hmem => h ((List.rdropWhile_prefix ..).subset hmem)

theorem lineFeed_not_mem_trimStart (h : LineFeed ∉ s) : LineFeed ∉ trimStart s :=
  fun hmem => h ((List.dropWhile_sublist ..).subset hmem)

theorem count_replaceExplicitTabs (s : Str) :
    (replaceExplicitTabs s).count LineFeed = s.count LineFeed := by
  unfold replaceExplicitTabs
  generalize true = leading
  fun_induction replaceExplicitTabsFrom leading s with
  | case1 => rfl
  | case2 => rfl
  | case3 c d rest h ih =>
    obtain ⟨rfl, rfl⟩ := h
    rw [List.count_cons_of_ne (by decide), List.count_cons_of_ne (by decide),
      List.count_cons_of_ne (by decide), ih]
  | case4 c d rest h ih => rw [List.count_cons, ih, ← List.count_cons]
  | case5 leading c d rest h ih => rw [List.count_cons, ih, ← List.count_cons]

/-- The lines of a joined text that is changed line by line. -/
theorem split_join_map {f : Str → Str} (hf : ∀ l, LineFeed ∉ l → LineFeed ∉ f l) (s : Str) :
    split (join ((split s).map f)) = (split s).map f := by
  apply split_join
  · rw [List.forall_mem_map]
    exact fun l hl => hf l (lineFeed_not_mem_split s l hl)
  · rw [ne_eq, List.map_eq_nil_iff]
    exact split_ne_nil s

end Lines

section Scan

theorem scan_eq_some {check : ℤ → Bool} {n : ℕ} {start i : ℤ} (h : scan check n start = some i) :
    start ≤ i ∧ i < start + n ∧ check i = true := by
  induction n generalizing start with
  | zero => cases h
  | succ n ih =>
    unfold scan at h
    split_ifs at h with hcheck
    · cases h
      exact ⟨le_rfl, by omega, hcheck⟩
    · obtain ⟨h1, h2, h3⟩ := ih h
      exact ⟨by omega, by omega, h3⟩

theorem scan_eq_none {check : ℤ → Bool} {n : ℕ} {start : ℤ} (h : scan check n start = none)
    {i : ℤ} (hle : start ≤ i) (hlt : i < start + n) : check i = false := by
  induction n generalizing start with
  | zero => omega
  | succ n ih =>
    unfold scan at h
    split_ifs at h with hcheck
    by_cases heq : i = start
    · rw [heq]
      exact Bool.eq_false_iff.mpr hcheck
    · exact ih h (by omega) (by omega)

theorem slice_natCast (ws : List Str) (i count : ℕ) :
    slice ws i ((i : ℤ) + count) = (ws.drop i).take count := by
  unfold slice sliceIndex
  rw [if_neg (by omega), if_neg (by omega)]
  congr 1
  omega

variable {ws : List Str} {context : Str} {start count : ℕ}

/-- A text stands in the lines from some place on when its lines do. -/
theorem join_take_eq_iff (hws : ∀ l ∈ ws, LineFeed ∉ l) (hcount : (split context).length = count)
    {i : ℕ} (hi : i < ws.length) :
    join ((ws.drop i).take count) = context ↔ split context <+: ws.drop i := by
  have hne : (ws.drop i).take count ≠ [] := by
    rw [← List.length_pos_iff, List.length_take, List.length_drop]
    have := List.length_pos_iff.mpr (split_ne_nil context)
    omega
  have hbreak : ∀ l ∈ (ws.drop i).take count, LineFeed ∉ l := fun l hl =>
    hws l (List.mem_of_mem_drop (List.mem_of_mem_take hl))
  rw [List.prefix_iff_eq_take, hcount]
  constructor
  · intro h
    rw [← split_join hbreak hne, h]
  · intro h
    rw [← h, join_split]

theorem findText_eq_some (hws : ∀ l ∈ ws, LineFeed ∉ l) (hcount : (split context).length = count)
    {i : ℤ} (h : findText ws start count context = some i) :
    ∃ j : ℕ, i = j ∧ start ≤ j ∧ split context <+: ws.drop j := by
  obtain ⟨hle, hlt, hcheck⟩ := scan_eq_some h
  obtain ⟨j, rfl⟩ := Int.eq_ofNat_of_zero_le (by omega : 0 ≤ i)
  rw [decide_eq_true_iff, slice_natCast] at hcheck
  exact ⟨j, rfl, by omega, (join_take_eq_iff hws hcount (by omega)).mp hcheck⟩

theorem findText_eq_none (hws : ∀ l ∈ ws, LineFeed ∉ l) (hcount : (split context).length = count)
    (h : findText ws start count context = none) {j : ℕ} (hj : start ≤ j) :
    ¬ split context <+: ws.drop j := by
  intro hprefix
  have hlength := hprefix.length_le
  have hpos := List.length_pos_iff.mpr (split_ne_nil context)
  rw [List.length_drop] at hlength
  have hcheck := scan_eq_none h (i := j) (by omega) (by omega)
  rw [decide_eq_false_iff_not, slice_natCast] at hcheck
  exact hcheck ((join_take_eq_iff hws hcount (by omega)).mpr hprefix)

end Scan

section EditDistance

variable {computeLevenshteinDistance : Str → Str → ℕ} {maxDistance : ℕ} {ws context : List Str}
  {total : ℕ}

/-- The distances between lines and those of a context, as far as there are lines. -/
def distances (computeLevenshteinDistance : Str → Str → ℕ) (ws context : List Str) : List ℕ :=
  List.zipWith computeLevenshteinDistance ws context

/-- A sum of distances that passes the limit without reaching it first. -/
def Overshoots (maxDistance total : ℕ) (ds : List ℕ) : Prop :=
  ∃ k < ds.length, total + (ds.take k).sum < maxDistance ∧
    maxDistance < total + (ds.take (k + 1)).sum

theorem overshoots_cons {d : ℕ} {ds : List ℕ} : Overshoots maxDistance total (d :: ds) ↔
    total < maxDistance ∧ maxDistance < total + d ∨ Overshoots maxDistance (total + d) ds := by
  constructor
  · rintro ⟨k, hk, hbelow, habove⟩
    cases k with
    | zero => exact .inl ⟨by simpa using hbelow, by simpa using habove⟩
    | succ k =>
      rw [List.take_succ_cons, List.sum_cons, ← add_assoc] at hbelow habove
      exact .inr ⟨k, by simpa using hk, hbelow, habove⟩
  · rintro (⟨hbelow, habove⟩ | ⟨k, hk, hbelow, habove⟩)
    · exact ⟨0, by simp, by simpa using hbelow, by simpa using habove⟩
    · refine ⟨k + 1, by simpa using hk, ?_, ?_⟩
      · rw [List.take_succ_cons, List.sum_cons, ← add_assoc]
        exact hbelow
      · rw [List.take_succ_cons, List.sum_cons, ← add_assoc]
        exact habove

@[simp] theorem totalDistance_nil :
    totalDistance computeLevenshteinDistance maxDistance ws [] total = some total := by
  cases ws <;> rfl

theorem totalDistance_of_le (hle : maxDistance ≤ total) :
    totalDistance computeLevenshteinDistance maxDistance ws context total = some total := by
  cases context with
  | nil => exact totalDistance_nil
  | cons c context =>
    unfold totalDistance
    rw [if_neg (not_lt.mpr hle)]

/-- The loop rejects a line exactly when the distances overshoot. -/
theorem totalDistance_rejects (hle : total ≤ maxDistance) :
    (∃ t, totalDistance computeLevenshteinDistance maxDistance ws context total = some t ∧
        maxDistance < t) ↔
      Overshoots maxDistance total (distances computeLevenshteinDistance ws context) := by
  induction context generalizing ws total with
  | nil =>
    have hds : distances computeLevenshteinDistance ws [] = [] := List.zipWith_nil_right
    constructor
    · rintro ⟨t, ht, hlt⟩
      rw [totalDistance_nil] at ht
      cases ht
      omega
    · rintro ⟨k, hk, -⟩
      rw [hds] at hk
      exact absurd hk (Nat.not_lt_zero k)
  | cons c context ih =>
    rcases hle.lt_or_eq with hlt | rfl
    · cases ws with
      | nil =>
        have hnone : totalDistance computeLevenshteinDistance maxDistance [] (c :: context) total =
            none := by
          unfold totalDistance
          rw [if_pos hlt]
        constructor
        · rintro ⟨t, ht, -⟩
          cases hnone.symm.trans ht
        · rintro ⟨k, hk, -⟩
          exact absurd hk (Nat.not_lt_zero k)
      | cons w ws =>
        have hds : distances computeLevenshteinDistance (w :: ws) (c :: context) =
            computeLevenshteinDistance w c :: distances computeLevenshteinDistance ws context := rfl
        rw [hds, overshoots_cons]
        unfold totalDistance
        rw [if_pos hlt]
        dsimp only
        by_cases hnext : total + computeLevenshteinDistance w c ≤ maxDistance
        · rw [ih hnext]
          constructor
          · exact .inr
          · rintro (⟨-, h⟩ | h)
            · omega
            · exact h
        · rw [totalDistance_of_le (by omega)]
          exact ⟨fun _ => .inl ⟨hlt, by omega⟩, fun _ => ⟨_, rfl, by omega⟩⟩
    · rw [totalDistance_of_le le_rfl]
      constructor
      · rintro ⟨t, ht, hlt⟩
        cases ht
        omega
      · rintro ⟨k, -, hbelow, -⟩
        omega

/-- Where there are enough lines and the whole sum keeps to the limit, the loop accepts. -/
theorem totalDistance_accepts (hlength : context.length ≤ ws.length)
    (hsum : total + (distances computeLevenshteinDistance ws context).sum ≤ maxDistance) :
    ∃ t ≤ maxDistance,
      totalDistance computeLevenshteinDistance maxDistance ws context total = some t := by
  induction context generalizing ws total with
  | nil => exact ⟨total, by omega, totalDistance_nil⟩
  | cons c context ih =>
    cases ws with
    | nil => simp at hlength
    | cons w ws =>
      have hds : distances computeLevenshteinDistance (w :: ws) (c :: context) =
          computeLevenshteinDistance w c :: distances computeLevenshteinDistance ws context := rfl
      rw [hds, List.sum_cons, ← add_assoc] at hsum
      unfold totalDistance
      split_ifs
      · exact ih (by simpa using hlength) hsum
      · exact ⟨total, by omega, rfl⟩

/-- The line that is accepted is right: enough lines follow, and all distances count. -/
def Complete (maxDistance : ℕ) (ds : List ℕ) (contextLength : ℕ) : Prop :=
  ds.length = contextLength ∧ ds.sum ≤ maxDistance

/-- The pass ends well when the first line that is not rejected is one to accept. -/
def AcceptsRight (computeLevenshteinDistance : Str → Str → ℕ) (maxDistance : ℕ)
    (ws context : List Str) : Prop :=
  ∀ i < ws.length,
    (∀ j < i, Overshoots maxDistance 0 (distances computeLevenshteinDistance (ws.drop j) context)) →
    Overshoots maxDistance 0 (distances computeLevenshteinDistance (ws.drop i) context) ∨
      Complete maxDistance (distances computeLevenshteinDistance (ws.drop i) context) context.length

theorem length_distances : (distances computeLevenshteinDistance ws context).length =
    min ws.length context.length := List.length_zipWith

theorem acceptsRight_of_overshoots {w : Str}
    (h : Overshoots maxDistance 0 (distances computeLevenshteinDistance (w :: ws) context)) :
    AcceptsRight computeLevenshteinDistance maxDistance (w :: ws) context ↔
      AcceptsRight computeLevenshteinDistance maxDistance ws context := by
  constructor
  · intro hright i hi hbefore
    apply hright (i + 1) (by simpa using hi)
    intro j hj
    cases j with
    | zero => exact h
    | succ j => exact hbefore j (by omega)
  · intro hright i hi hbefore
    cases i with
    | zero => exact .inl h
    | succ i => exact hright i (by simpa using hi) fun j hj => hbefore (j + 1) (by omega)

theorem acceptsRight_of_not_overshoots {w : Str}
    (h : ¬ Overshoots maxDistance 0 (distances computeLevenshteinDistance (w :: ws) context)) :
    AcceptsRight computeLevenshteinDistance maxDistance (w :: ws) context ↔
      Complete maxDistance (distances computeLevenshteinDistance (w :: ws) context)
        context.length := by
  constructor
  · intro hright
    exact (hright 0 (by simp) fun j hj => absurd hj (Nat.not_lt_zero j)).resolve_left h
  · intro hcomplete i hi hbefore
    cases i with
    | zero => exact .inr hcomplete
    | succ i => exact absurd (hbefore 0 (Nat.succ_pos i)) h

/-- Nothing is thrown, and what is found has a property. -/
def Outcome.Satisfies (P : ContextMatch → Prop) : Outcome → Prop
  | .throws => False
  | .notFound => True
  | .found result => P result

/-- The pass neither throws nor accepts a wrong line exactly when the first line it does not
reject is one to accept. -/
theorem findDistance_satisfies_iff {P : ContextMatch → Prop} {fuzz : Fuzz} {start : ℕ}
    (hP : ∀ i < ws.length, P ⟨(start + i : ℕ), fuzz, none⟩ ↔ Complete maxDistance
      (distances computeLevenshteinDistance (ws.drop i) context) context.length) :
    (findDistance computeLevenshteinDistance maxDistance context fuzz start ws).Satisfies P ↔
      AcceptsRight computeLevenshteinDistance maxDistance ws context := by
  induction ws generalizing start with
  | nil => exact ⟨fun _ i hi => absurd hi (Nat.not_lt_zero i), fun _ => trivial⟩
  | cons w ws ih =>
    have hrejects := @totalDistance_rejects computeLevenshteinDistance maxDistance (w :: ws)
      context 0 (Nat.zero_le maxDistance)
    have hzero := hP 0 (by simp)
    rw [List.drop_zero, Nat.add_zero] at hzero
    unfold findDistance
    by_cases hover : Overshoots maxDistance 0
        (distances computeLevenshteinDistance (w :: ws) context)
    · obtain ⟨t, ht, hlt⟩ := hrejects.mpr hover
      rw [ht, acceptsRight_of_overshoots hover]
      dsimp only
      rw [if_neg (not_le.mpr hlt)]
      apply ih
      intro i hi
      have hnext := hP (i + 1) (by simpa using hi)
      rw [List.drop_succ_cons] at hnext
      rw [← hnext]
      congr! 3
      omega
    · rw [acceptsRight_of_not_overshoots hover, ← hzero]
      cases htotal : totalDistance computeLevenshteinDistance maxDistance (w :: ws) context 0 with
      | none =>
        rw [hzero]
        refine ⟨fun h => h.elim, fun h => ?_⟩
        -- with enough lines nothing is read past the last one
        have hlength : context.length ≤ (w :: ws).length := by
          have hlen := h.1
          rw [length_distances] at hlen
          omega
        obtain ⟨t, -, ht⟩ := totalDistance_accepts hlength ((zero_add _).trans_le h.2)
        cases ht.symm.trans htotal
      | some t =>
        have ht : t ≤ maxDistance := by
          by_contra hgt
          exact hover (hrejects.mp ⟨t, htotal, not_le.mp hgt⟩)
        dsimp only
        rw [if_pos ht]
        exact .rfl

end EditDistance

section Passes

variable (canon : Line → Line) (computeLevenshteinDistance : Str → Str → ℕ)

/-- A line of the file under the differences the flags forgive. -/
def normaliseLine (fuzz : Fuzz) (l : Line) : Str :=
  let s := (canon l).text
  let s := if fuzz.has Fuzz.IgnoredTrailingWhitespace then trimEnd s else s
  if fuzz.has Fuzz.IgnoredWhitespace then trimStart s else s

/-- The context under the differences the flags forgive. -/
def normaliseContext (fuzz : Fuzz) (context : List Line) : Str :=
  let s := join (context.map fun l => (canon l).text)
  let s := if fuzz.has Fuzz.IgnoredTrailingWhitespace then join ((split s).map trimEnd) else s
  let s := if fuzz.has Fuzz.NormalizedExplicitTab then replaceExplicitTabs s else s
  let s := if fuzz.has Fuzz.NormalizedExplicitNL then replaceExplicitNl s else s
  if fuzz.has Fuzz.IgnoredWhitespace then join ((split s).map trim) else s

/-- The lines from `i` on are those of the context. -/
def MatchesAt (lines context : List Line) (fuzz : Fuzz) (i : ℕ) : Prop :=
  split (normaliseContext canon fuzz context) <+: (lines.map (normaliseLine canon fuzz)).drop i

/-- The distances of the last pass, for the context from line `i` on. -/
def distancesAt (lines context : List Line) (fuzz : Fuzz) (i : ℕ) : List ℕ :=
  distances computeLevenshteinDistance ((lines.map (normaliseLine canon fuzz)).drop i)
    (split (normaliseContext canon fuzz context))

/-- The match lies in the file, and the lines there are the context as far as its flags say. -/
def RightMatch (lines context : List Line) (result : ContextMatch) : Prop :=
  ∃ i : ℕ, result.line = i ∧ i + context.length ≤ lines.length ∧
    if result.fuzz.has Fuzz.EditDistanceMatch then
      (distancesAt canon computeLevenshteinDistance lines context result.fuzz i).sum ≤
        maxDistanceFor context.length
    else MatchesAt canon lines context result.fuzz i

/-- The flags of the passes before the one with edit distances. -/
def earlierPasses (contextLength : ℕ) : List Fuzz :=
  [Fuzz.None, Fuzz.IgnoredTrailingWhitespace,
    Fuzz.IgnoredTrailingWhitespace ||| Fuzz.NormalizedExplicitTab,
    Fuzz.IgnoredTrailingWhitespace ||| Fuzz.NormalizedExplicitTab ||| Fuzz.IgnoredWhitespace] ++
  if contextLength = 1 then
    [Fuzz.IgnoredTrailingWhitespace ||| Fuzz.NormalizedExplicitTab ||| Fuzz.NormalizedExplicitNL]
  else []

/-- The flags of the pass with edit distances. -/
def lastPass : Fuzz :=
  Fuzz.IgnoredTrailingWhitespace ||| Fuzz.NormalizedExplicitTab ||| Fuzz.IgnoredWhitespace |||
    Fuzz.EditDistanceMatch

variable {canon computeLevenshteinDistance} {lines context : List Line} {start : ℕ}

theorem split_canon (hne : context ≠ []) :
    split (join (context.map fun l => (canon l).text)) = context.map fun l => (canon l).text := by
  apply split_join
  · rw [List.forall_mem_map]
    exact fun l _ => (canon l).no_break
  · rw [ne_eq, List.map_eq_nil_iff]
    exact hne

/-- Without written out line breaks the context keeps its number of lines. -/
theorem length_normaliseContext (hne : context ≠ []) {fuzz : Fuzz}
    (hnl : fuzz.has Fuzz.NormalizedExplicitNL = false) :
    (split (normaliseContext canon fuzz context)).length = context.length := by
  have hcanon : (split (join (context.map fun l => (canon l).text))).length = context.length := by
    rw [split_canon hne, List.length_map]
  have hmap : ∀ (f : Str → Str) (hf : ∀ l, LineFeed ∉ l → LineFeed ∉ f l) (s : Str),
      (split (join ((split s).map f))).length = (split s).length := by
    intro f hf s
    rw [split_join_map hf, List.length_map]
  have htrim : ∀ l, LineFeed ∉ l → LineFeed ∉ trim l :=
    fun l h => lineFeed_not_mem_trimStart (lineFeed_not_mem_trimEnd h)
  have htabs : ∀ s, (split (replaceExplicitTabs s)).length = (split s).length := by
    intro s
    rw [length_split, length_split, count_replaceExplicitTabs]
  unfold normaliseContext
  dsimp only
  rw [hnl, if_neg Bool.false_ne_true]
  have htrimEnd := fun s => hmap trimEnd (fun l => lineFeed_not_mem_trimEnd) s
  split_ifs <;> simp only [hmap trim htrim, htabs, htrimEnd, hcanon]

theorem trimFrom_drop (f : Str → Str) (ws : List Str) {j : ℕ} (hj : start ≤ j) :
    (trimFrom start f ws).drop j = (ws.map f).drop j := by
  unfold trimFrom
  by_cases hlen : start ≤ ws.length
  · rw [List.drop_append, List.length_take, min_eq_left hlen, ← List.map_drop, List.drop_drop,
      List.drop_of_length_le (by rw [List.length_take]; omega), List.nil_append, List.map_drop]
    congr 1
    omega
  · rw [List.drop_of_length_le (by simp; omega), List.drop_of_length_le (by simp; omega)]

theorem lineFeed_not_mem_trimFrom {f : Str → Str} (hf : ∀ l, LineFeed ∉ l → LineFeed ∉ f l)
    {ws : List Str} (hws : ∀ l ∈ ws, LineFeed ∉ l) : ∀ l ∈ trimFrom start f ws, LineFeed ∉ l := by
  unfold trimFrom
  rw [List.forall_mem_append, List.forall_mem_map]
  exact ⟨fun l hl => hws l (List.mem_of_mem_take hl),
    fun l hl => hf l (hws l (List.mem_of_mem_drop hl))⟩

/-- Lines that are right from a line on for a pass. -/
structure WorkingLines (canon : Line → Line) (lines : List Line) (fuzz : Fuzz) (start : ℕ)
    (ws : List Str) : Prop where
  no_break : ∀ l ∈ ws, LineFeed ∉ l
  drop : ∀ j, start ≤ j → ws.drop j = (lines.map (normaliseLine canon fuzz)).drop j

theorem workingLines_none (canon : Line → Line) (lines : List Line) (start : ℕ) :
    WorkingLines canon lines Fuzz.None start (lines.map fun l => (canon l).text) where
  no_break := by
    rw [List.forall_mem_map]
    exact fun l _ => (canon l).no_break
  drop _ _ := rfl

theorem WorkingLines.trimEnd {ws : List Str} (h : WorkingLines canon lines Fuzz.None start ws) :
    WorkingLines canon lines Fuzz.IgnoredTrailingWhitespace start
      (trimFrom start ApplyPatch.trimEnd ws) where
  no_break := lineFeed_not_mem_trimFrom (fun _ => lineFeed_not_mem_trimEnd) h.no_break
  drop j hj := by
    rw [trimFrom_drop _ _ hj, List.map_drop.symm, h.drop j hj, ← List.map_drop, ← List.map_drop,
      List.map_map]
    rfl

theorem WorkingLines.trimStart {ws : List Str}
    (h : WorkingLines canon lines Fuzz.IgnoredTrailingWhitespace start ws) :
    WorkingLines canon lines lastPass start (trimFrom start ApplyPatch.trimStart ws) where
  no_break := lineFeed_not_mem_trimFrom (fun _ => lineFeed_not_mem_trimStart) h.no_break
  drop j hj := by
    rw [trimFrom_drop _ _ hj, ← List.map_drop, h.drop j hj, ← List.map_drop, ← List.map_drop,
      List.map_map]
    rfl

/-- Flags that a line does not ask do not matter. -/
theorem WorkingLines.congr {ws : List Str} {fuzz fuzz' : Fuzz}
    (h : WorkingLines canon lines fuzz start ws)
    (hline : normaliseLine canon fuzz' = normaliseLine canon fuzz) :
    WorkingLines canon lines fuzz' start ws := by
  refine ⟨h.no_break, ?_⟩
  rw [hline]
  exact h.drop

/-- What a pass that compares texts finds is right. -/
theorem WorkingLines.rightMatch {ws : List Str} {fuzz : Fuzz} {count : ℕ} {i : ℤ}
    (h : WorkingLines canon lines fuzz start ws)
    (hcount : (split (normaliseContext canon fuzz context)).length = count)
    (hlength : context.length ≤ count) (hfuzz : fuzz.has Fuzz.EditDistanceMatch = false)
    (hfind : findText ws start count (normaliseContext canon fuzz context) = some i)
    (indent : Option Str) :
    RightMatch canon computeLevenshteinDistance lines context ⟨i, fuzz, indent⟩ ∧
      ∃ j ≥ start, MatchesAt canon lines context fuzz j := by
  obtain ⟨j, rfl, hj, hprefix⟩ := findText_eq_some h.no_break hcount hfind
  rw [h.drop j hj] at hprefix
  refine ⟨⟨j, rfl, ?_, ?_⟩, j, hj, hprefix⟩
  · have hle := hprefix.length_le
    rw [List.length_drop, List.length_map, hcount] at hle
    have := List.length_pos_iff.mpr (split_ne_nil (normaliseContext canon fuzz context))
    omega
  · dsimp only
    rw [hfuzz, if_neg Bool.false_ne_true]
    exact hprefix

theorem WorkingLines.not_matchesAt {ws : List Str} {fuzz : Fuzz} {count : ℕ}
    (h : WorkingLines canon lines fuzz start ws)
    (hcount : (split (normaliseContext canon fuzz context)).length = count)
    (hfind : findText ws start count (normaliseContext canon fuzz context) = none) {j : ℕ}
    (hj : start ≤ j) : ¬ MatchesAt canon lines context fuzz j := by
  unfold MatchesAt
  rw [← h.drop j hj]
  exact findText_eq_none h.no_break hcount hfind hj

/-- With a negative start, which is that of a context longer than the file, what is found lies
in front of the file. -/
theorem not_rightMatch_of_neg (hne : context ≠ [])
    (hlt : lines.length < context.length) {i : ℤ} {first : ℤ}
    (hfind : findText (lines.map fun l => (canon l).text) first context.length
      (normaliseContext canon Fuzz.None context) = some i) :
    i < 0 := by
  obtain ⟨hfirst, hi, hcheck⟩ := scan_eq_some hfind
  by_contra hnonneg
  obtain ⟨j, rfl⟩ := Int.eq_ofNat_of_zero_le (not_lt.mp hnonneg)
  have hw := workingLines_none canon lines 0
  rw [decide_eq_true_iff, slice_natCast] at hcheck
  have hcount : (split (normaliseContext canon Fuzz.None context)).length = context.length :=
    length_normaliseContext hne rfl
  rw [List.length_map] at hi
  have hprefix := (join_take_eq_iff hw.no_break hcount (by rw [List.length_map]; omega)).mp hcheck
  have hle := hprefix.length_le
  rw [hcount, List.length_drop, List.length_map] at hle
  omega

/-- When the pass with edit distances, if the code gets to it, is right. -/
def LastPassRight (canon : Line → Line) (computeLevenshteinDistance : Str → Str → ℕ)
    (lines context : List Line) (start : ℕ) : Prop :=
  0 < maxDistanceFor context.length →
    (∀ fuzz ∈ earlierPasses context.length, ∀ i ≥ start,
      ¬ MatchesAt canon lines context fuzz i) →
    AcceptsRight computeLevenshteinDistance (maxDistanceFor context.length)
      ((lines.map (normaliseLine canon lastPass)).drop start)
      (split (normaliseContext canon lastPass context))

theorem LastPassRight.of_matchesAt {fuzz : Fuzz} (hfuzz : fuzz ∈ earlierPasses context.length)
    (h : ∃ j ≥ start, MatchesAt canon lines context fuzz j) :
    LastPassRight canon computeLevenshteinDistance lines context start := by
  intro _ hnone
  obtain ⟨j, hj, hmatch⟩ := h
  exact absurd hmatch (hnone fuzz hfuzz j hj)

/-- Pass 5 and the pass with edit distances, when nothing was found before. -/
theorem findTrimmed_satisfies_iff (hne : context ≠ []) {fuzz : Fuzz} {ws : List Str}
    (hws : WorkingLines canon lines Fuzz.IgnoredTrailingWhitespace start ws)
    (hfuzz : fuzz = Fuzz.IgnoredTrailingWhitespace ∧
        replaceExplicitTabs (normaliseContext canon Fuzz.IgnoredTrailingWhitespace context) =
          normaliseContext canon Fuzz.IgnoredTrailingWhitespace context ∨
      fuzz = Fuzz.IgnoredTrailingWhitespace ||| Fuzz.NormalizedExplicitTab)
    (hnone : ∀ fuzz ∈ earlierPasses context.length,
      fuzz.has Fuzz.IgnoredWhitespace = false → ∀ j ≥ start, ¬ MatchesAt canon lines context fuzz j) :
    (findTrimmed computeLevenshteinDistance context.length
        (replaceExplicitTabs (normaliseContext canon Fuzz.IgnoredTrailingWhitespace context)) fuzz ws
        start).Satisfies (RightMatch canon computeLevenshteinDistance lines context) ↔
      LastPassRight canon computeLevenshteinDistance lines context start := by
  -- the text of the context does not depend on the flag for tabs
  have hflags : ∀ flags : Fuzz, flags = fuzz ||| Fuzz.IgnoredWhitespace ∨
      flags = fuzz ||| Fuzz.IgnoredWhitespace ||| Fuzz.EditDistanceMatch →
      normaliseContext canon flags context = normaliseContext canon lastPass context ∧
        normaliseLine canon flags = normaliseLine canon lastPass := by
    rcases hfuzz with ⟨rfl, htabs⟩ | rfl
    · have htrim : join ((split (normaliseContext canon Fuzz.IgnoredTrailingWhitespace context)).map
          trim) = normaliseContext canon lastPass context := by
        rw [← htabs]
        rfl
      rintro flags (rfl | rfl)
      · exact ⟨htrim, rfl⟩
      · exact ⟨htrim, rfl⟩
    · rintro flags (rfl | rfl)
      · exact ⟨rfl, rfl⟩
      · exact ⟨rfl, rfl⟩
  obtain ⟨hcontext, hline⟩ := hflags _ (.inl rfl)
  obtain ⟨hcontext', hline'⟩ := hflags _ (.inr rfl)
  have hhas : (fuzz ||| Fuzz.IgnoredWhitespace).has Fuzz.EditDistanceMatch = false ∧
      (fuzz ||| Fuzz.IgnoredWhitespace ||| Fuzz.EditDistanceMatch).has Fuzz.EditDistanceMatch =
        true := by
    rcases hfuzz with ⟨rfl, -⟩ | rfl <;> exact ⟨rfl, rfl⟩
  have hcount : (split (normaliseContext canon lastPass context)).length = context.length :=
    length_normaliseContext hne rfl
  have htrimmed := hws.trimStart
  unfold findTrimmed
  dsimp only
  generalize htext : join ((split (replaceExplicitTabs (normaliseContext canon
    Fuzz.IgnoredTrailingWhitespace context))).map trim) = ctxPass5
  obtain rfl : normaliseContext canon lastPass context = ctxPass5 := htext
  cases hfind : findText (trimFrom start trimStart ws) start context.length
      (normaliseContext canon lastPass context) with
  | some i =>
    dsimp only
    rw [← hcontext] at hfind hcount
    have hright := fun indent => @WorkingLines.rightMatch canon computeLevenshteinDistance lines
      context start _ _ _ _ (htrimmed.congr hline) hcount le_rfl hhas.1 hfind indent
    obtain ⟨j, hj, hmatch⟩ := (hright none).2
    refine ⟨fun _ => ?_, fun _ => (hright _).1⟩
    have hearlier : Fuzz.IgnoredTrailingWhitespace ||| Fuzz.NormalizedExplicitTab |||
        Fuzz.IgnoredWhitespace ∈ earlierPasses context.length := by
      simp [earlierPasses]
    apply LastPassRight.of_matchesAt hearlier
    refine ⟨j, hj, ?_⟩
    unfold MatchesAt at hmatch
    rw [hcontext, hline] at hmatch
    exact hmatch
  | none =>
    dsimp only
    have hall : ∀ fuzz ∈ earlierPasses context.length, ∀ i ≥ start,
        ¬ MatchesAt canon lines context fuzz i := by
      intro flags hmem j hj
      cases hspace : flags.has Fuzz.IgnoredWhitespace with
      | false => exact hnone flags hmem hspace j hj
      | true =>
        have hlast : normaliseContext canon flags context = normaliseContext canon lastPass context ∧
            normaliseLine canon flags = normaliseLine canon lastPass := by
          unfold earlierPasses at hmem
          rw [List.mem_append] at hmem
          simp only [List.mem_cons, List.not_mem_nil, or_false] at hmem
          rcases hmem with (rfl | rfl | rfl | rfl) | hmem
          · cases hspace
          · cases hspace
          · cases hspace
          · exact ⟨rfl, rfl⟩
          · split_ifs at hmem
            · cases List.mem_singleton.mp hmem
              cases hspace
            · cases hmem
        unfold MatchesAt
        rw [hlast.1, hlast.2]
        exact htrimmed.not_matchesAt hcount hfind hj
    unfold LastPassRight
    by_cases hmax : 0 < maxDistanceFor context.length
    · have hiff := @findDistance_satisfies_iff computeLevenshteinDistance
        (maxDistanceFor context.length) ((trimFrom start trimStart ws).drop start)
        (split (normaliseContext canon lastPass context))
        (RightMatch canon computeLevenshteinDistance lines context)
        (fuzz ||| Fuzz.IgnoredWhitespace ||| Fuzz.EditDistanceMatch) start ?_
      · rw [if_pos hmax, hiff, htrimmed.drop start le_rfl]
        exact ⟨fun h _ _ => h, fun h => h hmax hall⟩
      · intro i hi
        rw [htrimmed.drop start le_rfl, List.length_drop, List.length_map] at hi
        rw [htrimmed.drop start le_rfl, List.drop_drop]
        unfold RightMatch Complete distancesAt
        dsimp only
        rw [length_distances, List.length_drop, List.length_map, hcount, hhas.2, hcontext', hline']
        simp only [↓reduceIte]
        constructor
        · rintro ⟨j, hj, hle, hsum⟩
          obtain rfl : start + i = j := by omega
          exact ⟨by omega, hsum⟩
        · rintro ⟨hlength, hsum⟩
          exact ⟨start + i, rfl, by omega, hsum⟩
    · rw [if_neg hmax]
      exact ⟨fun _ h => absurd h hmax, fun _ => trivial⟩

/-- Pass 4. -/
theorem findExplicitNl_spec {fuzz : Fuzz} {ws : List Str}
    (hws : WorkingLines canon lines Fuzz.IgnoredTrailingWhitespace start ws)
    (hfuzz : fuzz = Fuzz.IgnoredTrailingWhitespace ∨
      fuzz = Fuzz.IgnoredTrailingWhitespace ||| Fuzz.NormalizedExplicitTab)
    (hnone : ∀ j ≥ start, ¬ MatchesAt canon lines context
      (Fuzz.IgnoredTrailingWhitespace ||| Fuzz.NormalizedExplicitTab) j) :
    (∀ result, findExplicitNl context.length (replaceExplicitTabs (normaliseContext canon
        Fuzz.IgnoredTrailingWhitespace context)) fuzz ws start = some result →
      RightMatch canon computeLevenshteinDistance lines context result ∧ context.length = 1 ∧
        ∃ j ≥ start, MatchesAt canon lines context (Fuzz.IgnoredTrailingWhitespace |||
          Fuzz.NormalizedExplicitTab ||| Fuzz.NormalizedExplicitNL) j) ∧
    (findExplicitNl context.length (replaceExplicitTabs (normaliseContext canon
        Fuzz.IgnoredTrailingWhitespace context)) fuzz ws start = none → context.length = 1 →
      ∀ j ≥ start, ¬ MatchesAt canon lines context (Fuzz.IgnoredTrailingWhitespace |||
          Fuzz.NormalizedExplicitTab ||| Fuzz.NormalizedExplicitNL) j) := by
  have hflags : fuzz ||| Fuzz.NormalizedExplicitNL ||| Fuzz.NormalizedExplicitTab =
      Fuzz.IgnoredTrailingWhitespace ||| Fuzz.NormalizedExplicitTab |||
        Fuzz.NormalizedExplicitNL := by
    rcases hfuzz with rfl | rfl <;> rfl
  have hnl : WorkingLines canon lines (Fuzz.IgnoredTrailingWhitespace |||
      Fuzz.NormalizedExplicitTab ||| Fuzz.NormalizedExplicitNL) start ws := hws.congr rfl
  have hcount := length_split (normaliseContext canon (Fuzz.IgnoredTrailingWhitespace |||
    Fuzz.NormalizedExplicitTab ||| Fuzz.NormalizedExplicitNL) context)
  unfold findExplicitNl
  dsimp only
  rw [hflags]
  constructor
  · intro result hresult
    split_ifs at hresult with hone
    obtain ⟨i, hfind, rfl⟩ := Option.map_eq_some_iff.mp hresult
    obtain ⟨hright, hmatch⟩ := @WorkingLines.rightMatch canon computeLevenshteinDistance lines
      context start _ _ _ _ hnl hcount (by omega) rfl hfind none
    exact ⟨hright, hone.1, hmatch⟩
  · intro hresult hone j hj
    split_ifs at hresult with hdiffers
    · exact hnl.not_matchesAt hcount (Option.map_eq_none_iff.mp hresult) hj
    · have heq : normaliseContext canon (Fuzz.IgnoredTrailingWhitespace |||
          Fuzz.NormalizedExplicitTab ||| Fuzz.NormalizedExplicitNL) context = normaliseContext canon
            (Fuzz.IgnoredTrailingWhitespace ||| Fuzz.NormalizedExplicitTab) context :=
        not_not.mp fun h => hdiffers ⟨hone, h⟩
      intro hmatch
      unfold MatchesAt at hmatch
      rw [heq] at hmatch
      exact hnone j hj hmatch

/-- The passes from the fourth on. -/
theorem findExplicitNl_satisfies_iff (hne : context ≠ []) {fuzz : Fuzz} {ws : List Str}
    (hws : WorkingLines canon lines Fuzz.IgnoredTrailingWhitespace start ws)
    (hfuzz : fuzz = Fuzz.IgnoredTrailingWhitespace ∧
        replaceExplicitTabs (normaliseContext canon Fuzz.IgnoredTrailingWhitespace context) =
          normaliseContext canon Fuzz.IgnoredTrailingWhitespace context ∨
      fuzz = Fuzz.IgnoredTrailingWhitespace ||| Fuzz.NormalizedExplicitTab)
    (hnone : ∀ j ≥ start, ¬ MatchesAt canon lines context Fuzz.None j ∧
      ¬ MatchesAt canon lines context Fuzz.IgnoredTrailingWhitespace j ∧
      ¬ MatchesAt canon lines context
        (Fuzz.IgnoredTrailingWhitespace ||| Fuzz.NormalizedExplicitTab) j) :
    (match findExplicitNl context.length (replaceExplicitTabs
        (normaliseContext canon Fuzz.IgnoredTrailingWhitespace context)) fuzz ws start with
      | some result => Outcome.found result
      | none => findTrimmed computeLevenshteinDistance context.length (replaceExplicitTabs
          (normaliseContext canon Fuzz.IgnoredTrailingWhitespace context)) fuzz ws
          start).Satisfies (RightMatch canon computeLevenshteinDistance lines context) ↔
      LastPassRight canon computeLevenshteinDistance lines context start := by
  obtain ⟨hsome, hno⟩ := @findExplicitNl_spec canon computeLevenshteinDistance lines context start
    fuzz ws hws (hfuzz.imp_left And.left) fun j hj => (hnone j hj).2.2
  cases hfind : findExplicitNl context.length (replaceExplicitTabs
      (normaliseContext canon Fuzz.IgnoredTrailingWhitespace context)) fuzz ws start with
  | some result =>
    obtain ⟨hright, hone, hmatch⟩ := hsome result hfind
    exact ⟨fun _ => .of_matchesAt (by simp [earlierPasses, hone]) hmatch, fun _ => hright⟩
  | none =>
    apply findTrimmed_satisfies_iff hne hws hfuzz
    intro flags hmem hspace j hj
    unfold earlierPasses at hmem
    rw [List.mem_append] at hmem
    simp only [List.mem_cons, List.not_mem_nil, or_false] at hmem
    rcases hmem with (rfl | rfl | rfl | rfl) | hmem
    · exact (hnone j hj).1
    · exact (hnone j hj).2.1
    · exact (hnone j hj).2.2
    · cases hspace
    · split_ifs at hmem with hone
      · rw [List.mem_singleton.mp hmem]
        exact hno hfind hone j hj
      · cases hmem

/-- The passes before pass 5, and all of them for a start in the file. -/
theorem findContextCore_satisfies_iff_of_nonneg (hne : context ≠ []) :
    (findContextCore canon computeLevenshteinDistance lines context start).Satisfies
        (RightMatch canon computeLevenshteinDistance lines context) ↔
      LastPassRight canon computeLevenshteinDistance lines context start := by
  have hempty : context.isEmpty = false := by
    cases context with
    | nil => exact absurd rfl hne
    | cons => rfl
  have hcount : ∀ fuzz : Fuzz, fuzz.has Fuzz.NormalizedExplicitNL = false →
      (split (normaliseContext canon fuzz context)).length = context.length :=
    fun fuzz hnl => length_normaliseContext hne hnl
  have hfirst := workingLines_none canon lines start
  have htrimmed := hfirst.trimEnd
  have htabs : WorkingLines canon lines
      (Fuzz.IgnoredTrailingWhitespace ||| Fuzz.NormalizedExplicitTab) start _ := htrimmed.congr rfl
  -- a pass that finds something settles both sides
  have hfound : ∀ {ws : List Str} {fuzz : Fuzz} {i : ℤ} (count : ℕ),
      WorkingLines canon lines fuzz start ws → fuzz ∈ earlierPasses context.length →
      fuzz.has Fuzz.EditDistanceMatch = false → context.length ≤ count →
      (split (normaliseContext canon fuzz context)).length = count →
      findText ws start count (normaliseContext canon fuzz context) = some i →
      ((Outcome.found ⟨i, fuzz, none⟩).Satisfies
          (RightMatch canon computeLevenshteinDistance lines context) ↔
        LastPassRight canon computeLevenshteinDistance lines context start) := by
    intro ws fuzz i count hws hmem hfuzz hle hlength hfind
    obtain ⟨hright, hmatch⟩ := @WorkingLines.rightMatch canon computeLevenshteinDistance lines
      context start _ _ _ _ hws hlength hle hfuzz hfind none
    exact ⟨fun _ => .of_matchesAt hmem hmatch, fun _ => hright⟩
  have hcore : findContextCore canon computeLevenshteinDistance lines context start =
      match findText (lines.map fun l => (canon l).text) start context.length
        (normaliseContext canon Fuzz.None context) with
      | some i => .found ⟨i, Fuzz.None, none⟩
      | none =>
        let ws := trimFrom start trimEnd (lines.map fun l => (canon l).text)
        let ctxPass2 := normaliseContext canon Fuzz.IgnoredTrailingWhitespace context
        match findText ws start context.length ctxPass2 with
        | some i => .found ⟨i, Fuzz.IgnoredTrailingWhitespace, none⟩
        | none =>
          let fuzz := if replaceExplicitTabs ctxPass2 ≠ ctxPass2 then
              Fuzz.IgnoredTrailingWhitespace ||| Fuzz.NormalizedExplicitTab
            else Fuzz.IgnoredTrailingWhitespace
          match (if replaceExplicitTabs ctxPass2 ≠ ctxPass2 then
              findText ws start context.length (replaceExplicitTabs ctxPass2) else none) with
          | some i => .found ⟨i, fuzz, none⟩
          | none =>
            match findExplicitNl context.length (replaceExplicitTabs ctxPass2) fuzz ws start with
            | some result => .found result
            | none => findTrimmed computeLevenshteinDistance context.length
                (replaceExplicitTabs ctxPass2) fuzz ws start := by
    unfold findContextCore
    rw [hempty, if_neg Bool.false_ne_true]
    dsimp only
    rw [if_neg (by omega)]
    rfl
  rw [hcore]
  dsimp only
  generalize trimFrom start trimEnd (lines.map fun l => (canon l).text) = ws at htrimmed htabs ⊢
  cases h1 : findText (lines.map fun l => (canon l).text) start context.length
      (normaliseContext canon Fuzz.None context) with
  | some i => exact hfound _ hfirst (by simp [earlierPasses]) rfl le_rfl (hcount _ rfl) h1
  | none =>
  dsimp only
  cases h2 : findText ws start context.length
      (normaliseContext canon Fuzz.IgnoredTrailingWhitespace context) with
  | some i => exact hfound _ htrimmed (by simp [earlierPasses]) rfl le_rfl (hcount _ rfl) h2
  | none =>
  dsimp only
  have hnone1 := fun j => @WorkingLines.not_matchesAt canon lines context start _ _ _ hfirst
    (hcount _ rfl) h1 j
  have hnone2 := fun j => @WorkingLines.not_matchesAt canon lines context start _ _ _ htrimmed
    (hcount _ rfl) h2 j
  by_cases htext : replaceExplicitTabs (normaliseContext canon Fuzz.IgnoredTrailingWhitespace
      context) = normaliseContext canon Fuzz.IgnoredTrailingWhitespace context
  · -- without written out tabs there is no pass 3
    have hnone3 : ∀ j ≥ start, ¬ MatchesAt canon lines context
        (Fuzz.IgnoredTrailingWhitespace ||| Fuzz.NormalizedExplicitTab) j := by
      intro j hj hmatch
      apply hnone2 j hj
      unfold MatchesAt at hmatch ⊢
      rw [← htext]
      exact hmatch
    rw [if_neg (not_not.mpr htext), if_neg (not_not.mpr htext)]
    exact findExplicitNl_satisfies_iff hne htrimmed (.inl ⟨rfl, htext⟩)
      fun j hj => ⟨hnone1 j hj, hnone2 j hj, hnone3 j hj⟩
  · rw [if_pos htext, if_pos htext]
    have htext3 : normaliseContext canon (Fuzz.IgnoredTrailingWhitespace |||
        Fuzz.NormalizedExplicitTab) context = replaceExplicitTabs
          (normaliseContext canon Fuzz.IgnoredTrailingWhitespace context) := rfl
    cases h3 : findText ws start context.length (replaceExplicitTabs
        (normaliseContext canon Fuzz.IgnoredTrailingWhitespace context)) with
    | some i =>
      exact hfound _ htabs (by simp [earlierPasses]) rfl le_rfl (hcount _ rfl) (htext3 ▸ h3)
    | none =>
      have hnone3 := fun j => @WorkingLines.not_matchesAt canon lines context start _ _ _ htabs
        (hcount _ rfl) (htext3 ▸ h3) j
      exact findExplicitNl_satisfies_iff hne htrimmed (.inr rfl)
        fun j hj => ⟨hnone1 j hj, hnone2 j hj, hnone3 j hj⟩

/-- With a negative start, which is that of a context longer than the file, nothing right is
found. -/
theorem not_satisfies_of_neg (hne : context ≠ []) {first : ℤ} (hneg : first < 0)
    (hfirst : first = lines.length - context.length) :
    ¬ (findContextCore canon computeLevenshteinDistance lines context first).Satisfies
      (RightMatch canon computeLevenshteinDistance lines context) := by
  have hempty : context.isEmpty = false := by
    cases context with
    | nil => exact absurd rfl hne
    | cons => rfl
  unfold findContextCore
  rw [hempty, if_neg Bool.false_ne_true]
  dsimp only
  rw [if_pos hneg]
  cases hfind : findText (lines.map fun l => (canon l).text) first context.length
      (join (context.map fun l => (canon l).text)) with
  | none => exact id
  | some i =>
    rintro ⟨j, hj, -⟩
    have hi := not_rightMatch_of_neg hne (by omega) hfind
    dsimp only at hj
    omega

end Passes

/-- The context is found without an error and where the lines are right exactly when the start
is not negative and the pass with edit distances, if it comes to that, accepts a right line. -/
theorem findContextCore_satisfies_iff (canon : Line → Line)
    (computeLevenshteinDistance : Str → Str → ℕ) (lines context : List Line) (start : ℤ)
    (hne : context ≠ []) (hstart : 0 ≤ start ∨ start = lines.length - context.length) :
    (findContextCore canon computeLevenshteinDistance lines context start).Satisfies
        (RightMatch canon computeLevenshteinDistance lines context) ↔
      0 ≤ start ∧
        LastPassRight canon computeLevenshteinDistance lines context start.toNat := by
  by_cases hnonneg : 0 ≤ start
  · obtain ⟨n, rfl⟩ := Int.eq_ofNat_of_zero_le hnonneg
    rw [findContextCore_satisfies_iff_of_nonneg hne]
    exact ⟨fun h => ⟨hnonneg, h⟩, fun h => h.2⟩
  · constructor
    · intro h
      exact absurd h (not_satisfies_of_neg hne (not_le.mp hnonneg) (hstart.resolve_left hnonneg))
    · exact fun h => absurd h.1 hnonneg

/-- The row of a table of edit distances for one more character. -/
def levenshteinStep (a : CodeUnit) (previous : Str → ℕ) : Str → ℕ
  | [] => previous [] + 1
  | b :: t =>
    if a = b then previous t
    else min (previous (b :: t)) (min (levenshteinStep a previous t) (previous t)) + 1

/-- The least number of characters to insert, delete or replace. -/
def levenshtein : Str → Str → ℕ
  | [] => List.length
  | a :: s => levenshteinStep a (levenshtein s)

/-- `a`, `ab`, `ac`, `x` and `y` -/
def lineA : Line := ⟨[97], by decide⟩
def lineAb : Line := ⟨[97, 98], by decide⟩
def lineAc : Line := ⟨[97, 99], by decide⟩
def lineX : Line := ⟨[120], by decide⟩
def lineY : Line := ⟨[121], by decide⟩

/-- One line of three differs in a character. -/
theorem findContextCore_satisfies_ab :
    (findContextCore id levenshtein [lineAb, lineX, lineY]
      [lineAc, lineX, lineY] 0).Satisfies
        (RightMatch id levenshtein [lineAb, lineX, lineY]
          [lineAc, lineX, lineY]) := by
  refine (findContextCore_satisfies_iff id levenshtein
    [lineAb, lineX, lineY] [lineAc, lineX, lineY] 0 (by decide) (.inl le_rfl)).mpr ⟨le_rfl, ?_⟩
  intro _ _
  have hds : distances levenshtein
      ((([lineAb, lineX, lineY].map (normaliseLine id lastPass)).drop (Int.toNat 0)).drop 0)
      (split (normaliseContext id lastPass [lineAc, lineX, lineY])) = [1, 0, 0] := by
    decide +kernel
  intro i hi hbefore
  cases i with
  | zero =>
    right
    rw [hds]
    exact ⟨by decide +kernel, by decide⟩
  | succ i =>
    -- the first line is not rejected
    obtain ⟨k, hk, -, habove⟩ := hbefore 0 (Nat.succ_pos i)
    rw [hds] at hk habove
    have hmax : maxDistanceFor [lineAc, lineX, lineY].length = 1 := rfl
    rw [hmax] at habove
    exfalso
    revert k
    decide

/-- The loop over the distances ends as soon as the limit is reached: one character in the first
line, and the other lines are not read. Past the last line and before the first one it throws. -/
theorem findContextCore_wrong :
    (¬ (findContextCore id levenshtein [lineAb, lineX, lineX]
      [lineAc, lineY, lineY] 0).Satisfies
        (RightMatch id levenshtein [lineAb, lineX, lineX]
          [lineAc, lineY, lineY])) ∧
    findContextCore id levenshtein [lineA] [lineA, lineX, lineY] 0 =
      .throws ∧
    findContextCore id levenshtein [lineA] [lineA, lineX] (-1) =
      .throws := by
  refine ⟨?_, by decide +kernel, by decide +kernel⟩
  have hfound : findContextCore id levenshtein [lineAb, lineX, lineX]
      [lineAc, lineY, lineY] 0 = .found ⟨0, 26, none⟩ := by
    decide +kernel
  rw [hfound]
  rintro ⟨i, hi, -, hsum⟩
  obtain rfl : 0 = i := by
    dsimp only at hi
    omega
  have hflag : (26 : Fuzz).has Fuzz.EditDistanceMatch = true := by decide
  rw [if_pos hflag] at hsum
  revert hsum
  decide +kernel

end NexgileIde.ApplyPatch
