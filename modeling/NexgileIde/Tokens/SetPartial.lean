import NexgileIde.Tokens.AddSparseTokens

/-!
# Partial updates of semantic tokens

The new pieces replace the tokens that touch their range. An old piece before or behind the
range stays, any other one loses the tokens that touch it and is split where some are left on
both sides. The place of the new pieces is in front of the first piece behind the range.
-/
namespace NexgileIde.Tokens

open Text (Range)

namespace SparseTokensStore

/-- The loop over the pieces, and the insertion position as far as it is known. -/
def setPartialLoop (range : Range) : List SparseMultilineTokens → Option ℕ →
    List SparseMultilineTokens → List SparseMultilineTokens × Option ℕ
  | done, insertPosition, [] => (done, insertPosition)
  | done, insertPosition, piece :: rest =>
    if piece.endLineNumber < range.startLineNumber then
      setPartialLoop range (done ++ [piece]) insertPosition rest
    else if piece.startLineNumber > range.endLineNumber then
      (done ++ piece :: rest, some (insertPosition.getD done.length))
    else
      let piece := piece.removeTokens range
      if piece.isEmpty then setPartialLoop range done insertPosition rest
      else if piece.endLineNumber < range.startLineNumber then
        setPartialLoop range (done ++ [piece]) insertPosition rest
      else if piece.startLineNumber > range.endLineNumber then
        setPartialLoop range (done ++ [piece]) (some (insertPosition.getD done.length)) rest
      else
        -- after removal, this piece contains the range
        let (a, b) := piece.split range
        if a.isEmpty then
          setPartialLoop range (done ++ [piece]) (some (insertPosition.getD done.length)) rest
        else if b.isEmpty then setPartialLoop range (done ++ [piece]) insertPosition rest
        else
          setPartialLoop range (done ++ [a, b]) (some (insertPosition.getD (done.length + 1))) rest

/-- The range of an update, which takes in that of its pieces; none if they have no range. -/
def effectiveRange (range : Range) (pieces : List SparseMultilineTokens) : Option Range :=
  match pieces.head?, pieces.getLast? with
  | some first, some last =>
    match first.getRange, last.getRange with
    | some firstRange, some lastRange => some ((range.plusRange firstRange).plusRange lastRange)
    | _, _ => none
  | _, _ => some range

def setPartial (s : SparseTokensStore) (range : Range) (pieces : List SparseMultilineTokens) :
    SparseTokensStore × Range :=
  match effectiveRange range pieces with
  | none => (s, range)
  | some range =>
    let (kept, insertPosition) := setPartialLoop range [] none s.pieces
    let index := insertPosition.getD kept.length
    if pieces.isEmpty then ({ s with pieces := kept }, range)
    else ({ s with pieces := kept.take index ++ pieces ++ kept.drop index }, range)

end SparseTokensStore

/-- The token with its line counted from elsewhere. -/
def SparseToken.shift (d : ℤ) (token : SparseToken) : SparseToken :=
  { token with deltaLine := token.deltaLine + d }

/-- The tokens of a piece, each with its line number in the text. -/
def SparseMultilineTokens.lineTokens (piece : SparseMultilineTokens) : List SparseToken :=
  piece.tokens.tokens.map (.shift piece.startLineNumber)

/-- The tokens of all pieces, each with its line number in the text. -/
def allTokens (pieces : List SparseMultilineTokens) : List SparseToken :=
  pieces.flatMap (·.lineTokens)

/-- The order of tokens with line numbers by the positions they start at. -/
def SparseToken.Precedes (token token' : SparseToken) : Prop :=
  token.deltaLine < token'.deltaLine ∨
    token.deltaLine = token'.deltaLine ∧ token.startCharacter ≤ token'.startCharacter

instance : DecidableRel SparseToken.Precedes := fun _ _ =>
  inferInstanceAs (Decidable (_ ∨ _ ∧ _))

/-- The token, whose line is that in the text, touches the range. -/
def SparseToken.Touches (range : Range) (token : SparseToken) : Bool :=
  token.reaches range.startLineNumber (range.startColumn - 1) ∧
    token.startsWithin range.endLineNumber (range.endColumn - 1)

section Storage

variable {startDeltaLine startChar endDeltaLine endChar : ℤ} {token token' : SparseToken}

theorem SparseToken.reaches_iff : token.reaches startDeltaLine startChar = true ↔
    startDeltaLine < token.deltaLine ∨
      token.deltaLine = startDeltaLine ∧ startChar ≤ token.endCharacter := by
  unfold SparseToken.reaches
  rw [decide_eq_true_iff]

theorem SparseToken.startsWithin_iff : token.startsWithin endDeltaLine endChar = true ↔
    token.deltaLine < endDeltaLine ∨
      token.deltaLine = endDeltaLine ∧ token.startCharacter ≤ endChar := by
  unfold SparseToken.startsWithin
  rw [decide_eq_true_iff]

@[simp] theorem SparseToken.shift_deltaLine (d : ℤ) (token : SparseToken) :
    (token.shift d).deltaLine = token.deltaLine + d := rfl
@[simp] theorem SparseToken.shift_startCharacter (d : ℤ) (token : SparseToken) :
    (token.shift d).startCharacter = token.startCharacter := rfl
@[simp] theorem SparseToken.shift_endCharacter (d : ℤ) (token : SparseToken) :
    (token.shift d).endCharacter = token.endCharacter := rfl

theorem SparseToken.shift_shift (d d' : ℤ) (token : SparseToken) :
    (token.shift d).shift d' = token.shift (d + d') := by
  unfold SparseToken.shift
  rw [← add_assoc]

/-- What `removeTokens` leaves. -/
def stays (startDeltaLine startChar endDeltaLine endChar : ℤ) (token : SparseToken) : Bool :=
  ¬ (token.reaches startDeltaLine startChar ∧ token.startsWithin endDeltaLine endChar)

namespace SparseMultilineTokensStorage

theorem removeTokensLoop_of_ne_nil {kept : List SparseToken} (hkept : kept ≠ [])
    (firstDeltaLine : ℤ) (tokens : List SparseToken) :
    removeTokensLoop startDeltaLine startChar endDeltaLine endChar kept firstDeltaLine tokens =
      (kept ++ (tokens.filter (stays startDeltaLine startChar endDeltaLine endChar)).map
        (.shift (-firstDeltaLine)), firstDeltaLine) := by
  induction tokens generalizing kept with
  | nil =>
    unfold removeTokensLoop
    rw [List.filter_nil, List.map_nil, List.append_nil]
  | cons token tokens ih =>
    unfold removeTokensLoop
    by_cases h : token.reaches startDeltaLine startChar ∧ token.startsWithin endDeltaLine endChar
    · have hstays : stays startDeltaLine startChar endDeltaLine endChar token = false := by
        simp [stays, h]
      rw [if_pos h, ih hkept, List.filter_cons_of_neg (by simp [hstays])]
    · have hstays : stays startDeltaLine startChar endDeltaLine endChar token = true := by
        unfold stays
        exact decide_eq_true h
      rw [if_neg h, List.filter_cons_of_pos hstays]
      have hempty : kept.isEmpty = false := by
        cases kept
        · exact absurd rfl hkept
        · rfl
      dsimp only
      rw [hempty, if_neg Bool.false_ne_true, ih (by simp)]
      simp [SparseToken.shift, sub_eq_add_neg]

theorem removeTokensLoop_nil (firstDeltaLine : ℤ) (tokens : List SparseToken) :
    removeTokensLoop startDeltaLine startChar endDeltaLine endChar [] firstDeltaLine tokens =
      match tokens.filter (stays startDeltaLine startChar endDeltaLine endChar) with
      | [] => ([], firstDeltaLine)
      | first :: rest => ((first :: rest).map (.shift (-first.deltaLine)), first.deltaLine) := by
  induction tokens with
  | nil => rfl
  | cons token tokens ih =>
    unfold removeTokensLoop
    by_cases h : token.reaches startDeltaLine startChar ∧ token.startsWithin endDeltaLine endChar
    · have hstays : stays startDeltaLine startChar endDeltaLine endChar token = false := by
        simp [stays, h]
      rw [if_pos h, ih, List.filter_cons_of_neg (by simp [hstays])]
    · have hstays : stays startDeltaLine startChar endDeltaLine endChar token = true := by
        unfold stays
        exact decide_eq_true h
      rw [if_neg h, List.filter_cons_of_pos hstays]
      dsimp only
      rw [List.isEmpty_nil, if_pos rfl, removeTokensLoop_of_ne_nil (by simp)]
      simp [SparseToken.shift]

/-- `split` writes tokens to `a` until one is behind the range. -/
theorem foldl_splitToken_before {before : List SparseToken}
    (h : ∀ token ∈ before, token.reaches startDeltaLine startChar = false)
    (aTokens : List SparseToken) :
    before.foldl (splitToken startDeltaLine startChar endDeltaLine endChar) ⟨aTokens, [], false, 0⟩ =
      ⟨aTokens ++ before, [], false, 0⟩ := by
  induction before generalizing aTokens with
  | nil => rw [List.append_nil, List.foldl_nil]
  | cons token before ih =>
    rw [List.forall_mem_cons] at h
    rw [List.foldl_cons]
    have hstep : splitToken startDeltaLine startChar endDeltaLine endChar ⟨aTokens, [], false, 0⟩
        token = ⟨aTokens ++ [token], [], false, 0⟩ := by
      unfold splitToken
      simp [h.1]
    rw [hstep, ih h.2, List.append_assoc, List.singleton_append]

theorem foldl_splitToken_behind {behind : List SparseToken}
    (h : ∀ token ∈ behind, token.startsWithin endDeltaLine endChar = false)
    (aTokens bTokens : List SparseToken) (d : ℤ) :
    behind.foldl (splitToken startDeltaLine startChar endDeltaLine endChar)
        ⟨aTokens, bTokens, true, d⟩ =
      ⟨aTokens, bTokens ++ behind.map (.shift (-d)), true, d⟩ := by
  induction behind generalizing bTokens with
  | nil => rw [List.map_nil, List.append_nil, List.foldl_nil]
  | cons token behind ih =>
    rw [List.forall_mem_cons] at h
    rw [List.foldl_cons]
    have hstep : splitToken startDeltaLine startChar endDeltaLine endChar
        ⟨aTokens, bTokens, true, d⟩ token = ⟨aTokens, bTokens ++ [token.shift (-d)], true, d⟩ := by
      unfold splitToken
      simp [h.1, SparseToken.shift, sub_eq_add_neg]
    rw [hstep, ih h.2, List.map_cons, List.append_assoc, List.singleton_append]

/-- The line from which the tokens behind a range are counted. -/
def firstDeltaLine (behind : List SparseToken) : ℤ := behind.head?.elim 0 (·.deltaLine)

/-- Tokens in front of a range, then tokens behind it. -/
theorem split_of_sides (s : SparseMultilineTokensStorage) {before behind : List SparseToken}
    (htokens : s.tokens = before ++ behind)
    (hbefore : ∀ token ∈ before, token.reaches startDeltaLine startChar = false)
    (hbehind : ∀ token ∈ behind, token.startsWithin endDeltaLine endChar = false ∧
      token.reaches startDeltaLine startChar = true) :
    s.split startDeltaLine startChar endDeltaLine endChar =
      (⟨before⟩, ⟨behind.map (.shift (-firstDeltaLine behind))⟩, firstDeltaLine behind) := by
  unfold split
  dsimp only
  rw [htokens, List.foldl_append, foldl_splitToken_before hbefore, List.nil_append]
  cases behind with
  | nil => rfl
  | cons first rest =>
    rw [List.forall_mem_cons] at hbehind
    rw [List.foldl_cons]
    have hstep : splitToken startDeltaLine startChar endDeltaLine endChar ⟨before, [], false, 0⟩
        first = ⟨before, [first.shift (-first.deltaLine)], true, first.deltaLine⟩ := by
      unfold splitToken
      simp [hbehind.1.1, hbehind.1.2, SparseToken.shift]
    rw [hstep, foldl_splitToken_behind fun token ht => (hbehind.2 token ht).1]
    rfl

end SparseMultilineTokensStorage

end Storage

/-- A piece as its constructor builds it from tokens that end behind their start. -/
structure SparseMultilineTokens.Valid (piece : SparseMultilineTokens) : Prop where
  endLineNumber_eq : piece.endLineNumber = piece.startLineNumber + piece.tokens.getMaxDeltaLine
  ne_nil : piece.tokens.tokens ≠ []
  deltaLine_nonneg : ∀ token ∈ piece.tokens.tokens, 0 ≤ token.deltaLine
  start_le_end : ∀ token ∈ piece.tokens.tokens, token.startCharacter ≤ token.endCharacter

/-- The token, whose line is that in the text, ends in front of the range. -/
def SparseToken.IsBefore (range : Range) (token : SparseToken) : Prop :=
  token.reaches range.startLineNumber (range.startColumn - 1) = false

/-- The token, whose line is that in the text, starts behind the range. -/
def SparseToken.IsAfter (range : Range) (token : SparseToken) : Prop :=
  token.startsWithin range.endLineNumber (range.endColumn - 1) = false

section Pieces

variable {range : Range} {piece : SparseMultilineTokens} {token token' : SparseToken}

theorem SparseToken.isBefore_iff : token.IsBefore range ↔
    token.deltaLine < range.startLineNumber ∨
      token.deltaLine = range.startLineNumber ∧ token.endCharacter < range.startColumn - 1 := by
  unfold SparseToken.IsBefore
  rw [← Bool.not_eq_true, SparseToken.reaches_iff]
  omega

theorem SparseToken.isAfter_iff : token.IsAfter range ↔
    range.endLineNumber < token.deltaLine ∨
      token.deltaLine = range.endLineNumber ∧ range.endColumn - 1 < token.startCharacter := by
  unfold SparseToken.IsAfter
  rw [← Bool.not_eq_true, SparseToken.startsWithin_iff]
  omega

theorem SparseToken.touches_eq_false_iff :
    token.Touches range = false ↔ token.IsBefore range ∨ token.IsAfter range := by
  unfold SparseToken.Touches SparseToken.IsBefore SparseToken.IsAfter
  rw [decide_eq_false_iff_not, not_and_or, Bool.not_eq_true, Bool.not_eq_true]

theorem SparseToken.IsAfter.mono (h : token.IsAfter range) (hprecedes : token.Precedes token') :
    token'.IsAfter range := by
  rw [SparseToken.isAfter_iff] at h ⊢
  unfold SparseToken.Precedes at hprecedes
  omega

theorem SparseToken.IsAfter.not_isBefore (h : token.IsAfter range)
    (hle : token.startCharacter ≤ token.endCharacter) : ¬ token.IsBefore range := by
  have := range.start_le_end
  rw [SparseToken.isAfter_iff] at h
  rw [SparseToken.isBefore_iff]
  omega

theorem reaches_shift (token : SparseToken) (d l c : ℤ) :
    token.reaches (l - d) c = (token.shift d).reaches l c := by
  rw [Bool.eq_iff_iff, SparseToken.reaches_iff, SparseToken.reaches_iff,
    SparseToken.shift_deltaLine, SparseToken.shift_endCharacter]
  omega

theorem startsWithin_shift (token : SparseToken) (d l c : ℤ) :
    token.startsWithin (l - d) c = (token.shift d).startsWithin l c := by
  rw [Bool.eq_iff_iff, SparseToken.startsWithin_iff, SparseToken.startsWithin_iff,
    SparseToken.shift_deltaLine, SparseToken.shift_startCharacter]
  omega

theorem filter_lineTokens (piece : SparseMultilineTokens) (range : Range) :
    (piece.lineTokens.filter fun token => ¬ token.Touches range) =
      (piece.tokens.tokens.filter (stays (range.startLineNumber - piece.startLineNumber)
        (range.startColumn - 1) (range.endLineNumber - piece.startLineNumber)
        (range.endColumn - 1))).map (.shift piece.startLineNumber) := by
  unfold SparseMultilineTokens.lineTokens
  rw [List.filter_map]
  congr 1
  apply List.filter_congr
  intro token _
  unfold stays SparseToken.Touches
  rw [Function.comp_apply, reaches_shift, startsWithin_shift]
  simp

theorem removeTokens_lineTokens (piece : SparseMultilineTokens) (range : Range) :
    (piece.removeTokens range).lineTokens =
      piece.lineTokens.filter fun token => ¬ token.Touches range := by
  rw [filter_lineTokens]
  unfold SparseMultilineTokens.removeTokens SparseMultilineTokensStorage.removeTokens
  rw [SparseMultilineTokensStorage.removeTokensLoop_nil]
  unfold SparseMultilineTokens.updateEndLineNumber SparseMultilineTokens.lineTokens
  cases piece.tokens.tokens.filter _ with
  | nil => rfl
  | cons first rest =>
    dsimp only
    rw [List.map_map]
    apply List.map_congr_left
    intro token _
    rw [Function.comp_apply, SparseToken.shift_shift]
    congr 1
    omega

/-- The piece that is left starts on the line of its first token. -/
theorem removeTokens_startLineNumber (piece : SparseMultilineTokens) (range : Range) :
    (piece.removeTokens range).lineTokens.head?.elim True
      ((piece.removeTokens range).startLineNumber = ·.deltaLine) := by
  rw [removeTokens_lineTokens, filter_lineTokens]
  unfold SparseMultilineTokens.removeTokens SparseMultilineTokensStorage.removeTokens
  rw [SparseMultilineTokensStorage.removeTokensLoop_nil]
  unfold SparseMultilineTokens.updateEndLineNumber
  cases piece.tokens.tokens.filter _ with
  | nil => trivial
  | cons first rest =>
    show piece.startLineNumber + first.deltaLine = first.deltaLine + piece.startLineNumber
    omega

theorem lineTokens_eq_nil_iff : piece.lineTokens = [] ↔ piece.isEmpty = true := by
  unfold SparseMultilineTokens.lineTokens SparseMultilineTokens.isEmpty
    SparseMultilineTokensStorage.isEmpty
  rw [List.map_eq_nil_iff, List.isEmpty_iff]

theorem mem_lineTokens : token ∈ piece.lineTokens ↔
    ∃ t ∈ piece.tokens.tokens, t.shift piece.startLineNumber = token := by
  unfold SparseMultilineTokens.lineTokens
  rw [List.mem_map]

/-- A piece is valid when its tokens are sorted and it does not start behind the first one. -/
theorem SparseMultilineTokens.Valid.of_sorted
    (hend : piece.endLineNumber = piece.startLineNumber + piece.tokens.getMaxDeltaLine)
    (hne : piece.lineTokens ≠ []) (hsorted : piece.lineTokens.Pairwise SparseToken.Precedes)
    (hstart : ∀ first ∈ piece.lineTokens.head?, piece.startLineNumber ≤ first.deltaLine)
    (hle : ∀ token ∈ piece.lineTokens, token.startCharacter ≤ token.endCharacter) :
    piece.Valid := by
  refine ⟨hend, ?_, ?_, ?_⟩
  · intro h
    apply hne
    unfold SparseMultilineTokens.lineTokens
    rw [h, List.map_nil]
  · intro t ht
    have hmem : t.shift piece.startLineNumber ∈ piece.lineTokens := mem_lineTokens.mpr ⟨t, ht, rfl⟩
    cases hl : piece.lineTokens with
    | nil => exact absurd hl hne
    | cons first rest =>
      rw [hl] at hmem hsorted hstart
      have hfirst := hstart first rfl
      rcases List.mem_cons.mp hmem with h | h
      · rw [← h, SparseToken.shift_deltaLine] at hfirst
        omega
      · have hprecedes := (List.pairwise_cons.mp hsorted).1 _ h
        unfold SparseToken.Precedes at hprecedes
        rw [SparseToken.shift_deltaLine] at hprecedes
        omega
  · intro t ht
    exact hle (t.shift piece.startLineNumber) (mem_lineTokens.mpr ⟨t, ht, rfl⟩)

namespace SparseMultilineTokens.Valid

theorem lineTokens_ne_nil (h : piece.Valid) : piece.lineTokens ≠ [] := by
  unfold SparseMultilineTokens.lineTokens
  rw [ne_eq, List.map_eq_nil_iff]
  exact h.ne_nil

theorem le_line (h : piece.Valid) (ht : token ∈ piece.lineTokens) :
    piece.startLineNumber ≤ token.deltaLine := by
  obtain ⟨t, hmem, rfl⟩ := mem_lineTokens.mp ht
  have := h.deltaLine_nonneg t hmem
  rw [SparseToken.shift_deltaLine]
  omega

theorem start_le (h : piece.Valid) (ht : token ∈ piece.lineTokens) :
    token.startCharacter ≤ token.endCharacter := by
  obtain ⟨t, hmem, rfl⟩ := mem_lineTokens.mp ht
  exact h.start_le_end t hmem

/-- The last token is on the last line of the piece. -/
theorem exists_last (h : piece.Valid) : ∃ before last,
    piece.lineTokens = before ++ [last] ∧ last.deltaLine = piece.endLineNumber := by
  obtain ⟨before, last, hlast⟩ := List.eq_nil_or_concat' piece.tokens.tokens |>.resolve_left h.ne_nil
  refine ⟨before.map (.shift piece.startLineNumber), last.shift piece.startLineNumber, ?_, ?_⟩
  · unfold SparseMultilineTokens.lineTokens
    rw [hlast, List.map_append, List.map_singleton]
  · rw [h.endLineNumber_eq, SparseToken.shift_deltaLine]
    unfold SparseMultilineTokensStorage.getMaxDeltaLine
    rw [hlast, List.getLast?_concat, Option.elim_some]
    omega

theorem line_le (h : piece.Valid) (hsorted : piece.lineTokens.Pairwise SparseToken.Precedes)
    (ht : token ∈ piece.lineTokens) : token.deltaLine ≤ piece.endLineNumber := by
  obtain ⟨before, last, hlast, hline⟩ := h.exists_last
  rw [hlast] at ht hsorted
  rw [← hline]
  rcases List.mem_append.mp ht with h | h
  · have hprecedes := (List.pairwise_append.mp hsorted).2.2 token h last (List.mem_singleton_self _)
    unfold SparseToken.Precedes at hprecedes
    omega
  · rw [List.mem_singleton.mp h]

end SparseMultilineTokens.Valid

/-- Tokens that all touch the range are removed; other ones leave a valid piece. -/
theorem SparseMultilineTokens.Valid.removeTokens (h : piece.Valid)
    (hsorted : piece.lineTokens.Pairwise SparseToken.Precedes)
    (hne : (piece.removeTokens range).isEmpty = false) : (piece.removeTokens range).Valid := by
  have hsub : (piece.removeTokens range).lineTokens.Sublist piece.lineTokens := by
    rw [removeTokens_lineTokens]
    exact List.filter_sublist
  refine .of_sorted rfl ?_ (hsorted.sublist hsub) ?_ fun token ht => h.start_le (hsub.subset ht)
  · rw [ne_eq, lineTokens_eq_nil_iff, hne]
    exact Bool.false_ne_true
  · intro first hfirst
    have hstart := removeTokens_startLineNumber piece range
    rw [Option.mem_def.mp hfirst] at hstart
    exact le_of_eq hstart

/-- Behind the first element without a property that sorting carries back, none has it. -/
theorem eq_false_of_mem_dropWhile {α : Type*} {p : α → Bool} {r : α → α → Prop}
    (hmono : ∀ a b, r a b → p a = false → p b = false) {l : List α} (h : l.Pairwise r) :
    ∀ b ∈ l.dropWhile p, p b = false := by
  induction l with
  | nil => simp
  | cons a l ih =>
    rw [List.pairwise_cons] at h
    cases ha : p a with
    | true =>
      rw [List.dropWhile_cons_of_pos ha]
      exact ih h.2
    | false =>
      rw [List.dropWhile_cons_of_neg (by simp [ha]), List.forall_mem_cons]
      exact ⟨ha, fun b hb => hmono a b (h.1 b hb) ha⟩

/-- The two pieces that `split` makes of one whose tokens do not touch the range. -/
structure SparseMultilineTokens.IsSplit (range : Range) (piece a b : SparseMultilineTokens) :
    Prop where
  append : a.lineTokens ++ b.lineTokens = piece.lineTokens
  left_valid : a.isEmpty = false → a.Valid
  right_valid : b.isEmpty = false → b.Valid
  isBefore : ∀ token ∈ a.lineTokens, token.IsBefore range
  isAfter : ∀ token ∈ b.lineTokens, token.IsAfter range

theorem SparseMultilineTokens.Valid.isSplit (h : piece.Valid)
    (hsorted : piece.lineTokens.Pairwise SparseToken.Precedes)
    (hsides : ∀ token ∈ piece.lineTokens, token.Touches range = false) :
    IsSplit range piece (piece.split range).1 (piece.split range).2 := by
  -- the tokens up to the first one behind the range
  let within (t : SparseToken) : Bool :=
    (t.shift piece.startLineNumber).startsWithin range.endLineNumber (range.endColumn - 1)
  obtain ⟨before, hbefore⟩ : ∃ l, piece.tokens.tokens.takeWhile within = l := ⟨_, rfl⟩
  obtain ⟨behind, hbehind⟩ : ∃ l, piece.tokens.tokens.dropWhile within = l := ⟨_, rfl⟩
  have htokens : piece.tokens.tokens = before ++ behind := by
    rw [← hbefore, ← hbehind, List.takeWhile_append_dropWhile]
  have hline : ∀ t ∈ piece.tokens.tokens, t.shift piece.startLineNumber ∈ piece.lineTokens :=
    fun t ht => mem_lineTokens.mpr ⟨t, ht, rfl⟩
  have hisBefore : ∀ t ∈ before, (t.shift piece.startLineNumber).IsBefore range := by
    intro t ht
    have hwithin : within t = true := List.mem_takeWhile_imp (hbefore ▸ ht)
    have hmem : t ∈ piece.tokens.tokens := by
      rw [htokens]
      exact List.mem_append_left _ ht
    rcases SparseToken.touches_eq_false_iff.mp (hsides _ (hline t hmem)) with h | h
    · exact h
    · exact absurd (hwithin.symm.trans h) (by decide)
  have hisAfter : ∀ t ∈ behind, (t.shift piece.startLineNumber).IsAfter range := by
    intro t ht
    have hpairwise : piece.tokens.tokens.Pairwise fun a b =>
        (a.shift piece.startLineNumber).Precedes (b.shift piece.startLineNumber) := by
      unfold SparseMultilineTokens.lineTokens at hsorted
      exact List.pairwise_map.mp hsorted
    refine eq_false_of_mem_dropWhile (p := within) ?_ hpairwise t (hbehind ▸ ht)
    intro a b hprecedes hafter
    exact @SparseToken.IsAfter.mono range _ _ hafter hprecedes
  have hmapped : before.map (.shift piece.startLineNumber) ++
      behind.map (.shift piece.startLineNumber) = piece.lineTokens := by
    unfold SparseMultilineTokens.lineTokens
    rw [htokens, List.map_append]
  have hsplit := piece.tokens.split_of_sides htokens
    (fun t ht => (reaches_shift t ..).trans (hisBefore t ht)) fun t ht => by
      refine ⟨(startsWithin_shift t ..).trans (hisAfter t ht), (reaches_shift t ..).trans ?_⟩
      have hmem : t ∈ piece.tokens.tokens := by
        rw [htokens]
        exact List.mem_append_right _ ht
      rw [← Bool.not_eq_false]
      exact (hisAfter t ht).not_isBefore (h.start_le_end t hmem)
  have hleft : (piece.split range).1.lineTokens = before.map (.shift piece.startLineNumber) := by
    unfold SparseMultilineTokens.split
    rw [hsplit]
    rfl
  have hright : (piece.split range).2.lineTokens = behind.map (.shift piece.startLineNumber) := by
    unfold SparseMultilineTokens.split
    rw [hsplit]
    unfold SparseMultilineTokens.create SparseMultilineTokens.lineTokens
    dsimp only
    rw [List.map_map]
    apply List.map_congr_left
    intro t _
    rw [Function.comp_apply, SparseToken.shift_shift]
    congr 1
    omega
  rw [← hmapped, List.pairwise_append] at hsorted
  have hle : ∀ token ∈ piece.lineTokens, token.startCharacter ≤ token.endCharacter :=
    fun token ht => h.start_le ht
  rw [← hmapped, List.forall_mem_append] at hle
  constructor
  · rw [hleft, hright, hmapped]
  · intro hne
    refine .of_sorted rfl ?_ (hleft ▸ hsorted.1) ?_ (hleft ▸ hle.1)
    · rw [ne_eq, lineTokens_eq_nil_iff, hne]
      exact Bool.false_ne_true
    · intro first hfirst
      apply h.le_line
      rw [← hmapped, ← hleft]
      exact List.mem_append_left _ (List.mem_of_mem_head? hfirst)
  · intro hne
    refine .of_sorted rfl ?_ (hright ▸ hsorted.2.1) ?_ (hright ▸ hle.2)
    · rw [ne_eq, lineTokens_eq_nil_iff, hne]
      exact Bool.false_ne_true
    · intro first hfirst
      rw [hright] at hfirst
      unfold SparseMultilineTokens.split
      rw [hsplit]
      cases behind with
      | nil => simp at hfirst
      | cons t rest =>
        rw [List.map_cons, List.head?_cons, Option.mem_some_iff] at hfirst
        rw [← hfirst, SparseToken.shift_deltaLine]
        show piece.startLineNumber + t.deltaLine ≤ _
        omega
  · rw [hleft]
    exact List.forall_mem_map.mpr hisBefore
  · rw [hright]
    exact List.forall_mem_map.mpr hisAfter

@[simp] theorem allTokens_nil : allTokens [] = [] := rfl

@[simp] theorem allTokens_cons (piece : SparseMultilineTokens)
    (pieces : List SparseMultilineTokens) :
    allTokens (piece :: pieces) = piece.lineTokens ++ allTokens pieces := rfl

@[simp] theorem allTokens_append (pieces pieces' : List SparseMultilineTokens) :
    allTokens (pieces ++ pieces') = allTokens pieces ++ allTokens pieces' := by
  unfold allTokens
  rw [List.flatMap_append]

/-- Pieces in front of the range and pieces behind it that hold given tokens. -/
structure Sides (range : Range) (tokens : List SparseToken)
    (front back : List SparseMultilineTokens) : Prop where
  allTokens_eq : allTokens front ++ allTokens back = tokens
  front_valid : ∀ piece ∈ front, piece.Valid
  back_valid : ∀ piece ∈ back, piece.Valid
  isBefore : ∀ token ∈ allTokens front, token.IsBefore range
  isAfter : ∀ token ∈ allTokens back, token.IsAfter range

/-- No piece is in front of the range when all tokens are behind it. -/
theorem Sides.front_eq_nil {tokens : List SparseToken} {front back : List SparseMultilineTokens}
    (h : Sides range tokens front back) (hafter : ∀ token ∈ tokens, token.IsAfter range) :
    front = [] := by
  cases front with
  | nil => rfl
  | cons piece front =>
    exfalso
    have hvalid := h.front_valid piece (List.mem_cons_self ..)
    obtain ⟨token, ht⟩ := List.exists_mem_of_ne_nil _ hvalid.lineTokens_ne_nil
    have hmem : token ∈ allTokens (piece :: front) := by
      rw [allTokens_cons]
      exact List.mem_append_left _ ht
    refine (hafter token ?_).not_isBefore (hvalid.start_le ht) (h.isBefore token hmem)
    rw [← h.allTokens_eq]
    exact List.mem_append_left _ hmem

theorem Sides.front_of_valid (h : piece.Valid)
    (hbefore : ∀ token ∈ piece.lineTokens, token.IsBefore range) :
    Sides range piece.lineTokens [piece] [] := by
  refine ⟨by simp, by simpa using h, by simp, by simpa using hbefore, by simp⟩

theorem Sides.back_of_valid (h : piece.Valid)
    (hafter : ∀ token ∈ piece.lineTokens, token.IsAfter range) :
    Sides range piece.lineTokens [] [piece] := by
  refine ⟨by simp, by simp, by simpa using h, by simp, by simpa using hafter⟩

theorem Sides.append_front {tokens tokens' : List SparseToken}
    {front front' back : List SparseMultilineTokens} (h : Sides range tokens front [])
    (h' : Sides range tokens' front' back) :
    Sides range (tokens ++ tokens') (front ++ front') back := by
  have heq := h.allTokens_eq
  rw [allTokens_nil, List.append_nil] at heq
  constructor
  · rw [allTokens_append, List.append_assoc, h'.allTokens_eq, heq]
  · exact List.forall_mem_append.mpr ⟨h.front_valid, h'.front_valid⟩
  · exact h'.back_valid
  · rw [allTokens_append]
    exact List.forall_mem_append.mpr ⟨h.isBefore, h'.isBefore⟩
  · exact h'.isAfter

theorem Sides.append_back {tokens tokens' : List SparseToken}
    {front back back' : List SparseMultilineTokens} (h : Sides range tokens front back)
    (h' : Sides range tokens' [] back') :
    Sides range (tokens ++ tokens') front (back ++ back') := by
  have heq := h'.allTokens_eq
  rw [allTokens_nil, List.nil_append] at heq
  constructor
  · rw [allTokens_append, ← List.append_assoc, h.allTokens_eq, heq]
  · exact h.front_valid
  · exact List.forall_mem_append.mpr ⟨h.back_valid, h'.back_valid⟩
  · exact h.isBefore
  · rw [allTokens_append]
    exact List.forall_mem_append.mpr ⟨h.isAfter, h'.isAfter⟩

/-- The tokens of a list that do not touch the range. -/
def apart (range : Range) (tokens : List SparseToken) : List SparseToken :=
  tokens.filter fun token => ¬ token.Touches range

theorem apart_eq_self {tokens : List SparseToken}
    (h : ∀ token ∈ tokens, token.Touches range = false) : apart range tokens = tokens := by
  unfold apart
  rw [List.filter_eq_self]
  intro token ht
  simp [h token ht]

@[simp] theorem apart_append (tokens tokens' : List SparseToken) :
    apart range (tokens ++ tokens') = apart range tokens ++ apart range tokens' := by
  unfold apart
  rw [List.filter_append]

theorem touches_of_mem_apart {tokens : List SparseToken} (h : token ∈ apart range tokens) :
    token.Touches range = false := by
  unfold apart at h
  simpa using (List.mem_filter.mp h).2

/-- What the loop does with the pieces that are left. -/
structure Placed (range : Range) (done : List SparseMultilineTokens) (insertPosition : Option ℕ)
    (rest : List SparseMultilineTokens) (front back : List SparseMultilineTokens) : Prop where
  sides : Sides range (apart range (allTokens rest)) front back
  pieces_eq : (SparseTokensStore.setPartialLoop range done insertPosition rest).1 =
    done ++ (front ++ back)
  index_eq : (SparseTokensStore.setPartialLoop range done insertPosition rest).2.getD
    (done ++ (front ++ back)).length = insertPosition.getD (done.length + front.length)

/-- One turn of the loop puts a piece in front of the range, behind it, or both. -/
theorem setPartialLoop_cons (h : piece.Valid)
    (hsorted : piece.lineTokens.Pairwise SparseToken.Precedes)
    (hend : piece.startLineNumber ≤ range.endLineNumber)
    (done : List SparseMultilineTokens) (insertPosition : Option ℕ)
    (rest : List SparseMultilineTokens) : ∃ front back,
      Sides range (apart range piece.lineTokens) front back ∧
      SparseTokensStore.setPartialLoop range done insertPosition (piece :: rest) =
        SparseTokensStore.setPartialLoop range (done ++ (front ++ back))
          (if back = [] then insertPosition
            else some (insertPosition.getD (done.length + front.length))) rest := by
  rw [SparseTokensStore.setPartialLoop]
  by_cases hbefore : piece.endLineNumber < range.startLineNumber
  · have hlines : ∀ token ∈ piece.lineTokens, token.IsBefore range := fun token ht =>
      SparseToken.isBefore_iff.mpr (.inl (lt_of_le_of_lt (h.line_le hsorted ht) hbefore))
    rw [if_pos hbefore, apart_eq_self fun token ht =>
      SparseToken.touches_eq_false_iff.mpr (.inl (hlines token ht))]
    exact ⟨[piece], [], .front_of_valid h hlines, by simp⟩
  rw [if_neg hbefore, if_neg (not_lt.mpr hend)]
  -- from here on the piece is what is left of it
  have hleft : (piece.removeTokens range).lineTokens = apart range piece.lineTokens :=
    removeTokens_lineTokens piece range
  have hsorted' : (piece.removeTokens range).lineTokens.Pairwise SparseToken.Precedes := by
    rw [hleft]
    exact hsorted.sublist List.filter_sublist
  have hvalid : (piece.removeTokens range).isEmpty = false → (piece.removeTokens range).Valid :=
    h.removeTokens hsorted
  have hsides : ∀ token ∈ (piece.removeTokens range).lineTokens, token.Touches range = false := by
    rw [hleft]
    exact fun token ht => touches_of_mem_apart ht
  rw [← hleft]
  dsimp only
  generalize piece.removeTokens range = left at *
  by_cases hempty : left.isEmpty = true
  · rw [if_pos hempty, lineTokens_eq_nil_iff.mpr hempty]
    exact ⟨[], [], ⟨rfl, by simp, by simp, by simp, by simp⟩, by simp⟩
  rw [if_neg hempty]
  replace hvalid := hvalid (Bool.eq_false_iff.mpr hempty)
  by_cases hbefore' : left.endLineNumber < range.startLineNumber
  · rw [if_pos hbefore']
    exact ⟨[left], [], .front_of_valid hvalid fun token ht => SparseToken.isBefore_iff.mpr
      (.inl (lt_of_le_of_lt (hvalid.line_le hsorted' ht) hbefore')), by simp⟩
  rw [if_neg hbefore']
  by_cases hafter : left.startLineNumber > range.endLineNumber
  · rw [if_pos hafter]
    exact ⟨[], [left], .back_of_valid hvalid fun token ht => SparseToken.isAfter_iff.mpr
      (.inl (lt_of_lt_of_le hafter (hvalid.le_line ht))), by simp⟩
  rw [if_neg hafter]
  have hsplit := hvalid.isSplit hsorted' hsides
  generalize left.split range = ab at *
  obtain ⟨a, b⟩ := ab
  dsimp only at hsplit ⊢
  by_cases ha : a.isEmpty = true
  · have happend := hsplit.append
    rw [lineTokens_eq_nil_iff.mpr ha, List.nil_append] at happend
    rw [if_pos ha]
    exact ⟨[], [left], .back_of_valid hvalid (happend ▸ hsplit.isAfter), by simp⟩
  rw [if_neg ha]
  by_cases hb : b.isEmpty = true
  · have happend := hsplit.append
    rw [lineTokens_eq_nil_iff.mpr hb, List.append_nil] at happend
    rw [if_pos hb]
    exact ⟨[left], [], .front_of_valid hvalid (happend ▸ hsplit.isBefore), by simp⟩
  rw [if_neg hb]
  refine ⟨[a], [b], ?_, by simp⟩
  constructor
  · simpa using hsplit.append
  · simpa using hsplit.left_valid (Bool.eq_false_iff.mpr ha)
  · simpa using hsplit.right_valid (Bool.eq_false_iff.mpr hb)
  · simpa using hsplit.isBefore
  · simpa using hsplit.isAfter

/-- The loop keeps the tokens that do not touch the range, those in front of it first, and finds
the place between the two kinds. -/
theorem setPartialLoop_placed (done : List SparseMultilineTokens) (insertPosition : Option ℕ)
    {rest : List SparseMultilineTokens} (hvalid : ∀ piece ∈ rest, piece.Valid)
    (hsorted : (allTokens rest).Pairwise SparseToken.Precedes)
    (hafter : insertPosition.isSome = true →
      ∀ token ∈ apart range (allTokens rest), token.IsAfter range) :
    ∃ front back, Placed range done insertPosition rest front back := by
  induction rest generalizing done insertPosition with
  | nil => exact ⟨[], [], ⟨⟨rfl, by simp, by simp, by simp, by simp⟩,
      by simp [SparseTokensStore.setPartialLoop], by simp [SparseTokensStore.setPartialLoop]⟩⟩
  | cons piece rest ih =>
    rw [List.forall_mem_cons] at hvalid
    have hpairwise := hsorted
    rw [allTokens_cons, List.pairwise_append] at hpairwise
    rw [allTokens_cons, apart_append, List.forall_mem_append] at hafter
    by_cases hend : piece.startLineNumber ≤ range.endLineNumber
    · obtain ⟨front, back, hsides, hstep⟩ := setPartialLoop_cons hvalid.1 hpairwise.1 hend done
        insertPosition rest
      by_cases hback : back = []
      · subst hback
        rw [if_pos rfl, List.append_nil] at hstep
        obtain ⟨front', back', hplaced⟩ := ih (done ++ front) insertPosition hvalid.2
          hpairwise.2.1 fun hsome => (hafter hsome).2
        refine ⟨front ++ front', back', ?_, ?_, ?_⟩
        · rw [allTokens_cons, apart_append]
          exact hsides.append_front hplaced.sides
        · rw [hstep, hplaced.pieces_eq]
          simp
        · have hindex := hplaced.index_eq
          rw [hstep]
          simpa [Nat.add_assoc] using hindex
      · rw [if_neg hback] at hstep
        have hafter' : ∀ token ∈ apart range (allTokens rest), token.IsAfter range := by
          obtain ⟨behind, hbehind⟩ := List.exists_mem_of_ne_nil _ hback
          obtain ⟨first, hfirst⟩ := List.exists_mem_of_ne_nil _
            (hsides.back_valid behind hbehind).lineTokens_ne_nil
          have hmem : first ∈ allTokens back := List.mem_flatMap.mpr ⟨behind, hbehind, hfirst⟩
          have hold : first ∈ piece.lineTokens := by
            apply List.mem_of_mem_filter
            exact hsides.allTokens_eq ▸ List.mem_append_right _ hmem
          intro token ht
          exact (hsides.isAfter first hmem).mono (hpairwise.2.2 first hold token
            (List.mem_of_mem_filter ht))
        obtain ⟨front', back', hplaced⟩ := ih (done ++ (front ++ back))
          (some (insertPosition.getD (done.length + front.length))) hvalid.2 hpairwise.2.1
          fun _ => hafter'
        have hfront := hplaced.sides.front_eq_nil hafter'
        subst hfront
        refine ⟨front, back ++ back', ?_, ?_, ?_⟩
        · rw [allTokens_cons, apart_append]
          exact hsides.append_back hplaced.sides
        · rw [hstep, hplaced.pieces_eq]
          simp
        · have hindex := hplaced.index_eq
          rw [hstep]
          simpa using hindex
    · obtain ⟨first, hfirst⟩ := List.exists_mem_of_ne_nil _ hvalid.1.lineTokens_ne_nil
      have hle := hvalid.1.le_line hfirst
      have hle' := hvalid.1.line_le hpairwise.1 hfirst
      have hall : ∀ token ∈ allTokens (piece :: rest), token.IsAfter range := by
        have hpiece : ∀ token ∈ piece.lineTokens, token.IsAfter range := fun token ht =>
          SparseToken.isAfter_iff.mpr (.inl (lt_of_lt_of_le (not_le.mp hend)
            (hvalid.1.le_line ht)))
        rw [allTokens_cons, List.forall_mem_append]
        exact ⟨hpiece, fun token ht => (hpiece first hfirst).mono
          (hpairwise.2.2 first hfirst token ht)⟩
      have hloop : SparseTokensStore.setPartialLoop range done insertPosition (piece :: rest) =
          (done ++ piece :: rest, some (insertPosition.getD done.length)) := by
        have hrange := range.start_le_end
        rw [SparseTokensStore.setPartialLoop, if_neg (by omega), if_pos (not_le.mp hend)]
      refine ⟨[], piece :: rest, ?_, ?_, ?_⟩
      · rw [apart_eq_self fun token ht =>
          SparseToken.touches_eq_false_iff.mpr (.inr (hall token ht))]
        exact ⟨rfl, by simp, List.forall_mem_cons.mpr hvalid, by simp, hall⟩
      · rw [hloop, List.nil_append]
      · rw [hloop]
        rfl

theorem SparseToken.Precedes.refl (token : SparseToken) : token.Precedes token :=
  .inr ⟨rfl, le_rfl⟩

/-- The range of a piece starts no later than its first token and ends behind its last one. -/
theorem SparseMultilineTokens.Valid.exists_getRange (h : piece.Valid)
    (hsorted : piece.lineTokens.Pairwise SparseToken.Precedes) :
    ∃ r first last behind before, piece.getRange = some r ∧
      piece.lineTokens = first :: behind ∧ piece.lineTokens = before ++ [last] ∧
      r.startLineNumber ≤ first.deltaLine ∧ r.startColumn = first.startCharacter + 1 ∧
      r.endLineNumber = last.deltaLine ∧ r.endColumn = last.endCharacter + 1 := by
  obtain ⟨before, last, hlast⟩ := (List.eq_nil_or_concat' piece.tokens.tokens).resolve_left h.ne_nil
  obtain ⟨first, behind, hfirst⟩ := List.exists_cons_of_ne_nil h.ne_nil
  have hmem : last ∈ piece.tokens.tokens := by simp [hlast]
  have hfirstLine : first.shift piece.startLineNumber ∈ piece.lineTokens :=
    mem_lineTokens.mpr ⟨first, by simp [hfirst], rfl⟩
  have hprecedes : (first.shift piece.startLineNumber).Precedes
      (last.shift piece.startLineNumber) := by
    have hlines : last.shift piece.startLineNumber ∈ piece.lineTokens :=
      mem_lineTokens.mpr ⟨last, hmem, rfl⟩
    unfold SparseMultilineTokens.lineTokens at hlines hsorted
    rw [hfirst, List.map_cons] at hlines hsorted
    rcases List.mem_cons.mp hlines with heq | hin
    · rw [heq]
      exact .refl _
    · exact (List.pairwise_cons.mp hsorted).1 _ hin
  have hle := h.start_le_end last hmem
  have hnonneg := h.deltaLine_nonneg last hmem
  have hfirstNonneg := h.le_line hfirstLine
  unfold SparseToken.Precedes at hprecedes
  simp only [SparseToken.shift_deltaLine, SparseToken.shift_startCharacter] at hprecedes
  rw [SparseToken.shift_deltaLine] at hfirstNonneg
  refine ⟨⟨piece.startLineNumber, first.startCharacter + 1,
      piece.startLineNumber + last.deltaLine, last.endCharacter + 1, by omega⟩,
    first.shift piece.startLineNumber, last.shift piece.startLineNumber,
    behind.map (.shift piece.startLineNumber), before.map (.shift piece.startLineNumber),
    ?_, ?_, ?_, hfirstNonneg, rfl, add_comm .., rfl⟩
  · unfold SparseMultilineTokens.getRange SparseMultilineTokensStorage.getRange
    rw [hfirst, List.head?_cons, ← hfirst, hlast, List.getLast?_concat]
    dsimp only
    rw [Range.new_eq (by omega), Option.map_some, Range.new_eq (by dsimp only; omega)]
    simp
  · unfold SparseMultilineTokens.lineTokens
    rw [hfirst, List.map_cons]
  · unfold SparseMultilineTokens.lineTokens
    rw [hlast, List.map_append, List.map_singleton]

/-- The start of the token lies within the range. -/
def SparseToken.StartsIn (range : Range) (token : SparseToken) : Prop :=
  (range.startLineNumber < token.deltaLine ∨
    range.startLineNumber = token.deltaLine ∧ range.startColumn ≤ token.startCharacter + 1) ∧
  (token.deltaLine < range.endLineNumber ∨
    token.deltaLine = range.endLineNumber ∧ token.startCharacter + 1 ≤ range.endColumn)

/-- The range of an update takes in all of its tokens. -/
theorem effectiveRange_spec (range : Range) {pieces : List SparseMultilineTokens}
    (hvalid : ∀ piece ∈ pieces, piece.Valid)
    (hsorted : (allTokens pieces).Pairwise SparseToken.Precedes) :
    ∃ effective, SparseTokensStore.effectiveRange range pieces = some effective ∧
      ∀ token ∈ allTokens pieces, token.StartsIn effective := by
  rcases List.eq_nil_or_concat' pieces with rfl | ⟨initial, lastPiece, hlast⟩
  · exact ⟨range, rfl, by simp⟩
  obtain ⟨firstPiece, final, hfirst⟩ : ∃ firstPiece final, pieces = firstPiece :: final := by
    apply List.exists_cons_of_ne_nil
    simp [hlast]
  have hall : allTokens pieces = firstPiece.lineTokens ++ allTokens final := by
    rw [hfirst, allTokens_cons]
  have hall' : allTokens pieces = allTokens initial ++ lastPiece.lineTokens := by
    rw [hlast, allTokens_append, allTokens_cons, allTokens_nil, List.append_nil]
  have hfirstSorted := hsorted
  have hlastSorted := hsorted
  rw [hall, List.pairwise_append] at hfirstSorted
  rw [hall', List.pairwise_append] at hlastSorted
  obtain ⟨r, first, -, behind, -, hr, hcons, -, hline, hcolumn, -⟩ :=
    (hvalid firstPiece (by simp [hfirst])).exists_getRange hfirstSorted.1
  obtain ⟨r', -, last, -, before, hr', -, hconcat, -, -, hline', hcolumn'⟩ :=
    (hvalid lastPiece (by simp [hlast])).exists_getRange hlastSorted.2.1
  refine ⟨(range.plusRange r).plusRange r', ?_, ?_⟩
  · unfold SparseTokensStore.effectiveRange
    rw [hlast, List.getLast?_concat, ← hlast, hfirst, List.head?_cons]
    dsimp only
    rw [hr, hr']
  intro token ht
  obtain ⟨⟨hstart, -⟩, -, hend⟩ := Range.plusRange_covers (range.plusRange r) r'
  replace hstart := hstart.trans (Range.plusRange_covers range r).1.2
  have hafterFirst : first.Precedes token := by
    rw [hall, hcons, List.cons_append] at ht hsorted
    rcases List.mem_cons.mp ht with rfl | hin
    · exact .refl _
    · exact (List.pairwise_cons.mp hsorted).1 token hin
  have hbeforeLast : token.Precedes last := by
    rw [hall', hconcat, ← List.append_assoc] at ht hsorted
    rcases List.mem_append.mp ht with hin | hin
    · exact (List.pairwise_append.mp hsorted).2.2 token hin last (List.mem_singleton_self _)
    · rw [List.mem_singleton.mp hin]
      exact .refl _
  have hle : last.startCharacter ≤ last.endCharacter :=
    (hvalid lastPiece (by simp [hlast])).start_le (hconcat ▸ List.mem_append_right _ (by simp))
  unfold SparseToken.Precedes at hafterFirst hbeforeLast
  unfold Range.StartsBy at hstart
  unfold Range.EndsBy at hend
  unfold SparseToken.StartsIn
  omega

theorem SparseToken.IsBefore.precedes (h : token.IsBefore range) (h' : token'.StartsIn range)
    (hle : token.startCharacter ≤ token.endCharacter) : token.Precedes token' := by
  rw [SparseToken.isBefore_iff] at h
  unfold SparseToken.StartsIn at h'
  unfold SparseToken.Precedes
  omega

theorem SparseToken.StartsIn.precedes (h : token.StartsIn range) (h' : token'.IsAfter range) :
    token.Precedes token' := by
  rw [SparseToken.isAfter_iff] at h'
  unfold SparseToken.StartsIn at h
  unfold SparseToken.Precedes
  omega

/-- A partial update keeps the old tokens that do not touch its range, each of them once, and
puts the new ones between those in front of the range and those behind it. -/
theorem SparseTokensStore.setPartial_replaces (s : SparseTokensStore) (range : Range)
    (pieces : List SparseMultilineTokens) (hold : ∀ piece ∈ s.pieces, piece.Valid)
    (hsorted : (allTokens s.pieces).Pairwise SparseToken.Precedes)
    (hnew : ∀ piece ∈ pieces, piece.Valid)
    (hsorted' : (allTokens pieces).Pairwise SparseToken.Precedes) :
    ∃ effective, effectiveRange range pieces = some effective ∧
      (s.setPartial range pieces).2 = effective ∧
      (allTokens (s.setPartial range pieces).1.pieces).Perm
        (allTokens pieces ++ apart effective (allTokens s.pieces)) ∧
      (∀ piece ∈ (s.setPartial range pieces).1.pieces, piece.Valid) ∧
      (allTokens (s.setPartial range pieces).1.pieces).Pairwise SparseToken.Precedes := by
  obtain ⟨effective, heffective, hin⟩ := effectiveRange_spec range hnew hsorted'
  obtain ⟨front, back, hplaced⟩ := @setPartialLoop_placed effective [] none _ hold hsorted
    fun h => absurd h (by simp)
  have hsides := hplaced.sides
  have hpieces : (s.setPartial range pieces).1.pieces = front ++ (pieces ++ back) := by
    have hindex := hplaced.index_eq
    have heq := hplaced.pieces_eq
    rw [List.nil_append] at hindex heq
    unfold setPartial
    rw [heffective]
    dsimp only
    rw [heq, hindex, Option.getD_none, List.length_nil, Nat.zero_add]
    cases pieces with
    | nil => rw [List.isEmpty_nil, if_pos rfl, List.nil_append]
    | cons piece pieces =>
      rw [List.isEmpty_cons, if_neg Bool.false_ne_true]
      dsimp only
      rw [List.take_left, List.drop_left, List.append_assoc]
  have hrange : (s.setPartial range pieces).2 = effective := by
    unfold setPartial
    rw [heffective]
    dsimp only
    split_ifs <;> rfl
  have hle : ∀ token ∈ allTokens front, token.startCharacter ≤ token.endCharacter := by
    intro token ht
    obtain ⟨piece, hpiece, hmem⟩ := List.mem_flatMap.mp ht
    exact (hsides.front_valid piece hpiece).start_le hmem
  have hkept : (allTokens front ++ allTokens back).Pairwise SparseToken.Precedes := by
    rw [hsides.allTokens_eq]
    exact hsorted.sublist List.filter_sublist
  rw [List.pairwise_append] at hkept
  refine ⟨effective, heffective, hrange, ?_, ?_, ?_⟩
  · rw [hpieces, allTokens_append, allTokens_append, ← hsides.allTokens_eq]
    exact List.perm_append_comm_assoc ..
  · rw [hpieces, List.forall_mem_append, List.forall_mem_append]
    exact ⟨hsides.front_valid, hnew, hsides.back_valid⟩
  · rw [hpieces, allTokens_append, allTokens_append, List.pairwise_append, List.pairwise_append]
    refine ⟨hkept.1, ⟨hsorted', hkept.2.1, ?_⟩, ?_⟩
    · intro token ht token' ht'
      exact (hin token ht).precedes (hsides.isAfter token' ht')
    · intro token ht token' ht'
      rcases List.mem_append.mp ht' with h | h
      · exact (hsides.isBefore token ht).precedes (hin token' h) (hle token ht)
      · exact hkept.2.2 token ht token' h

end Pieces

/-- A piece over five lines is split around the third one. -/
theorem SparseTokensStore.setPartial_replaces_middle :
    let first : SparseToken := ⟨0, 2, 4, 1⟩
    let last : SparseToken := ⟨4, 0, 3, 2⟩
    let old : SparseMultilineTokens := .create 1 ⟨[first, ⟨2, 1, 5, 3⟩, last]⟩
    let new : SparseMultilineTokens := .create 3 ⟨[⟨0, 0, 6, 4⟩]⟩
    (allTokens ((⟨[old], true⟩ : SparseTokensStore).setPartial (.new 3 1 3 5) [new]).1.pieces).Perm
      [⟨3, 0, 6, 4⟩, ⟨1, 2, 4, 1⟩, ⟨5, 0, 3, 2⟩] := by
  intro first last old new
  obtain ⟨effective, heffective, -, hperm, -, -⟩ := SparseTokensStore.setPartial_replaces
    ⟨[old], true⟩ (.new 3 1 3 5) [new]
    (by
      rintro piece (_ | ⟨_, ⟨⟩⟩)
      exact ⟨by decide, by decide, by decide, by decide⟩)
    (by decide)
    (by
      rintro piece (_ | ⟨_, ⟨⟩⟩)
      exact ⟨by decide, by decide, by decide, by decide⟩)
    (by decide)
  have heq : effective = .new 3 1 3 7 := Option.some.inj (heffective.symm.trans (by decide))
  subst heq
  exact hperm.trans (by decide)

end NexgileIde.Tokens
