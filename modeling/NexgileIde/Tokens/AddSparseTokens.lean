import NexgileIde.Text.CodeUnits
import NexgileIde.Tokens.SparseMultilineTokens

/-!
# Semantic tokens over the syntax tokens of a line

Both lists of tokens are run through side by side. The syntax tokens are valid, the semantic
ones need not be, so that their ends are clamped to the line and an end that is not behind
the last one is dropped.
-/
namespace NexgileIde.Tokens

open Text (Str)

/-- An end offset and the metadata of the text before it. -/
structure LineToken where
  endOffset : ℤ
  metadata : BitVec 32
  deriving DecidableEq, Repr

structure LineTokens where
  tokens : List LineToken
  text : Str
  deriving DecidableEq, Repr

namespace LineTokens

def getTextLength (t : LineTokens) : ℤ := t.text.length

def getCount (t : LineTokens) : ℕ := t.tokens.length

def getEndOffset (t : LineTokens) (tokenIndex : ℕ) : ℤ :=
  (t.tokens[tokenIndex]?).elim 0 (·.endOffset)

def getStartOffset (t : LineTokens) (tokenIndex : ℕ) : ℤ :=
  if tokenIndex > 0 then t.getEndOffset (tokenIndex - 1) else 0

def getMetadata (t : LineTokens) (tokenIndex : ℕ) : BitVec 32 :=
  (t.tokens[tokenIndex]?).elim 0 (·.metadata)

end LineTokens

namespace MetadataConsts

def ITALIC_MASK : BitVec 32 := 0b00000000_00000000_00001000_00000000#32
def BOLD_MASK : BitVec 32 := 0b00000000_00000000_00010000_00000000#32
def UNDERLINE_MASK : BitVec 32 := 0b00000000_00000000_00100000_00000000#32
def STRIKETHROUGH_MASK : BitVec 32 := 0b00000000_00000000_01000000_00000000#32
def FOREGROUND_MASK : BitVec 32 := 0b00000000_11111111_10000000_00000000#32
def BACKGROUND_MASK : BitVec 32 := 0b11111111_00000000_00000000_00000000#32
def SEMANTIC_USE_ITALIC : BitVec 32 := 0b00000000_00000000_00000000_00000001#32
def SEMANTIC_USE_BOLD : BitVec 32 := 0b00000000_00000000_00000000_00000010#32
def SEMANTIC_USE_UNDERLINE : BitVec 32 := 0b00000000_00000000_00000000_00000100#32
def SEMANTIC_USE_STRIKETHROUGH : BitVec 32 := 0b00000000_00000000_00000000_00001000#32
def SEMANTIC_USE_FOREGROUND : BitVec 32 := 0b00000000_00000000_00000000_00010000#32
def SEMANTIC_USE_BACKGROUND : BitVec 32 := 0b00000000_00000000_00000000_00100000#32

end MetadataConsts

open MetadataConsts

/-- `(metadata & use) ? mask : 0` -/
def maskWhere (metadata use mask : BitVec 32) : BitVec 32 := if metadata &&& use ≠ 0 then mask else 0

/-- The bits that a semantic token sets. -/
def bMask (bMetadata : BitVec 32) : BitVec 32 :=
  maskWhere bMetadata SEMANTIC_USE_ITALIC ITALIC_MASK |||
    maskWhere bMetadata SEMANTIC_USE_BOLD BOLD_MASK |||
    maskWhere bMetadata SEMANTIC_USE_UNDERLINE UNDERLINE_MASK |||
    maskWhere bMetadata SEMANTIC_USE_STRIKETHROUGH STRIKETHROUGH_MASK |||
    maskWhere bMetadata SEMANTIC_USE_FOREGROUND FOREGROUND_MASK |||
    maskWhere bMetadata SEMANTIC_USE_BACKGROUND BACKGROUND_MASK

/-- `(aMetadata & aMask) | (bMetadata & bMask)` -/
def mixMetadata (bMetadata aMetadata : BitVec 32) : BitVec 32 :=
  (aMetadata &&& ~~~ bMask bMetadata) ||| (bMetadata &&& bMask bMetadata)

/-- The variables of `addSparseTokens`. -/
structure Emission where
  aIndex : ℕ
  result : List LineToken
  lastEndOffset : ℤ

def Emission.emitToken (st : Emission) (endOffset : ℤ) (metadata : BitVec 32) : Emission :=
  if endOffset ≤ st.lastEndOffset then st
  else { st with result := st.result ++ [⟨endOffset, metadata⟩], lastEndOffset := endOffset }

/-- One turn of the loops that push tokens of `a`. -/
def Emission.pushToken (f : BitVec 32 → BitVec 32) (st : Emission) (a : LineToken) : Emission :=
  { st.emitToken a.endOffset (f a.metadata) with aIndex := st.aIndex + 1 }

/-- `while (aIndex < aLen && test(aTokens.getEndOffset(aIndex)))` -/
def Emission.pushWhile (st : Emission) (aTokens : LineTokens) (test : ℤ → Bool)
    (f : BitVec 32 → BitVec 32) : Emission :=
  ((aTokens.tokens.drop st.aIndex).takeWhile (test ·.endOffset)).foldl (pushToken f) st

/-- The part of the loop body behind the tokens that are contained in a token of `b`. -/
def Emission.pushEnd (st : Emission) (aTokens : LineTokens) (bEndCharacter : ℤ)
    (bMetadata : BitVec 32) : Emission :=
  if st.aIndex < aTokens.getCount then
    let pushed := st.emitToken bEndCharacter (mixMetadata bMetadata (aTokens.getMetadata st.aIndex))
    if aTokens.getEndOffset st.aIndex = bEndCharacter then
      { pushed with aIndex := pushed.aIndex + 1 }
    else pushed
  else
    -- `st.aIndex - 1` and `aLen - 1` are natural numbers, hence the maximum with zero
    let aMergeIndex := min (st.aIndex - 1) (aTokens.getCount - 1)
    st.emitToken bEndCharacter (mixMetadata bMetadata (aTokens.getMetadata aMergeIndex))

/-- One turn of the loop over the tokens of `b`. -/
def Emission.addToken (aTokens : LineTokens) (st : Emission) (b : SparseToken) : Emission :=
  let bStartCharacter := min b.startCharacter aTokens.getTextLength
  let bEndCharacter := min b.endCharacter aTokens.getTextLength
  -- push any token from `a` that is before `b`
  let st := st.pushWhile aTokens (· ≤ bStartCharacter) id
  -- push the token from `a` if it intersects the token from `b`
  let st :=
    if st.aIndex < aTokens.getCount ∧ aTokens.getStartOffset st.aIndex < bStartCharacter then
      st.emitToken bStartCharacter (aTokens.getMetadata st.aIndex)
    else st
  -- skip any tokens from `a` that are contained inside `b`
  let st := st.pushWhile aTokens (· < bEndCharacter) (mixMetadata b.metadata)
  st.pushEnd aTokens bEndCharacter b.metadata

def mergeTokens (aTokens : LineTokens) (bTokens : List SparseToken) : LineTokens :=
  let st := bTokens.foldl (Emission.addToken aTokens) ⟨0, [], 0⟩
  -- push the remaining tokens from `a`
  ⟨(st.pushWhile aTokens (fun _ => true) id).result, aTokens.text⟩

structure SparseTokensStore where
  pieces : List SparseMultilineTokens
  isComplete : Bool
  deriving DecidableEq, Repr

namespace SparseTokensStore

/-- The inner loop of `_findFirstPieceWithLine`. -/
def walkDown (pieces : List SparseMultilineTokens) (lineNumber : ℤ) (low : ℕ) : ℕ → ℕ
  | 0 => 0
  | mid + 1 =>
    if low < mid + 1 ∧ (pieces[mid]?).any fun piece =>
        piece.startLineNumber ≤ lineNumber ∧ lineNumber ≤ piece.endLineNumber then
      walkDown pieces lineNumber low mid
    else mid + 1

/-- The loop of `_findFirstPieceWithLine`, where one turn takes one unit of fuel. -/
def findFirstPieceWithLineLoop (pieces : List SparseMultilineTokens) (lineNumber : ℤ) :
    ℕ → ℤ → ℤ → ℤ
  | 0, low, _ => low
  | fuel + 1, low, high =>
    if low < high then
      let mid := low + (high - low) / 2
      match pieces[mid.toNat]? with
      | none => low
      | some piece =>
        if piece.endLineNumber < lineNumber then
          findFirstPieceWithLineLoop pieces lineNumber fuel (mid + 1) high
        else if piece.startLineNumber > lineNumber then
          findFirstPieceWithLineLoop pieces lineNumber fuel low (mid - 1)
        else walkDown pieces lineNumber low.toNat mid.toNat
    else low

def findFirstPieceWithLine (pieces : List SparseMultilineTokens) (lineNumber : ℤ) : ℤ :=
  findFirstPieceWithLineLoop pieces lineNumber pieces.length 0 (pieces.length - 1)

/-- The tokens of `b` that `addSparseTokens` finds, if there are any. -/
def findLineTokens (s : SparseTokensStore) (lineNumber : ℤ) : Option (List SparseToken) :=
  match s.pieces[(findFirstPieceWithLine s.pieces lineNumber).toNat]? with
  | some piece => piece.getLineTokens lineNumber
  | none => none

def addSparseTokens (s : SparseTokensStore) (lineNumber : ℤ) (aTokens : LineTokens) : LineTokens :=
  if aTokens.getTextLength = 0 then aTokens
  else if s.pieces.isEmpty then aTokens
  else
    match s.findLineTokens lineNumber with
    | none => aTokens
    | some bTokens => mergeTokens aTokens bTokens

end SparseTokensStore

/-- The ends increase, and the last one is the length of the line. -/
def LineTokens.Valid (t : LineTokens) : Prop :=
  (t.tokens.Pairwise fun a a' => a.endOffset < a'.endOffset) ∧
    t.tokens.getLast?.map (·.endOffset) = some t.getTextLength

instance LineTokens.decidableValid (t : LineTokens) : Decidable t.Valid :=
  inferInstanceAs (Decidable (_ ∧ _))

/-- The metadata of the character at an offset. -/
def metadataAt (tokens : List LineToken) (offset : ℤ) : Option (BitVec 32) :=
  (tokens.find? (offset < ·.endOffset)).map (·.metadata)

section Lookup

variable {front rest : List LineToken} {a : LineToken} {i : ℤ}

theorem metadataAt_append_left (h : (metadataAt front i).isSome) :
    metadataAt (front ++ rest) i = metadataAt front i := by
  unfold metadataAt at h ⊢
  rw [Option.isSome_map] at h
  obtain ⟨t, ht⟩ := Option.isSome_iff_exists.mp h
  rw [List.find?_append, ht, Option.some_or]

theorem metadataAt_append_cons (hfront : ∀ t ∈ front, t.endOffset ≤ i) (ha : i < a.endOffset) :
    metadataAt (front ++ a :: rest) i = some a.metadata := by
  have hnone : front.find? (i < ·.endOffset) = none := by
    rw [List.find?_eq_none]
    intro t ht
    have := hfront t ht
    simpa using this
  unfold metadataAt
  rw [List.find?_append, hnone, Option.none_or, List.find?_cons_of_pos (by simpa using ha)]
  rfl

end Lookup

/-- The tokens emitted so far, where every character has metadata that the law allows. -/
structure Emission.Paints (law : ℤ → BitVec 32 → Prop) (st : Emission) : Prop where
  sorted : st.result.Pairwise fun a a' => a.endOffset < a'.endOffset
  ends_le : ∀ t ∈ st.result, t.endOffset ≤ st.lastEndOffset
  last_eq : (st.result.getLast?).elim 0 (·.endOffset) = st.lastEndOffset
  nonneg : 0 ≤ st.lastEndOffset
  painted : ∀ i, 0 ≤ i → i < st.lastEndOffset → ∃ m, metadataAt st.result i = some m ∧ law i m

/-- The tokens of `a` that have been used end at or before the last emitted end. -/
structure Emission.Cursor (aTokens : LineTokens) (st : Emission) : Prop where
  used_le : ∀ t ∈ aTokens.tokens.take st.aIndex, t.endOffset ≤ st.lastEndOffset
  le_length : st.lastEndOffset ≤ aTokens.getTextLength

namespace Emission

variable {law : ℤ → BitVec 32 → Prop} {aTokens : LineTokens} {st : Emission}

theorem emitToken_last (st : Emission) (endOffset : ℤ) (metadata : BitVec 32) :
    (st.emitToken endOffset metadata).lastEndOffset = max st.lastEndOffset endOffset := by
  unfold emitToken
  split_ifs with h
  · exact (max_eq_left h).symm
  · exact (max_eq_right (not_le.mp h).le).symm

theorem emitToken_aIndex (st : Emission) (endOffset : ℤ) (metadata : BitVec 32) :
    (st.emitToken endOffset metadata).aIndex = st.aIndex := by
  unfold emitToken
  split_ifs <;> rfl

theorem Paints.emitToken (h : st.Paints law) {endOffset : ℤ} {metadata : BitVec 32}
    (hlaw : ∀ i, st.lastEndOffset ≤ i → i < endOffset → law i metadata) :
    (st.emitToken endOffset metadata).Paints law := by
  unfold Emission.emitToken
  split_ifs with hle
  · exact h
  · have hnonneg := h.nonneg
    refine ⟨?_, ?_, ?_, ?_, ?_⟩
    · refine List.pairwise_append.mpr ⟨h.sorted, List.pairwise_singleton _ _, ?_⟩
      intro t ht t' ht'
      obtain rfl := List.mem_singleton.mp ht'
      exact (h.ends_le t ht).trans_lt (not_le.mp hle)
    · intro t ht
      rcases List.mem_append.mp ht with ht | ht
      · exact (h.ends_le t ht).trans (not_le.mp hle).le
      · obtain rfl := List.mem_singleton.mp ht
        exact le_rfl
    · simp
    · dsimp only
      omega
    · intro i hi hlt
      rcases lt_or_ge i st.lastEndOffset with hold | hnew
      · obtain ⟨m, hm, hlawm⟩ := h.painted i hi hold
        refine ⟨m, ?_, hlawm⟩
        dsimp only
        rw [metadataAt_append_left (by rw [hm]; rfl), hm]
      · refine ⟨metadata, ?_, hlaw i hnew hlt⟩
        exact metadataAt_append_cons (fun t ht => (h.ends_le t ht).trans hnew) hlt

theorem Cursor.emitToken (h : st.Cursor aTokens) {endOffset : ℤ} (metadata : BitVec 32)
    (hend : endOffset ≤ aTokens.getTextLength) :
    (st.emitToken endOffset metadata).Cursor aTokens where
  used_le t ht := by
    rw [emitToken_aIndex] at ht
    rw [emitToken_last]
    exact (h.used_le t ht).trans (le_max_left _ _)
  le_length := by
    rw [emitToken_last]
    exact max_le h.le_length hend

/-- The first token of `a` that is not used yet has the character behind the last end. -/
theorem Cursor.metadataAt_eq (h : st.Cursor aTokens) {a : LineToken} {rest : List LineToken}
    (hdrop : aTokens.tokens.drop st.aIndex = a :: rest) {i : ℤ} (hi : st.lastEndOffset ≤ i)
    (ha : i < a.endOffset) : metadataAt aTokens.tokens i = some a.metadata := by
  rw [← List.take_append_drop st.aIndex aTokens.tokens, hdrop]
  exact metadataAt_append_cons (fun t ht => (h.used_le t ht).trans hi) ha

/-- The invariant of the loops; `rest` are the tokens of `a` that are not used yet. -/
structure Reaches (law : ℤ → BitVec 32 → Prop) (aTokens : LineTokens) (st : Emission)
    (rest : List LineToken) : Prop where
  paints : st.Paints law
  cursor : st.Cursor aTokens
  drop_eq : aTokens.tokens.drop st.aIndex = rest

theorem Reaches.pushToken {f : BitVec 32 → BitVec 32} {a : LineToken} {rest : List LineToken}
    (h : Reaches law aTokens st (a :: rest)) (hend : a.endOffset ≤ aTokens.getTextLength)
    (hlaw : ∀ i m, st.lastEndOffset ≤ i → i < a.endOffset →
      metadataAt aTokens.tokens i = some m → law i (f m)) :
    Reaches law aTokens (st.pushToken f a) rest := by
  have hmem : aTokens.tokens[st.aIndex]? = some a := by
    have hhead := congrArg List.head? h.drop_eq
    rwa [List.head?_drop] at hhead
  refine ⟨?_, ⟨?_, (h.cursor.emitToken _ hend).le_length⟩, ?_⟩
  · have hpaints : (st.emitToken a.endOffset (f a.metadata)).Paints law := h.paints.emitToken
      fun i hi hlt => hlaw i _ hi hlt (h.cursor.metadataAt_eq h.drop_eq hi hlt)
    exact ⟨hpaints.sorted, hpaints.ends_le, hpaints.last_eq, hpaints.nonneg, hpaints.painted⟩
  · intro t ht
    have hlast := emitToken_last st a.endOffset (f a.metadata)
    show t.endOffset ≤ (st.emitToken a.endOffset (f a.metadata)).lastEndOffset
    rw [hlast]
    change t ∈ aTokens.tokens.take (st.aIndex + 1) at ht
    rw [List.take_add_one, hmem] at ht
    rcases List.mem_append.mp ht with ht | ht
    · exact (h.cursor.used_le t ht).trans (le_max_left _ _)
    · obtain rfl := List.mem_singleton.mp ht
      exact le_max_right _ _
  · show aTokens.tokens.drop (st.aIndex + 1) = rest
    rw [← List.drop_drop, h.drop_eq]
    rfl

theorem pushToken_last (f : BitVec 32 → BitVec 32) (st : Emission) (a : LineToken) :
    (st.pushToken f a).lastEndOffset = max st.lastEndOffset a.endOffset :=
  emitToken_last st a.endOffset (f a.metadata)

theorem Reaches.pushTokens {f : BitVec 32 → BitVec 32} {run rest : List LineToken} {bound : ℤ}
    (h : Reaches law aTokens st (run ++ rest)) (hbound : ∀ a ∈ run, a.endOffset ≤ bound)
    (hend : ∀ a ∈ run, a.endOffset ≤ aTokens.getTextLength)
    (hlaw : ∀ i m, st.lastEndOffset ≤ i → i < bound →
      metadataAt aTokens.tokens i = some m → law i (f m)) :
    Reaches law aTokens (run.foldl (Emission.pushToken f) st) rest ∧
      st.lastEndOffset ≤ (run.foldl (Emission.pushToken f) st).lastEndOffset ∧
      (run.foldl (Emission.pushToken f) st).lastEndOffset ≤ max st.lastEndOffset bound := by
  induction run generalizing st with
  | nil => exact ⟨h, le_rfl, le_max_left _ _⟩
  | cons a run ih =>
    rw [List.forall_mem_cons] at hbound hend
    have hstep := h.pushToken (f := f) hend.1 fun i m hi hlt =>
      hlaw i m hi (hlt.trans_le hbound.1)
    have hlast := pushToken_last f st a
    obtain ⟨hreaches, hle, hmax⟩ := ih hstep hbound.2 hend.2 fun i m hi hlt =>
      hlaw i m (by omega) hlt
    rw [List.foldl_cons]
    refine ⟨hreaches, by omega, ?_⟩
    have := hbound.1
    omega

/-- A loop that pushes tokens of `a` stops in front of the first one that fails its test. -/
theorem Reaches.pushWhile {f : BitVec 32 → BitVec 32} {p : ℤ → Bool} {B : ℤ}
    {rest : List LineToken} (h : Reaches law aTokens st rest)
    (hbound : ∀ a ∈ aTokens.tokens, p a.endOffset = true → a.endOffset ≤ B)
    (hend : ∀ a ∈ aTokens.tokens, a.endOffset ≤ aTokens.getTextLength)
    (hlaw : ∀ i m, st.lastEndOffset ≤ i → i < B →
      metadataAt aTokens.tokens i = some m → law i (f m)) :
    Reaches law aTokens (st.pushWhile aTokens p f) (rest.dropWhile (p ·.endOffset)) ∧
      st.lastEndOffset ≤ (st.pushWhile aTokens p f).lastEndOffset ∧
      (st.pushWhile aTokens p f).lastEndOffset ≤ max st.lastEndOffset B := by
  have hmem : ∀ a ∈ rest.takeWhile (p ·.endOffset), a ∈ aTokens.tokens := by
    intro a ha
    have hrest := List.takeWhile_subset _ ha
    rw [← h.drop_eq] at hrest
    exact List.mem_of_mem_drop hrest
  unfold Emission.pushWhile
  rw [h.drop_eq]
  refine Reaches.pushTokens ?_ ?_ (fun a ha => hend a (hmem a ha)) hlaw
  · rw [List.takeWhile_append_dropWhile]
    exact h
  · intro a ha
    exact hbound a (hmem a ha)
      (List.mem_takeWhile_imp (p := fun a : LineToken => p a.endOffset) ha)

theorem Reaches.getEndOffset_eq {rest : List LineToken} {a : LineToken}
    (h : Reaches law aTokens st (a :: rest)) :
    st.aIndex < aTokens.getCount ∧ aTokens.getEndOffset st.aIndex = a.endOffset ∧
      aTokens.getMetadata st.aIndex = a.metadata := by
  have hhead := congrArg List.head? h.drop_eq
  rw [List.head?_drop, List.head?_cons] at hhead
  unfold LineTokens.getCount LineTokens.getEndOffset LineTokens.getMetadata
  rw [hhead]
  exact ⟨(List.getElem?_eq_some_iff.mp hhead).1, rfl, rfl⟩

theorem Reaches.not_lt_getCount (h : Reaches law aTokens st []) : ¬ st.aIndex < aTokens.getCount := by
  have hlength := List.drop_eq_nil_iff.mp h.drop_eq
  unfold LineTokens.getCount
  omega

/-- When all tokens of `a` have been used, the line has been covered. -/
theorem Reaches.last_eq (h : Reaches law aTokens st []) (hvalid : aTokens.Valid) :
    st.lastEndOffset = aTokens.getTextLength := by
  obtain ⟨a, ha, hlast⟩ := Option.map_eq_some_iff.mp hvalid.2
  have hused := h.cursor.used_le a (by
    rw [List.take_of_length_le (List.drop_eq_nil_iff.mp h.drop_eq)]
    exact List.mem_of_getLast? ha)
  have hle := h.cursor.le_length
  omega

theorem Reaches.getStartOffset_le {rest : List LineToken} (h : Reaches law aTokens st rest)
    (hindex : st.aIndex < aTokens.getCount) :
    aTokens.getStartOffset st.aIndex ≤ st.lastEndOffset := by
  unfold LineTokens.getStartOffset
  split_ifs with hpos
  · obtain ⟨k, hk⟩ : ∃ k, st.aIndex = k + 1 := ⟨st.aIndex - 1, by omega⟩
    unfold LineTokens.getCount at hindex
    rw [hk] at hindex ⊢
    have hget : aTokens.tokens[k]? = some aTokens.tokens[k] := List.getElem?_eq_getElem (by omega)
    unfold LineTokens.getEndOffset
    rw [Nat.add_sub_cancel, hget]
    refine h.cursor.used_le _ (List.mem_take_iff_getElem.mpr ⟨k, by omega, rfl⟩)
  · exact h.paints.nonneg

theorem ends_le_of_valid (h : aTokens.Valid) :
    ∀ a ∈ aTokens.tokens, a.endOffset ≤ aTokens.getTextLength := by
  obtain ⟨hsorted, hlast⟩ := h
  obtain ⟨last, hlast, hlength⟩ := Option.map_eq_some_iff.mp hlast
  obtain ⟨front, heq⟩ := List.getLast?_eq_some_iff.mp hlast
  rw [heq, List.pairwise_append] at hsorted
  rw [← hlength, heq]
  intro a ha
  rcases List.mem_append.mp ha with ha | ha
  · exact (hsorted.2.2 a ha last (List.mem_singleton_self _)).le
  · obtain rfl := List.mem_singleton.mp ha
    exact le_rfl

/-- The part of a token of `a` in front of a token of `b`. -/
theorem Reaches.pushIntersecting {rest : List LineToken} (h : Reaches law aTokens st rest)
    (hvalid : aTokens.Valid) {bStart : ℤ} (hlength : bStart ≤ aTokens.getTextLength)
    (hrest : ∀ a ∈ rest.head?, bStart < a.endOffset)
    (hlaw : ∀ i m, st.lastEndOffset ≤ i → i < bStart →
      metadataAt aTokens.tokens i = some m → law i m) :
    let st' :=
      if st.aIndex < aTokens.getCount ∧ aTokens.getStartOffset st.aIndex < bStart then
        st.emitToken bStart (aTokens.getMetadata st.aIndex)
      else st
    Reaches law aTokens st' rest ∧ st.lastEndOffset ≤ st'.lastEndOffset ∧
      bStart ≤ st'.lastEndOffset ∧ st'.lastEndOffset ≤ max st.lastEndOffset bStart := by
  intro st'
  cases rest with
  | nil =>
    have hst' : st' = st := if_neg fun hif => h.not_lt_getCount hif.1
    rw [hst', h.last_eq hvalid]
    exact ⟨h, le_rfl, hlength, le_max_left _ _⟩
  | cons a rest =>
    obtain ⟨hindex, -, hmetadata⟩ := h.getEndOffset_eq
    have hstart := h.getStartOffset_le hindex
    have hend := hrest a rfl
    by_cases hif : aTokens.getStartOffset st.aIndex < bStart
    · have hst' : st' = st.emitToken bStart (aTokens.getMetadata st.aIndex) := if_pos ⟨hindex, hif⟩
      have hlast := emitToken_last st bStart (aTokens.getMetadata st.aIndex)
      rw [hst', hlast]
      refine ⟨⟨h.paints.emitToken ?_, h.cursor.emitToken _ hlength, ?_⟩, by omega, by omega, le_rfl⟩
      · intro i hi hlt
        rw [hmetadata]
        exact hlaw i _ hi hlt (h.cursor.metadataAt_eq h.drop_eq hi (by omega))
      · rw [emitToken_aIndex]
        exact h.drop_eq
    · have hst' : st' = st := if_neg fun hand => hif hand.2
      rw [hst']
      exact ⟨h, le_rfl, by omega, le_max_left _ _⟩

/-- The end of a token of `b`. -/
theorem Reaches.pushEnd {rest : List LineToken} (h : Reaches law aTokens st rest)
    (hvalid : aTokens.Valid) {bEnd : ℤ} (bMetadata : BitVec 32)
    (hlength : bEnd ≤ aTokens.getTextLength) (hrest : ∀ a ∈ rest.head?, bEnd ≤ a.endOffset)
    (hlaw : ∀ i m, st.lastEndOffset ≤ i → i < bEnd →
      metadataAt aTokens.tokens i = some m → law i (mixMetadata bMetadata m)) :
    ∃ rest', Reaches law aTokens (st.pushEnd aTokens bEnd bMetadata) rest' ∧
      (st.pushEnd aTokens bEnd bMetadata).lastEndOffset = max st.lastEndOffset bEnd := by
  unfold Emission.pushEnd
  cases rest with
  | nil =>
    have hlast := h.last_eq hvalid
    rw [if_neg h.not_lt_getCount]
    unfold Emission.emitToken
    rw [if_pos (by omega)]
    exact ⟨[], h, by omega⟩
  | cons a rest =>
    obtain ⟨hindex, hendOffset, hmetadata⟩ := h.getEndOffset_eq
    have hend := hrest a rfl
    rw [if_pos hindex, hendOffset, hmetadata]
    dsimp only
    have hlawa : ∀ i m, st.lastEndOffset ≤ i → i < bEnd →
        metadataAt aTokens.tokens i = some m → law i (mixMetadata bMetadata m) := hlaw
    split_ifs with heq
    · refine ⟨rest, ?_, emitToken_last st bEnd _⟩
      have hpush := h.pushToken (f := mixMetadata bMetadata) (by omega) (by rwa [heq])
      unfold Emission.pushToken at hpush
      rw [heq, ← emitToken_aIndex st bEnd (mixMetadata bMetadata a.metadata)] at hpush
      exact hpush
    · refine ⟨a :: rest, ⟨h.paints.emitToken ?_, h.cursor.emitToken _ hlength, ?_⟩,
        emitToken_last st bEnd _⟩
      · intro i hi hlt
        exact hlaw i _ hi hlt (h.cursor.metadataAt_eq h.drop_eq hi (by omega))
      · rw [emitToken_aIndex]
        exact h.drop_eq

theorem head_dropWhile (rest : List LineToken) (test : ℤ → Bool) :
    ∀ a ∈ (rest.dropWhile (test ·.endOffset)).head?, test a.endOffset = false := by
  intro a ha
  have hnot := List.head?_dropWhile_not (fun a : LineToken => test a.endOffset) rest
  rw [Option.mem_def.mp ha] at hnot
  exact hnot

/-- One token of `b` is laid over the tokens of `a`. -/
theorem Reaches.addToken {rest : List LineToken} (h : Reaches law aTokens st rest)
    (hvalid : aTokens.Valid) (b : SparseToken)
    (hbefore : ∀ i m, st.lastEndOffset ≤ i → i < min b.startCharacter aTokens.getTextLength →
      metadataAt aTokens.tokens i = some m → law i m)
    (hin : ∀ i m, 0 ≤ i → min b.startCharacter aTokens.getTextLength ≤ i →
      i < min b.endCharacter aTokens.getTextLength →
      metadataAt aTokens.tokens i = some m → law i (mixMetadata b.metadata m)) :
    ∃ rest', Reaches law aTokens (st.addToken aTokens b) rest' ∧
      min b.endCharacter aTokens.getTextLength ≤ (st.addToken aTokens b).lastEndOffset ∧
      (st.addToken aTokens b).lastEndOffset ≤
        max st.lastEndOffset (max (min b.startCharacter aTokens.getTextLength)
          (min b.endCharacter aTokens.getTextLength)) := by
  have hstartLength := min_le_right b.startCharacter aTokens.getTextLength
  have hendLength := min_le_right b.endCharacter aTokens.getTextLength
  unfold Emission.addToken
  dsimp only
  generalize min b.startCharacter aTokens.getTextLength = bStart at *
  generalize min b.endCharacter aTokens.getTextLength = bEnd at *
  obtain ⟨h1, hle1, hmax1⟩ := h.pushWhile (f := id) (p := (· ≤ bStart)) (B := bStart)
    (fun a _ htest => by simpa using htest) (ends_le_of_valid hvalid) hbefore
  have hhead1 := head_dropWhile rest (· ≤ bStart)
  generalize st.pushWhile aTokens (· ≤ bStart) id = st1 at *
  generalize rest.dropWhile _ = rest1 at *
  obtain ⟨h2, hle2, hstart2, hmax2⟩ := h1.pushIntersecting hvalid hstartLength
    (fun a ha => by simpa using hhead1 a ha) fun i m hi hlt => hbefore i m (by omega) hlt
  generalize (if st1.aIndex < aTokens.getCount ∧ aTokens.getStartOffset st1.aIndex < bStart then
    st1.emitToken bStart (aTokens.getMetadata st1.aIndex) else st1) = st2 at *
  have hnonneg := h2.paints.nonneg
  obtain ⟨h3, hle3, hmax3⟩ := h2.pushWhile (f := mixMetadata b.metadata) (p := (· < bEnd)) (B := bEnd)
    (fun a _ htest => by simpa using (of_decide_eq_true htest).le) (ends_le_of_valid hvalid)
    fun i m hi hlt => hin i m (by omega) (by omega) hlt
  have hhead3 := head_dropWhile rest1 (· < bEnd)
  generalize st2.pushWhile aTokens (· < bEnd) (mixMetadata b.metadata) = st3 at *
  generalize rest1.dropWhile _ = rest3 at *
  obtain ⟨rest4, h4, hlast4⟩ := h3.pushEnd hvalid b.metadata hendLength
    (fun a ha => by simpa using hhead3 a ha) fun i m hi hlt => hin i m (by omega) (by omega) hlt
  refine ⟨rest4, h4, by omega, by omega⟩

end Emission

/-- The token covers the character at an offset. -/
def SparseToken.Covers (b : SparseToken) (i : ℤ) : Prop := b.startCharacter ≤ i ∧ i < b.endCharacter

instance (b : SparseToken) (i : ℤ) : Decidable (b.Covers i) := inferInstanceAs (Decidable (_ ∧ _))

/-- The metadata `m` of a character under the semantic token that covers it. -/
def overlay (bTokens : List SparseToken) (i : ℤ) (m : BitVec 32) : BitVec 32 :=
  match bTokens.find? (·.Covers i) with
  | some b => mixMetadata b.metadata m
  | none => m

/-- The tokens of a line are sorted and disjoint. -/
def SortedOnLine (bTokens : List SparseToken) : Prop :=
  (∀ b ∈ bTokens, b.startCharacter ≤ b.endCharacter) ∧
    bTokens.Pairwise fun b b' => b.endCharacter ≤ b'.startCharacter

instance (bTokens : List SparseToken) : Decidable (SortedOnLine bTokens) :=
  inferInstanceAs (Decidable (_ ∧ _))

section Merge

variable {aTokens : LineTokens} {st : Emission} {rest : List LineToken}

theorem overlay_of_forall_not {bTokens : List SparseToken} {i : ℤ}
    (h : ∀ b ∈ bTokens, ¬ b.Covers i) (m : BitVec 32) : overlay bTokens i m = m := by
  have hnone : bTokens.find? (·.Covers i) = none := by
    rw [List.find?_eq_none]
    intro b hb
    simpa using h b hb
  unfold overlay
  rw [hnone]

theorem overlay_append_cons {done bs : List SparseToken} {b : SparseToken} {i : ℤ}
    (hdone : ∀ b ∈ done, ¬ b.Covers i) (hb : b.Covers i) (m : BitVec 32) :
    overlay (done ++ b :: bs) i m = mixMetadata b.metadata m := by
  have hnone : done.find? (·.Covers i) = none := by
    rw [List.find?_eq_none]
    intro b hb
    simpa using hdone b hb
  have hfind : (done ++ b :: bs).find? (·.Covers i) = some b := by
    rw [List.find?_append, hnone, Option.none_or, List.find?_cons_of_pos (by simpa using hb)]
  unfold overlay
  rw [hfind]

/-- Whatever the semantic tokens are, the tokens of `a` are used from the front. -/
theorem reaches_foldl (hvalid : aTokens.Valid) (bTokens : List SparseToken)
    (h : Emission.Reaches (fun _ _ => True) aTokens st rest) :
    ∃ rest', Emission.Reaches (fun _ _ => True) aTokens
      (bTokens.foldl (Emission.addToken aTokens) st) rest' := by
  induction bTokens generalizing st rest with
  | nil => exact ⟨rest, h⟩
  | cons b bTokens ih =>
    obtain ⟨rest', h', -⟩ := h.addToken hvalid b (fun _ _ _ _ _ => trivial)
      fun _ _ _ _ _ _ => trivial
    exact ih h'

/-- The metadata that a character should have. -/
def Overlaid (aTokens : LineTokens) (bTokens : List SparseToken) (i : ℤ) (m : BitVec 32) : Prop :=
  ∃ aMetadata, metadataAt aTokens.tokens i = some aMetadata ∧ m = overlay bTokens i aMetadata

/-- Sorted semantic tokens are laid over the characters one after the other. -/
theorem reaches_foldl_sorted (hvalid : aTokens.Valid) (done bs : List SparseToken)
    (hsorted : SortedOnLine (done ++ bs))
    (hdone : ∀ b ∈ done, min b.endCharacter aTokens.getTextLength ≤ st.lastEndOffset)
    (hbs : ∀ b ∈ bs, st.lastEndOffset ≤ max 0 (min b.startCharacter aTokens.getTextLength))
    (h : Emission.Reaches (Overlaid aTokens (done ++ bs)) aTokens st rest) :
    ∃ rest', Emission.Reaches (Overlaid aTokens (done ++ bs)) aTokens
        (bs.foldl (Emission.addToken aTokens) st) rest' ∧
      ∀ b ∈ done ++ bs, min b.endCharacter aTokens.getTextLength ≤
        (bs.foldl (Emission.addToken aTokens) st).lastEndOffset := by
  induction bs generalizing done st rest with
  | nil => exact ⟨rest, h, by rwa [List.append_nil]⟩
  | cons b bs ih =>
    obtain ⟨hle, hpair⟩ := hsorted
    obtain ⟨-, hbpair, hcross⟩ := List.pairwise_append.mp hpair
    obtain ⟨hbrest, -⟩ := List.pairwise_cons.mp hbpair
    have hb := hle b (by simp)
    have hlast := hbs b List.mem_cons_self
    have hnonneg := h.paints.nonneg
    obtain ⟨rest', h', hlow, hhigh⟩ := h.addToken hvalid b
      (by
        intro i m hi hlt hm
        refine ⟨m, hm, (overlay_of_forall_not ?_ m).symm⟩
        rintro b' hb' ⟨hstart, hend⟩
        rcases List.mem_append.mp hb' with hb' | hb'
        · have := hdone b' hb'
          omega
        · rcases List.mem_cons.mp hb' with rfl | hb'
          · omega
          · have := hbrest b' hb'
            omega)
      (by
        intro i m hi hstart hend hm
        refine ⟨m, hm, (overlay_append_cons ?_ ⟨by omega, by omega⟩ m).symm⟩
        rintro b' hb' ⟨-, hend'⟩
        have := hcross b' hb' b List.mem_cons_self
        omega)
    have hassoc : done ++ b :: bs = (done ++ [b]) ++ bs := by simp
    rw [hassoc] at hle hpair h' ⊢
    rw [List.foldl_cons]
    refine ih (done ++ [b]) ⟨hle, hpair⟩ ?_ ?_ h'
    · intro b' hb'
      rcases List.mem_append.mp hb' with hb' | hb'
      · have := hcross b' hb' b List.mem_cons_self
        omega
      · obtain rfl := List.mem_singleton.mp hb'
        exact hlow
    · intro b' hb'
      have := hbrest b' hb'
      omega

theorem reaches_initial (law : ℤ → BitVec 32 → Prop) (aTokens : LineTokens) :
    Emission.Reaches law aTokens ⟨0, [], 0⟩ aTokens.tokens where
  paints := by
    refine ⟨.nil, by simp, rfl, le_rfl, ?_⟩
    intro i hi hlt
    dsimp only at hlt
    omega
  cursor := ⟨by simp, Int.natCast_nonneg _⟩
  drop_eq := rfl

/-- The remaining tokens of `a` complete the line. -/
theorem reaches_end {law : ℤ → BitVec 32 → Prop} (hvalid : aTokens.Valid)
    (h : Emission.Reaches law aTokens st rest)
    (hlaw : ∀ i m, st.lastEndOffset ≤ i → i < aTokens.getTextLength →
      metadataAt aTokens.tokens i = some m → law i m) :
    Emission.Reaches law aTokens (st.pushWhile aTokens (fun _ => true) id) [] := by
  have hpush := (h.pushWhile (f := id) (p := fun _ => true) (B := aTokens.getTextLength)
    (fun a ha _ => Emission.ends_le_of_valid hvalid a ha) (Emission.ends_le_of_valid hvalid)
    hlaw).1
  have hnil : rest.dropWhile (fun _ => true) = [] := by
    rw [List.dropWhile_eq_nil_iff]
    intro _ _
    rfl
  rwa [hnil] at hpush

theorem valid_of_reaches {law : ℤ → BitVec 32 → Prop} (hvalid : aTokens.Valid)
    (hpos : 0 < aTokens.getTextLength) (h : Emission.Reaches law aTokens st []) :
    LineTokens.Valid ⟨st.result, aTokens.text⟩ := by
  have hlast := h.paints.last_eq
  have hend := h.last_eq hvalid
  refine ⟨h.paints.sorted, ?_⟩
  dsimp only
  cases hres : st.result.getLast? with
  | none =>
    rw [hres, Option.elim_none] at hlast
    omega
  | some t =>
    rw [hres, Option.elim_some] at hlast
    rw [Option.map_some, hlast, hend]
    rfl

theorem mergeTokens_valid (hvalid : aTokens.Valid) (hpos : 0 < aTokens.getTextLength)
    (bTokens : List SparseToken) : (mergeTokens aTokens bTokens).Valid := by
  obtain ⟨rest, h⟩ := reaches_foldl hvalid bTokens (reaches_initial _ aTokens)
  exact valid_of_reaches hvalid hpos (reaches_end hvalid h fun _ _ _ _ _ => trivial)

theorem mergeTokens_overlaid (hvalid : aTokens.Valid) {bTokens : List SparseToken}
    (hsorted : SortedOnLine bTokens) {i : ℤ} (hi : 0 ≤ i) (hlt : i < aTokens.getTextLength) :
    ∃ m, metadataAt (mergeTokens aTokens bTokens).tokens i = some m ∧
      Overlaid aTokens bTokens i m := by
  obtain ⟨rest, h, hends⟩ := reaches_foldl_sorted hvalid [] bTokens hsorted (by simp)
    (fun _ _ => le_max_left _ _) (reaches_initial _ aTokens)
  have hreached := reaches_end hvalid h (by
    intro j m hj hjlt hm
    refine ⟨m, hm, (overlay_of_forall_not ?_ m).symm⟩
    rintro b hb ⟨-, hend⟩
    have := hends b hb
    omega)
  exact hreached.paints.painted i hi (by rwa [hreached.last_eq hvalid])

end Merge

/-- A bit of the metadata `m` under the semantic token that covers the character. -/
def overlayBit (bTokens : List SparseToken) (i : ℤ) (m : BitVec 32) (k : ℕ) : Bool :=
  match bTokens.find? (·.Covers i) with
  | some b => if (bMask b.metadata).getLsbD k then b.metadata.getLsbD k else m.getLsbD k
  | none => m.getLsbD k

theorem mixMetadata_getLsbD (bMetadata aMetadata : BitVec 32) {k : ℕ} (hk : k < 32) :
    (mixMetadata bMetadata aMetadata).getLsbD k =
      if (bMask bMetadata).getLsbD k then bMetadata.getLsbD k else aMetadata.getLsbD k := by
  unfold mixMetadata
  rw [BitVec.getLsbD_or, BitVec.getLsbD_and, BitVec.getLsbD_and, BitVec.getLsbD_not]
  cases (bMask bMetadata).getLsbD k <;> simp [hk]

theorem overlay_getLsbD (bTokens : List SparseToken) (i : ℤ) (m : BitVec 32) {k : ℕ}
    (hk : k < 32) : (overlay bTokens i m).getLsbD k = overlayBit bTokens i m k := by
  unfold overlay overlayBit
  cases bTokens.find? (·.Covers i) with
  | none => rfl
  | some b => exact mixMetadata_getLsbD b.metadata m hk

theorem exists_metadataAt {aTokens : LineTokens} (hvalid : aTokens.Valid) {i : ℤ}
    (hi : i < aTokens.getTextLength) : ∃ m, metadataAt aTokens.tokens i = some m := by
  obtain ⟨a, ha, hlast⟩ := Option.map_eq_some_iff.mp hvalid.2
  have hsome : (aTokens.tokens.find? (i < ·.endOffset)).isSome := by
    rw [List.find?_isSome]
    refine ⟨a, List.mem_of_getLast? ha, ?_⟩
    rw [decide_eq_true_iff, hlast]
    exact hi
  obtain ⟨t, ht⟩ := Option.isSome_iff_exists.mp hsome
  refine ⟨t.metadata, ?_⟩
  unfold metadataAt
  rw [ht]
  rfl

namespace SparseTokensStore

/-- The line stays covered whatever the semantic tokens are. Where they are sorted, each
character has the bits that the semantic token over it sets, and its own elsewhere. -/
theorem addSparseTokens_overlays (s : SparseTokensStore) (lineNumber : ℤ) (aTokens : LineTokens)
    (hvalid : aTokens.Valid) :
    (s.addSparseTokens lineNumber aTokens).Valid ∧
      (s.addSparseTokens lineNumber aTokens).text = aTokens.text ∧
      (SortedOnLine ((s.findLineTokens lineNumber).getD []) →
        ∀ i, 0 ≤ i → i < aTokens.getTextLength →
          ∃ m m', metadataAt aTokens.tokens i = some m ∧
            metadataAt (s.addSparseTokens lineNumber aTokens).tokens i = some m' ∧
            ∀ k < 32, m'.getLsbD k =
              overlayBit ((s.findLineTokens lineNumber).getD []) i m k) := by
  have hsame : (s.findLineTokens lineNumber).getD [] = [] ∨ aTokens.getTextLength = 0 →
      ∀ i, 0 ≤ i → i < aTokens.getTextLength →
        ∃ m m', metadataAt aTokens.tokens i = some m ∧ metadataAt aTokens.tokens i = some m' ∧
          ∀ k < 32, m'.getLsbD k = overlayBit ((s.findLineTokens lineNumber).getD []) i m k := by
    intro hnone i hi hlt
    obtain ⟨m, hm⟩ := exists_metadataAt hvalid hlt
    refine ⟨m, m, hm, hm, fun k _ => ?_⟩
    rw [hnone.resolve_right (by omega)]
    rfl
  unfold addSparseTokens
  split_ifs with hempty hpieces
  · exact ⟨hvalid, rfl, fun _ => hsame (.inr hempty)⟩
  · have hnone : s.findLineTokens lineNumber = none := by
      unfold findLineTokens
      rw [List.isEmpty_iff.mp hpieces, List.getElem?_nil]
    exact ⟨hvalid, rfl, fun _ => hsame (.inl (by rw [hnone]; rfl))⟩
  · cases hfound : s.findLineTokens lineNumber with
    | none => exact ⟨hvalid, rfl, fun _ => by simpa only [hfound] using hsame (.inl (by rw [hfound]; rfl))⟩
    | some bTokens =>
      have hpos : 0 < aTokens.getTextLength :=
        lt_of_le_of_ne (Int.natCast_nonneg _) (Ne.symm hempty)
      refine ⟨mergeTokens_valid hvalid hpos bTokens, rfl, fun hsorted i hi hlt => ?_⟩
      obtain ⟨m', hm', m, hm, rfl⟩ := mergeTokens_overlaid hvalid hsorted hi hlt
      exact ⟨m, _, hm, hm', fun k hk => overlay_getLsbD bTokens i m hk⟩

/-- A line of two syntax tokens, with a semantic token that sets the foreground from one into
the other, and an italic one that reaches over the end of the line. -/
theorem addSparseTokens_overlays_line :
    let s : SparseTokensStore :=
      ⟨[.create 1 ⟨[⟨0, 2, 5, 0x28010#32⟩, ⟨0, 6, 20, 0x801#32⟩]⟩], true⟩
    let aTokens : LineTokens := ⟨[⟨4, 0x8100#32⟩, ⟨8, 0x10200#32⟩], [97, 97, 97, 97, 98, 98, 98, 98]⟩
    (s.addSparseTokens 1 aTokens).tokens.map (·.endOffset) = [2, 4, 5, 6, 8] ∧
      (s.addSparseTokens 1 aTokens).Valid ∧
      ∃ m m', metadataAt aTokens.tokens 4 = some m ∧
        metadataAt (s.addSparseTokens 1 aTokens).tokens 4 = some m' ∧
        ∀ k < 32, m'.getLsbD k = overlayBit ((s.findLineTokens 1).getD []) 4 m k := by
  intro s aTokens
  obtain ⟨hvalid, -, hbits⟩ := addSparseTokens_overlays s 1 aTokens (by decide)
  exact ⟨by decide +kernel, hvalid, hbits (by decide +kernel) 4 (by decide) (by decide)⟩

end SparseTokensStore

end NexgileIde.Tokens
