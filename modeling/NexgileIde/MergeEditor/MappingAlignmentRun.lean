import NexgileIde.MergeEditor.LineRangeMapping

/-!
# What aligning two mappings gives

The mappings of one output shift the lines after them. An alignment takes the mappings of
both outputs that its base range contains, and its output ranges are the images of the base
range under these shifts.
-/

namespace NexgileIde.MergeEditor

open MappingAlignment

variable {T : Type} {toMapping : T → LineRangeMapping}

namespace LineRange

variable {r r' r'' : LineRange}

theorem containsRange_iff : r.containsRange r' = true ↔
    r.startLineNumber ≤ r'.startLineNumber ∧
      r'.endLineNumberExclusive ≤ r.endLineNumberExclusive := by
  simp [containsRange]

theorem containsRange_self (r : LineRange) : r.containsRange r = true := by
  simp [containsRange]

theorem join_containsRange_left (h : r.containsRange r'' = true) :
    (r.join r').containsRange r'' = true := by
  rw [containsRange_iff] at h ⊢
  simp only [join]
  omega

theorem join_containsRange_right : (r.join r').containsRange r' = true := by
  rw [containsRange_iff]
  simp only [join]
  omega

end LineRange

namespace LineRangeMapping

def growth (m : LineRangeMapping) : ℤ := m.outputRange.length - m.inputRange.length

/-- The lines a mapping is ahead at its start. -/
def startDelta (m : LineRangeMapping) : ℤ :=
  m.outputRange.startLineNumber - m.inputRange.startLineNumber

theorem startDelta_add_growth (m : LineRangeMapping) :
    m.startDelta + m.growth = m.resultingDeltaFromOriginalToModified := by
  unfold startDelta growth LineRange.length resultingDeltaFromOriginalToModified
  omega

/-- Sorted and non-touching, with one distance between them on both sides. -/
def Follows (m1 m2 : LineRangeMapping) : Prop :=
  m1.inputRange.endLineNumberExclusive < m2.inputRange.startLineNumber ∧
    m2.inputRange.startLineNumber - m1.inputRange.endLineNumberExclusive =
      m2.outputRange.startLineNumber - m1.outputRange.endLineNumberExclusive

theorem Follows.startDelta_eq {m1 m2 : LineRangeMapping} (h : Follows m1 m2) :
    m2.startDelta = m1.resultingDeltaFromOriginalToModified := by
  obtain ⟨-, h⟩ := h
  unfold startDelta resultingDeltaFromOriginalToModified
  omega

end LineRangeMapping

open LineRangeMapping

/-- Consecutive mappings follow each other. -/
def Consecutive (ms : List LineRangeMapping) : Prop := ms.IsChain Follows

/-- The first mapping starts at the same line on both sides. -/
def StartsEqual (ms : List LineRangeMapping) : Prop := ∀ m ∈ ms.head?, m.startDelta = 0

/-- The delta after some mappings, as the code keeps it. -/
def lastDelta (ms : List LineRangeMapping) : ℤ :=
  (ms.getLast?.map resultingDeltaFromOriginalToModified).getD 0

/-- The accumulated delta of some mappings. -/
def accumulated (ms : List LineRangeMapping) : ℤ := (ms.map growth).sum

/-- Unmapped lines shift by the delta of the mappings before them. -/
def image (ms : List LineRangeMapping) (r : LineRange) : ℤ × ℤ :=
  (r.startLineNumber + accumulated (ms.filter fun m =>
      m.inputRange.endLineNumberExclusive < r.startLineNumber),
    r.endLineNumberExclusive + accumulated (ms.filter fun m =>
      m.inputRange.endLineNumberExclusive ≤ r.endLineNumberExclusive))

section Consecutive

variable {ms xs ys : List LineRangeMapping} {m m' : LineRangeMapping}

def Before (m1 m2 : LineRangeMapping) : Prop :=
  m1.inputRange.endLineNumberExclusive < m2.inputRange.startLineNumber

instance : Trans Before Before Before where
  trans {a b c} hab hbc := by
    have := b.inputRange.start_le_end
    unfold Before at hab hbc ⊢
    omega

theorem Consecutive.pairwise (h : Consecutive ms) : ms.Pairwise Before :=
  (h.imp fun _ _ h => h.1 : ms.IsChain Before).pairwise

theorem foldl_join_eq {acc : LineRangeMapping} (h : Consecutive (m :: ms))
    (hin : acc.inputRange.endLineNumberExclusive = m.inputRange.endLineNumberExclusive)
    (hout : acc.outputRange.endLineNumberExclusive = m.outputRange.endLineNumberExclusive) :
    (ms.foldl join acc).inputRange.startLineNumber = acc.inputRange.startLineNumber ∧
      (ms.foldl join acc).outputRange.startLineNumber = acc.outputRange.startLineNumber ∧
      ∀ l ∈ (m :: ms).getLast?,
        (ms.foldl join acc).inputRange.endLineNumberExclusive =
            l.inputRange.endLineNumberExclusive ∧
          (ms.foldl join acc).outputRange.endLineNumberExclusive =
            l.outputRange.endLineNumberExclusive := by
  induction ms generalizing acc m with
  | nil =>
    refine ⟨rfl, rfl, fun l hl => ?_⟩
    cases hl
    exact ⟨hin, hout⟩
  | cons m' ms ih =>
    unfold Consecutive at h
    rw [List.isChain_cons_cons] at h
    obtain ⟨⟨hlt, hdist⟩, h⟩ := h
    have h1 := acc.inputRange.start_le_end
    have h2 := acc.outputRange.start_le_end
    have h3 := m'.inputRange.start_le_end
    have h4 := m'.outputRange.start_le_end
    have hjin : (acc.join m').inputRange.startLineNumber = acc.inputRange.startLineNumber ∧
        (acc.join m').inputRange.endLineNumberExclusive =
          m'.inputRange.endLineNumberExclusive := by
      simp only [join, LineRange.join]
      omega
    have hjout : (acc.join m').outputRange.startLineNumber = acc.outputRange.startLineNumber ∧
        (acc.join m').outputRange.endLineNumberExclusive =
          m'.outputRange.endLineNumberExclusive := by
      simp only [join, LineRange.join]
      omega
    obtain ⟨hs, ho, hl⟩ := ih h hjin.2 hjout.2
    rw [List.foldl_cons, hs, ho, hjin.1, hjout.1, List.getLast?_cons_cons]
    exact ⟨rfl, rfl, hl⟩

/-- Joining mappings that follow each other spans from the first to the last one. -/
theorem joinAll_eq (h : Consecutive (m :: ms)) :
    ∃ j, joinAll (m :: ms) = some j ∧
      j.inputRange.startLineNumber = m.inputRange.startLineNumber ∧
      j.outputRange.startLineNumber = m.outputRange.startLineNumber ∧
      ∀ l ∈ (m :: ms).getLast?,
        j.inputRange.endLineNumberExclusive = l.inputRange.endLineNumberExclusive ∧
          j.outputRange.endLineNumberExclusive = l.outputRange.endLineNumberExclusive :=
  ⟨_, rfl, foldl_join_eq h rfl rfl⟩

theorem accumulated_append : accumulated (xs ++ ys) = accumulated xs + accumulated ys := by
  simp [accumulated]

theorem lastDelta_append_singleton :
    lastDelta (xs ++ [m]) = m.resultingDeltaFromOriginalToModified := by
  simp [lastDelta]

/-- After mappings from the beginning of both documents the delta is the accumulated one. -/
theorem lastDelta_eq (h : Consecutive (xs ++ ys)) (hstart : StartsEqual (xs ++ ys)) :
    lastDelta xs = accumulated xs ∧ ∀ m ∈ ys.head?, m.startDelta = accumulated xs := by
  induction xs using List.reverseRecOn generalizing ys with
  | nil => exact ⟨rfl, hstart⟩
  | append_singleton xs m ih =>
    rw [List.append_assoc] at h hstart
    obtain ⟨hlast, hhead⟩ := ih h hstart
    have hm : m.startDelta = accumulated xs := hhead m (by simp)
    have hdelta : m.resultingDeltaFromOriginalToModified = accumulated (xs ++ [m]) := by
      rw [accumulated_append, ← startDelta_add_growth, hm]
      simp [accumulated]
    refine ⟨lastDelta_append_singleton.trans hdelta, fun m' hm' => ?_⟩
    obtain ⟨ys, rfl⟩ : ∃ zs, ys = m' :: zs := by
      cases ys with
      | nil => cases hm'
      | cons y ys =>
        cases hm'
        exact ⟨ys, rfl⟩
    have hfollows : Follows m m' := by
      have htail : Consecutive ([m] ++ m' :: ys) := h.right_of_append
      exact (List.isChain_cons_cons.mp htail).1
    rw [hfollows.startDelta_eq, hdelta]

end Consecutive

section Output

variable {s : State T} {r : LineRange} {source : Fin 2}

/-- The delta at the start of the current range. -/
def firstDelta (ms : List LineRangeMapping) (delta : ℤ) : ℤ :=
  (ms.head?.map startDelta).getD delta

theorem extendInputRange_eq {m : LineRangeMapping} (h : r.containsRange m.inputRange = true) :
    ∃ out, m.extendInputRange r = some ⟨r, out⟩ ∧
      out.startLineNumber = r.startLineNumber + m.startDelta ∧
      out.endLineNumberExclusive =
        r.endLineNumberExclusive + m.resultingDeltaFromOriginalToModified := by
  have hout := m.outputRange.start_le_end
  have hcontains := LineRange.containsRange_iff.mp h
  have hlen : 0 ≤ m.outputRange.length - (r.startLineNumber - m.inputRange.startLineNumber) +
      (r.endLineNumberExclusive - m.inputRange.endLineNumberExclusive) := by
    unfold LineRange.length
    omega
  unfold extendInputRange
  rw [if_neg (by simp [h])]
  dsimp only
  rw [LineRange.fromLength, dif_pos hlen]
  refine ⟨_, rfl, ?_, ?_⟩
  · unfold startDelta
    dsimp only
    omega
  · unfold LineRange.length resultingDeltaFromOriginalToModified
    dsimp only
    omega

theorem currentOutput_eq (h : Consecutive ((s.currentDiffs source).map toMapping))
    (hcontains : ∀ t ∈ s.currentDiffs source, r.containsRange (toMapping t).inputRange = true) :
    ∃ out, currentOutput toMapping s r source = some out ∧
      out.startLineNumber = r.startLineNumber +
        firstDelta ((s.currentDiffs source).map toMapping) (s.deltaFromBaseToInput source) ∧
      out.endLineNumberExclusive = r.endLineNumberExclusive +
        (((s.currentDiffs source).map toMapping).getLast?.map
          resultingDeltaFromOriginalToModified).getD (s.deltaFromBaseToInput source) := by
  unfold currentOutput
  cases hdiffs : s.currentDiffs source with
  | nil =>
    obtain ⟨out, hout, hstart, hend⟩ := extendInputRange_eq (r := r)
      (m := ⟨r, r.delta (s.deltaFromBaseToInput source)⟩) r.containsRange_self
    refine ⟨out, ?_, ?_, ?_⟩
    · simp [joinAll, hout]
    · rw [hstart]
      simp [startDelta, LineRange.delta, firstDelta]
    · rw [hend]
      simp [resultingDeltaFromOriginalToModified, LineRange.delta]
  | cons t ts =>
    rw [hdiffs, List.map_cons] at h
    rw [hdiffs] at hcontains
    obtain ⟨j, hj, hin, hout, hlast⟩ := joinAll_eq h
    obtain ⟨l, hl⟩ : ∃ l, (toMapping t :: ts.map toMapping).getLast? = some l :=
      Option.isSome_iff_exists.mp (by simp)
    obtain ⟨hlin, hlout⟩ := hlast l hl
    have hlmem : ∃ u ∈ t :: ts, toMapping u = l := by
      have := List.mem_of_getLast? hl
      rw [← List.map_cons, List.mem_map] at this
      exact this
    obtain ⟨u, hu, rfl⟩ := hlmem
    have hjr : r.containsRange j.inputRange = true := by
      have h1 := hcontains t List.mem_cons_self
      have h2 := hcontains u hu
      rw [LineRange.containsRange_iff] at h1 h2 ⊢
      omega
    obtain ⟨out, hex, hstart, hend⟩ := extendInputRange_eq hjr
    refine ⟨out, ?_, ?_, ?_⟩
    · simp [hj, hex]
    · rw [hstart]
      simp [firstDelta, startDelta, hin, hout]
    · rw [hend, List.map_cons, hl]
      simp [resultingDeltaFromOriginalToModified, hlin, hlout]

end Output

section Loop

variable {done : List (Fin 2 × T)} {s : State T} {r : LineRange}

/-- The mappings of one output. -/
def side (source : Fin 2) (ds : List (Fin 2 × T)) : List T :=
  (ds.filter fun d => d.1 = source).map Prod.snd

/-- The mappings of one output that some alignments took. -/
def settled (as : List (MappingAlignment T)) (source : Fin 2) : List T :=
  as.flatMap fun a => a.lineMappings source

theorem lastDelta_append (xs ys : List LineRangeMapping) :
    lastDelta (xs ++ ys) =
      (ys.getLast?.map resultingDeltaFromOriginalToModified).getD (lastDelta xs) := by
  unfold lastDelta
  rw [List.getLast?_append]
  cases ys.getLast? <;> rfl

/-- An element of a list with one more is in the list, or is the last one. -/
theorem eq_append_or_last {α : Type} {as xs ys : List α} {a b : α}
    (h : as ++ [a] = xs ++ b :: ys) : (∃ zs, as = xs ++ b :: zs) ∨ as = xs ∧ a = b := by
  rcases ys.eq_nil_or_concat with rfl | ⟨zs, c, rfl⟩
  · obtain ⟨rfl, heq⟩ := List.append_inj' h rfl
    cases heq
    exact .inr ⟨rfl, rfl⟩
  · left
    refine ⟨zs, ?_⟩
    rw [List.concat_eq_append, ← List.cons_append, ← List.append_assoc] at h
    exact (List.append_inj' h rfl).1

/-- Alignments with sorted, non-touching base ranges around their mappings, and output ranges
that start and end where the mappings say. -/
structure Placed (toMapping : T → LineRangeMapping) (as : List (MappingAlignment T)) : Prop where
  sorted : as.Pairwise fun a b =>
    a.inputRange.endLineNumberExclusive < b.inputRange.startLineNumber
  contains : ∀ a ∈ as, ∀ source, ∀ t ∈ a.lineMappings source,
    a.inputRange.containsRange (toMapping t).inputRange = true
  nonempty : ∀ a ∈ as, ∃ source, a.lineMappings source ≠ []
  output_start : ∀ xs a ys, as = xs ++ a :: ys → ∀ source,
    (a.outputRange source).startLineNumber = a.inputRange.startLineNumber +
      firstDelta ((a.lineMappings source).map toMapping)
        (lastDelta ((settled xs source).map toMapping))
  output_end : ∀ xs a ys, as = xs ++ a :: ys → ∀ source,
    (a.outputRange source).endLineNumberExclusive = a.inputRange.endLineNumberExclusive +
      lastDelta ((settled (xs ++ [a]) source).map toMapping)

/-- What the current range is of the differences that were read. -/
structure Current (toMapping : T → LineRangeMapping) (done : List (Fin 2 × T)) (s : State T)
    (r : LineRange) : Prop where
  after : ∀ a ∈ s.alignments, a.inputRange.endLineNumberExclusive < r.startLineNumber
  contains : ∀ source, ∀ t ∈ s.currentDiffs source,
    r.containsRange (toMapping t).inputRange = true
  nonempty : ∃ source, s.currentDiffs source ≠ []
  start_le : ∃ d ∈ done.getLast?,
    r.startLineNumber ≤ (toMapping d.2).inputRange.startLineNumber

/-- The loop invariant, after the differences `done`. -/
structure LoopInv (toMapping : T → LineRangeMapping) (done : List (Fin 2 × T)) (s : State T) :
    Prop where
  placed : Placed toMapping s.alignments
  diffs : ∀ source, side source done = settled s.alignments source ++ s.currentDiffs source
  delta : ∀ source, s.deltaFromBaseToInput source =
    lastDelta ((side source done).map toMapping)
  current : ∀ r, s.currentInputRange = some r → Current toMapping done s r
  initial : s.currentInputRange = none → s = State.init ∧ done = []

/-- The mappings of both outputs that were read are consecutive. -/
def SidesConsecutive (toMapping : T → LineRangeMapping) (ds : List (Fin 2 × T)) : Prop :=
  ∀ source, Consecutive ((side source ds).map toMapping)

theorem Placed.append {as : List (MappingAlignment T)} {a : MappingAlignment T}
    (h : Placed toMapping as)
    (hafter : ∀ b ∈ as, b.inputRange.endLineNumberExclusive < a.inputRange.startLineNumber)
    (hcontains : ∀ source, ∀ t ∈ a.lineMappings source,
      a.inputRange.containsRange (toMapping t).inputRange = true)
    (hnonempty : ∃ source, a.lineMappings source ≠ [])
    (hstart : ∀ source, (a.outputRange source).startLineNumber = a.inputRange.startLineNumber +
      firstDelta ((a.lineMappings source).map toMapping)
        (lastDelta ((settled as source).map toMapping)))
    (hend : ∀ source, (a.outputRange source).endLineNumberExclusive =
      a.inputRange.endLineNumberExclusive +
        lastDelta ((settled (as ++ [a]) source).map toMapping)) :
    Placed toMapping (as ++ [a]) where
  sorted := by
    rw [List.pairwise_append]
    refine ⟨h.sorted, List.pairwise_singleton _ _, fun b hb c hc => ?_⟩
    cases List.mem_singleton.mp hc
    exact hafter b hb
  contains b hb := by
    rcases List.mem_append.mp hb with hb | hb
    · exact h.contains b hb
    · cases List.mem_singleton.mp hb
      exact hcontains
  nonempty b hb := by
    rcases List.mem_append.mp hb with hb | hb
    · exact h.nonempty b hb
    · cases List.mem_singleton.mp hb
      exact hnonempty
  output_start xs b ys heq := by
    rcases eq_append_or_last heq with ⟨zs, rfl⟩ | ⟨rfl, rfl⟩
    · exact h.output_start xs b zs rfl
    · exact hstart
  output_end xs b ys heq := by
    rcases eq_append_or_last heq with ⟨zs, rfl⟩ | ⟨rfl, rfl⟩
    · exact h.output_end xs b zs rfl
    · exact hend

theorem LoopInv.push (h : LoopInv toMapping done s) (hsides : SidesConsecutive toMapping done)
    (hr : s.currentInputRange = some r) :
    ∃ s', pushAndReset toMapping s r = some s' ∧ Placed toMapping s'.alignments ∧
      (∀ source, settled s'.alignments source = side source done) ∧
      (∀ source, s'.currentDiffs source = []) ∧
      s'.deltaFromBaseToInput = s.deltaFromBaseToInput ∧
      ∀ a ∈ s'.alignments, a.inputRange.endLineNumberExclusive ≤ r.endLineNumberExclusive := by
  obtain ⟨hafter, hcontains, hnonempty, -⟩ := h.current r hr
  have hchain : ∀ source, Consecutive ((s.currentDiffs source).map toMapping) := by
    intro source
    have := hsides source
    rw [h.diffs source, List.map_append] at this
    exact this.right_of_append
  choose out hout hstart hend using fun source => currentOutput_eq (hchain source)
    (hcontains source)
  obtain ⟨a, ha⟩ : ∃ a : MappingAlignment T,
      a = ⟨r, out 0, s.currentDiffs 0, out 1, s.currentDiffs 1⟩ := ⟨_, rfl⟩
  have hrange : ∀ source, a.outputRange source = out source := by
    rw [Fin.forall_fin_two, ha]
    exact ⟨rfl, rfl⟩
  have hmappings : ∀ source, a.lineMappings source = s.currentDiffs source := by
    rw [Fin.forall_fin_two, ha]
    exact ⟨rfl, rfl⟩
  have hinput : a.inputRange = r := by rw [ha]
  have hsettled : ∀ source, settled (s.alignments ++ [a]) source = side source done := by
    intro source
    simp [settled, hmappings, h.diffs]
  -- without a mapping of its own, an output keeps the delta of the alignments before
  have hdelta : ∀ source, s.currentDiffs source = [] →
      s.deltaFromBaseToInput source =
        lastDelta ((settled s.alignments source).map toMapping) := by
    intro source hnil
    rw [h.delta, h.diffs, hnil, List.append_nil]
  subst hinput
  refine ⟨{ s with alignments := s.alignments ++ [a], currentDiffs := fun _ => [] }, ?_, ?_,
    hsettled, fun _ => rfl, rfl, ?_⟩
  · unfold pushAndReset
    rw [hout 0, hout 1]
    simp only [Option.bind_eq_bind, Option.bind_some]
    rw [← ha]
  · apply h.placed.append hafter
    · intro source
      rw [hmappings]
      exact hcontains source
    · obtain ⟨source, hne⟩ := hnonempty
      exact ⟨source, by rwa [hmappings]⟩
    · intro source
      rw [hrange, hmappings, hstart]
      cases hcur : s.currentDiffs source with
      | nil => rw [hdelta source hcur]
      | cons t ts => rfl
    · intro source
      rw [hrange, hsettled, h.diffs, List.map_append, lastDelta_append, hend]
      cases hcur : s.currentDiffs source with
      | nil => rw [hdelta source hcur]
      | cons t ts =>
        obtain ⟨l, hl⟩ : ∃ l, ((t :: ts).map toMapping).getLast? = some l :=
          Option.isSome_iff_exists.mp (by simp)
        rw [hl]
        rfl
  · intro b hb
    rcases List.mem_append.mp hb with hb | hb
    · have := a.inputRange.start_le_end
      have := hafter b hb
      omega
    · cases List.mem_singleton.mp hb
      exact le_rfl

theorem side_append_singleton (source : Fin 2) (d : Fin 2 × T) :
    side source (done ++ [d]) = side source done ++ if d.1 = source then [d.2] else [] := by
  by_cases h : d.1 = source <;> simp [side, h]

/-- The bookkeeping of a round, once the current range is known. -/
theorem LoopInv.add {as : List (MappingAlignment T)} {cur : Fin 2 → List T} {delta : Fin 2 → ℤ}
    {d : Fin 2 × T} {r : LineRange} (hplaced : Placed toMapping as)
    (hdiffs : ∀ source, side source done = settled as source ++ cur source)
    (hdelta : ∀ source, delta source = lastDelta ((side source done).map toMapping))
    (hafter : ∀ a ∈ as, a.inputRange.endLineNumberExclusive < r.startLineNumber)
    (hcontains : ∀ source, ∀ t ∈ cur source, r.containsRange (toMapping t).inputRange = true)
    (hself : r.containsRange (toMapping d.2).inputRange = true) :
    LoopInv toMapping (done ++ [d])
      ⟨Function.update cur d.1 (cur d.1 ++ [d.2]),
        Function.update delta d.1 (toMapping d.2).resultingDeltaFromOriginalToModified, as,
        some r⟩ where
  placed := hplaced
  diffs source := by
    dsimp only
    rw [side_append_singleton, Function.update_apply, hdiffs]
    by_cases h : d.1 = source
    · subst h
      simp
    · simp [h, Ne.symm h]
  delta source := by
    dsimp only
    rw [side_append_singleton, Function.update_apply, hdelta]
    by_cases h : d.1 = source
    · subst h
      simp [lastDelta]
    · simp [h, Ne.symm h]
  current r' hr' := by
    cases hr'
    refine ⟨hafter, ?_, ⟨d.1, ?_⟩, d, by simp, ?_⟩
    · intro source t ht
      dsimp only at ht
      rw [Function.update_apply] at ht
      split_ifs at ht with h
      · subst h
        rcases List.mem_append.mp ht with ht | ht
        · exact hcontains _ t ht
        · cases List.mem_singleton.mp ht
          exact hself
      · exact hcontains source t ht
    · simp
    · exact (LineRange.containsRange_iff.mp hself).1
  initial := nofun

theorem LoopInv.step {d : Fin 2 × T} (h : LoopInv toMapping done s)
    (hsides : SidesConsecutive toMapping done)
    (hsorted : ∀ d' ∈ done.getLast?, compareByStartLineNumber toMapping d' d) :
    ∃ s', MappingAlignment.step toMapping s d = some s' ∧
      LoopInv toMapping (done ++ [d]) s' := by
  unfold MappingAlignment.step
  cases hcur : s.currentInputRange with
  | none =>
    obtain ⟨rfl, rfl⟩ := h.initial hcur
    refine ⟨_, rfl, LoopInv.add h.placed h.diffs h.delta ?_ ?_ ?_⟩
    · nofun
    · nofun
    · exact LineRange.containsRange_self _
  | some r =>
    obtain ⟨hafter, hcontains, hnonempty, d', hd', hstart⟩ := h.current r hcur
    have hle : r.startLineNumber ≤ (toMapping d.2).inputRange.startLineNumber :=
      hstart.trans (hsorted d' hd')
    by_cases htouch : r.intersectsOrTouches (toMapping d.2).inputRange = true
    · simp only [htouch, if_true, Option.bind_eq_bind, Option.bind_some, hcur]
      refine ⟨_, rfl, LoopInv.add h.placed h.diffs h.delta ?_ ?_ ?_⟩
      · intro a ha
        have := hafter a ha
        simp only [LineRange.join]
        omega
      · intro source t ht
        apply LineRange.join_containsRange_left
        exact hcontains source t ht
      · exact LineRange.join_containsRange_right
    · obtain ⟨s', hpush, hplaced, hsettled, hempty, hdelta, hend⟩ := h.push hsides hcur
      simp only [htouch, Bool.false_eq_true, if_false, Option.bind_eq_bind, Option.bind_some, hpush]
      refine ⟨_, rfl, LoopInv.add hplaced ?_ ?_ ?_ ?_ ?_⟩
      · intro source
        rw [hsettled, hempty, List.append_nil]
      · intro source
        rw [hdelta, h.delta]
      · intro a ha
        have := hend a ha
        have := (toMapping d.2).inputRange.start_le_end
        simp only [LineRange.intersectsOrTouches, decide_eq_true_eq, not_and] at htouch
        omega
      · intro source t ht
        rw [hempty] at ht
        cases ht
      · exact LineRange.containsRange_self _

end Loop

section Compute

variable {ms1 ms2 : List T}

instance : Std.Total (compareByStartLineNumber toMapping) := ⟨fun _ _ => Int.le_total _ _⟩

instance : IsTrans (Fin 2 × T) (compareByStartLineNumber toMapping) :=
  ⟨fun _ _ _ => Int.le_trans⟩

/-- The mappings of an output, in their order. -/
def outputs (ms1 ms2 : List T) (source : Fin 2) : List T := if source = 0 then ms1 else ms2

/-- The sort keeps the order of the mappings of one output. -/
theorem side_combinedDiffs (h : ∀ source, Consecutive ((outputs ms1 ms2 source).map toMapping))
    (source : Fin 2) :
    side source (combinedDiffs toMapping ms1 ms2) = outputs ms1 ms2 source := by
  have hsub : ((outputs ms1 ms2 source).map fun t => (source, t)).Sublist
      (combinedDiffs toMapping ms1 ms2) := by
    apply List.sublist_insertionSort
    · have hpairs := (h source).pairwise
      rw [List.pairwise_map] at hpairs ⊢
      apply hpairs.imp
      intro a b hab
      have := (toMapping a).inputRange.start_le_end
      unfold Before at hab
      unfold compareByStartLineNumber
      dsimp only
      omega
    · revert source
      rw [Fin.forall_fin_two]
      exact ⟨List.sublist_append_left _ _, List.sublist_append_right _ _⟩
  have hboth : side source (ms1.map (fun diff => ((0 : Fin 2), diff)) ++
      ms2.map fun diff => ((1 : Fin 2), diff)) = outputs ms1 ms2 source := by
    revert source
    rw [Fin.forall_fin_two]
    constructor <;> simp [side, outputs, List.filter_map, Function.comp_def]
  have hperm : (side source (combinedDiffs toMapping ms1 ms2)).Perm
      (outputs ms1 ms2 source) := by
    rw [← hboth]
    exact ((List.perm_insertionSort _ _).filter _).map _
  have hsub' : (outputs ms1 ms2 source).Sublist
      (side source (combinedDiffs toMapping ms1 ms2)) := by
    have := (hsub.filter fun d => d.1 = source).map Prod.snd
    simpa [side, List.filter_map, Function.comp_def] using this
  exact (hsub'.eq_of_length hperm.length_eq.symm).symm

theorem foldlM_step (ds : List (Fin 2 × T))
    (hsorted : ds.Pairwise (compareByStartLineNumber toMapping))
    (hsides : SidesConsecutive toMapping ds) :
    ∃ s, ds.foldlM (step toMapping) State.init = some s ∧ LoopInv toMapping ds s := by
  induction ds using List.reverseRecOn with
  | nil =>
    refine ⟨State.init, rfl, ⟨.nil, nofun, nofun, ?_, ?_⟩, fun _ => rfl, fun _ => rfl, nofun,
      fun _ => ⟨rfl, rfl⟩⟩
    · intro xs a ys heq
      simp [State.init] at heq
    · intro xs a ys heq
      simp [State.init] at heq
  | append_singleton ds d ih =>
    rw [List.pairwise_append] at hsorted
    have hinit : SidesConsecutive toMapping ds := by
      intro source
      have := hsides source
      rw [side_append_singleton, List.map_append] at this
      exact this.left_of_append
    obtain ⟨s, hs, hinv⟩ := ih hsorted.1 hinit
    obtain ⟨s', hs', hinv'⟩ := hinv.step (d := d) hinit fun d' hd' =>
      hsorted.2.2 d' (List.mem_of_getLast? hd') d (List.mem_singleton_self d)
    refine ⟨s', ?_, hinv'⟩
    rw [List.foldlM_append, hs]
    simpa using hs'

/-- `compute` returns, and its alignments take the mappings of both outputs in their order. -/
theorem compute_placed (toMapping : T → LineRangeMapping) (ms1 ms2 : List T)
    (h : ∀ source, Consecutive ((outputs ms1 ms2 source).map toMapping)) :
    ∃ as, compute toMapping ms1 ms2 = some as ∧ Placed toMapping as ∧
      ∀ source, settled as source = outputs ms1 ms2 source := by
  have hside := side_combinedDiffs h
  have hsides : SidesConsecutive toMapping (combinedDiffs toMapping ms1 ms2) := by
    intro source
    rw [hside]
    exact h source
  obtain ⟨s, hs, hinv⟩ := foldlM_step (combinedDiffs toMapping ms1 ms2)
    (List.pairwise_insertionSort _ _) hsides
  unfold compute
  rw [hs]
  simp only [Option.bind_eq_bind, Option.bind_some]
  cases hcur : s.currentInputRange with
  | none =>
    obtain ⟨rfl, hnil⟩ := hinv.initial hcur
    refine ⟨_, rfl, hinv.placed, fun source => ?_⟩
    rw [← hside, hnil]
    rfl
  | some r =>
    obtain ⟨s', hpush, hplaced, hsettled, -⟩ := hinv.push hsides hcur
    refine ⟨s'.alignments, by simp [hpush], hplaced, fun source => ?_⟩
    rw [hsettled, hside]

end Compute

section Image

variable {as xs ys : List (MappingAlignment T)} {a : MappingAlignment T}

theorem settled_append (xs ys : List (MappingAlignment T)) (source : Fin 2) :
    settled (xs ++ ys) source = settled xs source ++ settled ys source := by
  simp [settled]

theorem settled_cons (a : MappingAlignment T) (ys : List (MappingAlignment T)) (source : Fin 2) :
    settled (a :: ys) source = a.lineMappings source ++ settled ys source := rfl

/-- The mappings before an alignment, in it and after it lie there in the base. -/
theorem Placed.mem_settled (h : Placed toMapping (xs ++ a :: ys)) (source : Fin 2) :
    (∀ t ∈ settled xs source,
      (toMapping t).inputRange.endLineNumberExclusive < a.inputRange.startLineNumber) ∧
    (∀ t ∈ a.lineMappings source,
      a.inputRange.startLineNumber ≤ (toMapping t).inputRange.endLineNumberExclusive ∧
        (toMapping t).inputRange.endLineNumberExclusive ≤
          a.inputRange.endLineNumberExclusive) ∧
    ∀ t ∈ settled ys source,
      a.inputRange.endLineNumberExclusive < (toMapping t).inputRange.endLineNumberExclusive := by
  have hcontains : ∀ b ∈ xs ++ a :: ys, ∀ t ∈ b.lineMappings source,
      b.inputRange.startLineNumber ≤ (toMapping t).inputRange.endLineNumberExclusive ∧
        (toMapping t).inputRange.endLineNumberExclusive ≤
          b.inputRange.endLineNumberExclusive := by
    intro b hb t ht
    have hin := LineRange.containsRange_iff.mp (h.contains b hb source t ht)
    have := (toMapping t).inputRange.start_le_end
    omega
  have hsorted := List.pairwise_append.mp h.sorted
  refine ⟨fun t ht => ?_, hcontains a (by simp), fun t ht => ?_⟩
  · obtain ⟨b, hb, ht⟩ := List.mem_flatMap.mp ht
    have := hcontains b (by simp [hb]) t ht
    have := hsorted.2.2 b hb a List.mem_cons_self
    omega
  · obtain ⟨b, hb, ht⟩ := List.mem_flatMap.mp ht
    have := hcontains b (by simp [hb]) t ht
    have := (List.pairwise_cons.mp hsorted.2.1).1 b hb
    omega

theorem filter_append_eq_left {α : Type} {p : α → Bool} {xs ys : List α}
    (hxs : ∀ x ∈ xs, p x = true) (hys : ∀ y ∈ ys, p y = false) :
    (xs ++ ys).filter p = xs := by
  rw [List.filter_append, List.filter_eq_self.mpr hxs,
    List.filter_eq_nil_iff.mpr fun y hy => by simp [hys y hy], List.append_nil]

theorem Placed.image_eq (h : Placed toMapping (xs ++ a :: ys)) (source : Fin 2) :
    image ((settled (xs ++ a :: ys) source).map toMapping) a.inputRange =
      (a.inputRange.startLineNumber + accumulated ((settled xs source).map toMapping),
        a.inputRange.endLineNumberExclusive +
          accumulated ((settled (xs ++ [a]) source).map toMapping)) := by
  obtain ⟨hbefore, hin, hafter⟩ := h.mem_settled source
  have hle := a.inputRange.start_le_end
  have hstart : ((settled (xs ++ a :: ys) source).map toMapping).filter (fun m =>
      m.inputRange.endLineNumberExclusive < a.inputRange.startLineNumber) =
        (settled xs source).map toMapping := by
    rw [settled_append, settled_cons, List.map_append]
    apply filter_append_eq_left
    · simpa using hbefore
    · simp only [List.forall_mem_map, List.forall_mem_append, decide_eq_false_iff_not, not_lt]
      exact ⟨fun t ht => (hin t ht).1, fun t ht => by have := hafter t ht; omega⟩
  have hend : ((settled (xs ++ a :: ys) source).map toMapping).filter (fun m =>
      m.inputRange.endLineNumberExclusive ≤ a.inputRange.endLineNumberExclusive) =
        (settled (xs ++ [a]) source).map toMapping := by
    rw [← List.singleton_append, ← List.append_assoc, settled_append, List.map_append]
    apply filter_append_eq_left
    · simp only [settled_append, List.forall_mem_map, List.forall_mem_append, decide_eq_true_eq]
      refine ⟨fun t ht => by have := hbefore t ht; omega, fun t ht => ?_⟩
      rw [settled_cons] at ht
      exact (hin t (by simpa [settled] using ht)).2
    · simpa using hafter
  unfold image
  rw [hstart, hend]

/-- The output ranges are images, when the first mappings start at the same line. -/
theorem Placed.output_eq (h : Placed toMapping (xs ++ a :: ys)) (source : Fin 2)
    (hms : Consecutive ((settled (xs ++ a :: ys) source).map toMapping))
    (hstart : StartsEqual ((settled (xs ++ a :: ys) source).map toMapping)) :
    ((a.outputRange source).startLineNumber, (a.outputRange source).endLineNumberExclusive) =
      image ((settled (xs ++ a :: ys) source).map toMapping) a.inputRange := by
  have hfirst : firstDelta ((a.lineMappings source).map toMapping)
      (lastDelta ((settled xs source).map toMapping)) =
        accumulated ((settled xs source).map toMapping) := by
    rw [settled_append, settled_cons, List.map_append, List.map_append] at hms hstart
    obtain ⟨hlast, hhead⟩ := lastDelta_eq hms hstart
    cases hm : (a.lineMappings source).map toMapping with
    | nil => exact hlast
    | cons m ms =>
      rw [hm] at hhead
      exact hhead m rfl
  have hlast : lastDelta ((settled (xs ++ [a]) source).map toMapping) =
      accumulated ((settled (xs ++ [a]) source).map toMapping) := by
    rw [← List.singleton_append, ← List.append_assoc, settled_append, List.map_append]
      at hms hstart
    exact (lastDelta_eq hms hstart).1
  rw [h.image_eq source, h.output_start xs a ys rfl, h.output_end xs a ys rfl, hfirst, hlast]

end Image

/-- What aligning should give. -/
structure Aligns (ms1 ms2 : List LineRangeMapping) (as : List (MappingAlignment LineRangeMapping)) :
    Prop where
  sorted : as.IsChain fun a b =>
    a.inputRange.endLineNumberExclusive < b.inputRange.startLineNumber
  mappings : ∀ source, as.flatMap (fun a => a.lineMappings source) = outputs ms1 ms2 source
  unique : ∀ source, ∀ m ∈ outputs ms1 ms2 source, ∃! a, a ∈ as ∧ m ∈ a.lineMappings source
  contains : ∀ a ∈ as, ∀ source, ∀ m ∈ a.lineMappings source,
    a.inputRange.containsRange m.inputRange

/-- The output ranges of an alignment are the images of its base range. -/
def OutputsAreImages (ms1 ms2 : List LineRangeMapping)
    (as : List (MappingAlignment LineRangeMapping)) : Prop :=
  ∀ a ∈ as, ∀ source,
    ((a.outputRange source).startLineNumber, (a.outputRange source).endLineNumberExclusive) =
      image (outputs ms1 ms2 source) a.inputRange

section Main

variable {ms1 ms2 : List LineRangeMapping} {as : List (MappingAlignment LineRangeMapping)}

theorem Placed.aligns (h : Placed id as)
    (hsettled : ∀ source, settled as source = outputs ms1 ms2 source) : Aligns ms1 ms2 as where
  sorted := h.sorted.isChain
  mappings := hsettled
  unique source m hm := by
    rw [← hsettled, settled, List.mem_flatMap] at hm
    obtain ⟨a, ha, hma⟩ := hm
    refine ⟨a, ⟨ha, hma⟩, ?_⟩
    rintro b ⟨hb, hmb⟩
    by_contra hne
    have hain := LineRange.containsRange_iff.mp (h.contains a ha source m hma)
    have hbin := LineRange.containsRange_iff.mp (h.contains b hb source m hmb)
    have := m.inputRange.start_le_end
    have hapart : a.inputRange.endLineNumberExclusive < b.inputRange.startLineNumber ∨
        b.inputRange.endLineNumberExclusive < a.inputRange.startLineNumber := by
      obtain ⟨xs, ys, rfl⟩ := List.append_of_mem ha
      have hsorted := List.pairwise_append.mp h.sorted
      rcases List.mem_append.mp hb with hb | hb
      · exact .inr (hsorted.2.2 b hb a List.mem_cons_self)
      · rcases List.mem_cons.mp hb with hb | hb
        · exact absurd hb hne
        · exact .inl ((List.pairwise_cons.mp hsorted.2.1).1 b hb)
    simp only [id] at hain hbin
    omega
  contains := h.contains

theorem Placed.outputsAreImages (h : Placed id as)
    (hsettled : ∀ source, settled as source = outputs ms1 ms2 source)
    (hms : ∀ source, Consecutive (outputs ms1 ms2 source))
    (hstart : ∀ source, StartsEqual (outputs ms1 ms2 source)) : OutputsAreImages ms1 ms2 as := by
  intro a ha source
  obtain ⟨xs, ys, rfl⟩ := List.append_of_mem ha
  rw [← hsettled]
  have hms' := hms source
  have hstart' := hstart source
  rw [← hsettled] at hms' hstart'
  have := h.output_eq source (by rwa [List.map_id]) (by rwa [List.map_id])
  rwa [List.map_id] at this

/-- Between two alignments the lines of both outputs are the unmapped ones of the base. -/
theorem OutputsAreImages.asserted (h : OutputsAreImages ms1 ms2 as) (hplaced : Placed id as)
    (hsettled : ∀ source, settled as source = outputs ms1 ms2 source) (n : ℤ) :
    DocumentLineRangeMap.Asserted ⟨as.map fun a => ⟨a.output1Range, a.output2Range⟩, n⟩ := by
  unfold DocumentLineRangeMap.Asserted
  rw [List.isChain_map, List.isChain_iff_forall_rel_of_append_cons_cons]
  intro a b xs ys heq
  have hb : as = (xs ++ [a]) ++ b :: ys := by simp [heq]
  have hsorted := hplaced.sorted
  rw [heq, List.pairwise_append, List.pairwise_cons] at hsorted
  have hlt := hsorted.2.1.1 b List.mem_cons_self
  have hgap : ∀ source, (b.outputRange source).startLineNumber -
      (a.outputRange source).endLineNumberExclusive =
        b.inputRange.startLineNumber - a.inputRange.endLineNumberExclusive := by
    intro source
    have ha' := h a (by simp [heq]) source
    have hb' := h b (by simp [heq]) source
    have himage := (heq ▸ hplaced : Placed id (xs ++ a :: b :: ys)).image_eq source
    have himage' := (hb ▸ hplaced : Placed id ((xs ++ [a]) ++ b :: ys)).image_eq source
    rw [List.map_id] at himage himage'
    rw [← hsettled, heq, himage, Prod.mk.injEq] at ha'
    rw [← hsettled, hb, himage', Prod.mk.injEq] at hb'
    rw [ha'.2, hb'.1]
    omega
  have h1 : b.output1Range.startLineNumber - a.output1Range.endLineNumberExclusive =
    b.inputRange.startLineNumber - a.inputRange.endLineNumberExclusive := hgap 0
  have h2 : b.output2Range.startLineNumber - a.output2Range.endLineNumberExclusive =
    b.inputRange.startLineNumber - a.inputRange.endLineNumberExclusive := hgap 1
  simp only [LineRange.isBefore, decide_eq_true_eq]
  omega

def lines (start stop : ℤ) (h : start ≤ stop) : LineRange := ⟨start, stop, h⟩

/-- Line 1 of the base is line 1 of the output. -/
def sameLine : LineRangeMapping := ⟨lines 1 2 (by decide), lines 1 2 (by decide)⟩

/-- Line 5 of the base is line 7 of the output. -/
def movedLine : LineRangeMapping := ⟨lines 5 6 (by decide), lines 7 8 (by decide)⟩

end Main

end NexgileIde.MergeEditor
