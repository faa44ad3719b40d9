import NexgileIde.Library.Rebase

/-!
# Patches in two groups

A list of patches is split into those selected and the others. With the others moved by what the
selected ones before them grow the base, the selected ones run first. The other way round nothing
is moved, and the result is the same where every patch of one group finds the other group even.
-/
namespace NexgileIde.Library.Patch

variable {α T : Type*} (selected : T → Bool) (patch : T → Patch α)

def grow (p : Patch α) : Int := p.text.length - (p.stop - p.start)

def chosen (rs : List T) : List (Patch α) := (rs.filter selected).map patch

def others (rs : List T) : List (Patch α) := (rs.filter fun r => !selected r).map patch

/-- The others, where the selected ones have grown the base by `d` so far. -/
def shiftedOthers : Int → List T → List (Patch α)
  | _, [] => []
  | d, r :: rs =>
    if selected r then shiftedOthers (d + grow (patch r)) rs
    else shift d (patch r) :: shiftedOthers d rs

/-- Every patch finds the other group even, which has grown the base by `d` and `d'` so far. -/
def Even : Int → Int → List T → Prop
  | _, _, [] => True
  | d, d', r :: rs =>
    if selected r then d' = 0 ∧ Even (d + grow (patch r)) d' rs
    else d = 0 ∧ Even d (d' + grow (patch r)) rs

instance Even.decidable : (d d' : Int) → (rs : List T) → Decidable (Even selected patch d d' rs)
  | _, _, [] => isTrue trivial
  | d, d', r :: rs =>
    haveI := Even.decidable (d + grow (patch r)) d' rs
    haveI := Even.decidable d (d' + grow (patch r)) rs
    inferInstanceAs (Decidable (if selected r then d' = 0 ∧ Even selected patch _ d' rs
      else d = 0 ∧ Even selected patch d _ rs))

variable {selected patch} {rs : List T} {k n d d' : Int} {t : List α} {r : T}

theorem chosen_cons_of_pos (h : selected r) :
    chosen selected patch (r :: rs) = patch r :: chosen selected patch rs := by
  unfold chosen
  rw [List.filter_cons_of_pos h, List.map_cons]

theorem chosen_cons_of_neg (h : ¬ selected r) :
    chosen selected patch (r :: rs) = chosen selected patch rs := by
  unfold chosen
  rw [List.filter_cons_of_neg h]

theorem others_cons_of_pos (h : selected r) :
    others selected patch (r :: rs) = others selected patch rs := by
  unfold others
  rw [List.filter_cons_of_neg (by simp [h])]

theorem others_cons_of_neg (h : ¬ selected r) :
    others selected patch (r :: rs) = patch r :: others selected patch rs := by
  unfold others
  rw [List.filter_cons_of_pos (by simp [h]), List.map_cons]

theorem others_fits (h : Fits k n (rs.map patch)) : Fits k n (others selected patch rs) := by
  induction rs generalizing k with
  | nil => exact h
  | cons r rs ih =>
    obtain ⟨hstart, hle, hrest⟩ := h
    by_cases hsel : selected r
    · rw [others_cons_of_pos hsel]
      exact (ih hrest).mono_left (hstart.trans hle)
    · rw [others_cons_of_neg hsel]
      exact ⟨hstart, hle, ih hrest⟩

theorem chosen_fits (h : Fits k n (rs.map patch)) : Fits k n (chosen selected patch rs) := by
  induction rs generalizing k with
  | nil => exact h
  | cons r rs ih =>
    obtain ⟨hstart, hle, hrest⟩ := h
    by_cases hsel : selected r
    · rw [chosen_cons_of_pos hsel]
      exact ⟨hstart, hle, ih hrest⟩
    · rw [chosen_cons_of_neg hsel]
      exact (ih hrest).mono_left (hstart.trans hle)

theorem shiftedOthers_fits (h : Fits k n (rs.map patch)) :
    Fits (k + d) (n + d + growth (chosen selected patch rs)) (shiftedOthers selected patch d rs) := by
  induction rs generalizing k d with
  | nil =>
    have hle : k ≤ n := h
    change k + d ≤ n + d + 0
    omega
  | cons r rs ih =>
    obtain ⟨hstart, hle, hrest⟩ := h
    unfold shiftedOthers
    split_ifs with hsel
    · have hih := @ih _ (d + grow (patch r)) hrest
      rw [chosen_cons_of_pos hsel]
      unfold growth
      unfold grow at hih ⊢
      refine (hih.mono_left ?_).mono_right ?_
      · omega
      · omega
    · rw [chosen_cons_of_neg hsel]
      exact ⟨add_le_add_left hstart d, add_le_add_left hle d, ih hrest⟩

/-- The selected patches first and then the moved others do what all of them do. -/
theorem run_shiftedOthers (h : Fits k n (rs.map patch)) (hlength : n = k + t.length) :
    run (k + d) (shiftedOthers selected patch d rs) (run k (chosen selected patch rs) t) =
      run k (rs.map patch) t := by
  induction rs generalizing k d t with
  | nil => rfl
  | cons r rs ih =>
    obtain ⟨hstart, hle, hrest⟩ := h
    have hend := hrest.le
    have hdrop : n = (patch r).stop + (t.drop ((patch r).stop - k).toNat).length := by
      rw [List.length_drop]
      omega
    rw [List.map_cons, run_cons]
    unfold shiftedOthers
    split_ifs with hsel
    · have hih := @ih _ (d + grow (patch r)) _ hrest hdrop
      have hfits := @shiftedOthers_fits _ _ selected patch rs _ n (d + grow (patch r)) hrest
      have hlen : (t.take ((patch r).start - k).toNat).length = ((patch r).start - k).toNat := by
        rw [List.length_take]
        omega
      have hoffset : k + d + ((t.take ((patch r).start - k).toNat ++ (patch r).text).length : Int) =
          (patch r).stop + (d + grow (patch r)) := by
        unfold grow
        rw [List.length_append, hlen]
        omega
      rw [chosen_cons_of_pos hsel, run_cons, ← List.append_assoc,
        run_append_left _ _ (by rwa [hoffset]), hoffset, hih, List.append_assoc]
    · have hih := @ih _ d _ hrest hdrop
      -- the selected patches leave the base as it is up to the end of the other one
      have hcopied := run_split (@chosen_fits _ _ selected _ _ _ _ hrest) (hstart.trans hle)
        (by omega : (patch r).stop ≤ k + t.length)
      have htake : (t.take ((patch r).stop - k).toNat).length = ((patch r).stop - k).toNat := by
        rw [List.length_take]
        omega
      rw [chosen_cons_of_neg hsel, hcopied, run_cons]
      unfold shift
      dsimp only
      rw [add_sub_add_right_eq_sub, add_sub_add_right_eq_sub,
        List.take_append_of_le_length (by omega), List.take_take, min_eq_left (by omega),
        List.drop_append_of_le_length (by omega), List.drop_of_length_le (by omega),
        List.nil_append, hih]

/-- Where all is even, nothing is moved. -/
theorem Even.shiftedOthers_eq (h : Even selected patch d d' rs) :
    shiftedOthers selected patch d rs = others selected patch rs := by
  induction rs generalizing d d' with
  | nil => rfl
  | cons r rs ih =>
    unfold Even at h
    unfold shiftedOthers
    split_ifs at h ⊢ with hsel
    · rw [others_cons_of_pos hsel]
      exact ih h.2
    · obtain ⟨rfl, hrest⟩ := h
      rw [others_cons_of_neg hsel, ih hrest]
      simp [shift]

/-- The selected patches fit into what the others make, from where these have come. -/
theorem Even.chosen_fits (h : Even selected patch d d' rs) (hfits : Fits k n (rs.map patch)) :
    Fits (k + d') (n + d' + growth (others selected patch rs)) (chosen selected patch rs) := by
  induction rs generalizing k d d' with
  | nil =>
    have hle : k ≤ n := hfits
    change k + d' ≤ n + d' + 0
    omega
  | cons r rs ih =>
    obtain ⟨hstart, hle, hrest⟩ := hfits
    unfold Even at h
    split_ifs at h with hsel
    · obtain ⟨rfl, heven⟩ := h
      have hih := ih heven hrest
      rw [chosen_cons_of_pos hsel, others_cons_of_pos hsel]
      exact ⟨by omega, hle, by simpa using hih⟩
    · have hih := ih h.2 hrest
      rw [chosen_cons_of_neg hsel, others_cons_of_neg hsel]
      unfold growth
      unfold grow at hih
      refine (hih.mono_left ?_).mono_right ?_
      · omega
      · omega

/-- The others first and then the selected ones do what all of them do. -/
theorem Even.run_eq (h : Even selected patch d d' rs) (hfits : Fits k n (rs.map patch))
    (hlength : n = k + t.length) :
    run (k + d') (chosen selected patch rs) (run k (others selected patch rs) t) =
      run k (rs.map patch) t := by
  induction rs generalizing k d d' t with
  | nil => rfl
  | cons r rs ih =>
    have hall := hfits
    obtain ⟨hstart, hle, hrest⟩ := hfits
    have hend := hrest.le
    have hdrop : n = (patch r).stop + (t.drop ((patch r).stop - k).toNat).length := by
      rw [List.length_drop]
      omega
    unfold Even at h
    rw [List.map_cons, run_cons]
    split_ifs at h with hsel
    · obtain ⟨rfl, heven⟩ := h
      have hih := ih heven hrest hdrop
      rw [add_zero] at hih ⊢
      -- the others leave the base as it is up to the end of the selected patch
      have hcopied := run_split (@others_fits _ _ selected _ _ _ _ hrest) (hstart.trans hle)
        (by omega : (patch r).stop ≤ k + t.length)
      have htake : (t.take ((patch r).stop - k).toNat).length = ((patch r).stop - k).toNat := by
        rw [List.length_take]
        omega
      rw [chosen_cons_of_pos hsel, others_cons_of_pos hsel, hcopied, run_cons,
        List.take_append_of_le_length (by omega), List.take_take, min_eq_left (by omega),
        List.drop_append_of_le_length (by omega), List.drop_of_length_le (by omega),
        List.nil_append, hih]
    · have hih := ih h.2 hrest hdrop
      have hchosen := h.2.chosen_fits hrest
      have hlen : (t.take ((patch r).start - k).toNat).length = ((patch r).start - k).toNat := by
        rw [List.length_take]
        omega
      have hoffset : k + d' + ((t.take ((patch r).start - k).toNat ++ (patch r).text).length : Int) =
          (patch r).stop + (d' + grow (patch r)) := by
        unfold grow
        rw [List.length_append, hlen]
        omega
      rw [chosen_cons_of_neg hsel, others_cons_of_neg hsel, run_cons, ← List.append_assoc,
        run_append_left _ _ (by rwa [hoffset]), hoffset, hih, List.append_assoc]

end NexgileIde.Library.Patch
