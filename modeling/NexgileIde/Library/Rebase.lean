import NexgileIde.Library.Patch

/-!
# Concurrent replacements

Two lists of patches on one base that never replace the same place are walked
together. Each list is moved over the other by shifting it with what the other
list has grown so far; both orders then have the effect of the merged list.
-/
namespace NexgileIde.Library

variable {α : Type*}

namespace Patch

def shift (d : Int) (p : Patch α) : Patch α := ⟨p.start + d, p.stop + d, p.text⟩

@[simp] theorem shift_start (d : Int) (p : Patch α) : (p.shift d).start = p.start + d := rfl
@[simp] theorem shift_stop (d : Int) (p : Patch α) : (p.shift d).stop = p.stop + d := rfl
@[simp] theorem shift_text (d : Int) (p : Patch α) : (p.shift d).text = p.text := rfl

/-- `Rebased d ours base result merged`: from offset `d` on, `result` is what becomes
of `ours` after `base`, and `merged` has the kept patches of `ours` and all of `base`. -/
inductive Rebased : Int → List (Patch α) → List (Patch α) → List (Patch α) →
    List (Patch α) → Prop
  | done (d : Int) (base : List (Patch α)) : Rebased d [] base [] base
  | last (d : Int) (ours : List (Patch α)) : Rebased d ours [] (ours.map (shift d)) ours
  | skip {d : Int} {a : Patch α} {ours base result merged : List (Patch α)} :
      Rebased d ours base result merged → Rebased d (a :: ours) base result merged
  | ours {d : Int} {a b : Patch α} {ours base result merged : List (Patch α)} :
      a.stop ≤ b.start → Rebased d ours (b :: base) result merged →
      Rebased d (a :: ours) (b :: base) (a.shift d :: result) (a :: merged)
  | base {d : Int} {a b : Patch α} {ours base result merged : List (Patch α)} :
      b.stop ≤ a.start →
      Rebased (d + (b.text.length - (b.stop - b.start))) (a :: ours) base result merged →
      Rebased d (a :: ours) (b :: base) result (b :: merged)

theorem Fits.shift {k n : Int} {ps : List (Patch α)} (h : Fits k n ps) (d : Int) :
    Fits (k + d) (n + d) (ps.map (Patch.shift d)) := by
  induction ps generalizing k with
  | nil =>
    have hle : k ≤ n := h
    show k + d ≤ n + d
    omega
  | cons p ps ih =>
    obtain ⟨h1, h2, h3⟩ := h
    refine ⟨?_, ?_, ih h3⟩
    · show k + d ≤ p.start + d
      omega
    · show p.start + d ≤ p.stop + d
      omega

theorem run_shift (k d : Int) (ps : List (Patch α)) (t : List α) :
    run (k + d) (ps.map (Patch.shift d)) t = run k ps t := by
  induction ps generalizing k t with
  | nil => rfl
  | cons p ps ih =>
    have hstart : p.start + d - (k + d) = p.start - k := by omega
    have hstop : p.stop + d - (k + d) = p.stop - k := by omega
    rw [List.map_cons, run_cons, run_cons, shift_start, shift_stop, shift_text, ih, hstart, hstop]

theorem Fits.le_growth {k n : Int} {ps : List (Patch α)} (h : Fits k n ps) : k ≤ n + growth ps := by
  induction ps generalizing k with
  | nil =>
    have hle : k ≤ n := h
    simpa [growth] using hle
  | cons p ps ih =>
    obtain ⟨h1, h2, h3⟩ := h
    have hrest := ih h3
    rw [growth]
    omega

/-- What is left of `ours` fits behind `base`. -/
theorem Rebased.fits {d k n : Int} {ours base result merged : List (Patch α)}
    (h : Rebased d ours base result merged) (hours : Fits k n ours) (hbase : Fits k n base) :
    Fits (k + d) (n + d + growth base) result ∧ Fits k n merged := by
  induction h generalizing k with
  | done d base =>
    refine ⟨?_, hbase⟩
    show k + d ≤ n + d + growth base
    have hgrowth := hbase.le_growth
    omega
  | last d ours =>
    refine ⟨?_, hours⟩
    have hshift := hours.shift d
    simpa [growth] using hshift
  | skip _ ih =>
    obtain ⟨h1, h2, h3⟩ := hours
    exact ih (h3.mono_left (h1.trans h2)) hbase
  | @ours d a b ours base result merged hab _ ih =>
    obtain ⟨h1, h2, h3⟩ := hours
    obtain ⟨hresult, hmerged⟩ := ih h3 ⟨hab, hbase.2⟩
    refine ⟨⟨?_, ?_, hresult⟩, h1, h2, hmerged⟩
    · show k + d ≤ a.start + d
      omega
    · show a.start + d ≤ a.stop + d
      omega
  | @base d a b ours base result merged hba _ ih =>
    obtain ⟨h1, h2, h3⟩ := hbase
    obtain ⟨hresult, hmerged⟩ := ih ⟨hba, hours.2⟩ h3
    have hlow : k + d ≤ b.stop + (d + (b.text.length - (b.stop - b.start))) := by omega
    have hhigh : n + (d + (b.text.length - (b.stop - b.start))) + growth base =
        n + d + growth (b :: base) := by
      rw [growth]
      omega
    rw [hhigh] at hresult
    exact ⟨hresult.mono_left hlow, h1, h2, hmerged⟩

/-- First `base`, then what is left of `ours`: together the merged list. -/
theorem Rebased.run {d k n : Int} {ours base result merged : List (Patch α)} {t : List α}
    (h : Rebased d ours base result merged) (hours : Fits k n ours) (hbase : Fits k n base)
    (hn : n ≤ k + t.length) :
    Patch.run (k + d) result (Patch.run k base t) = Patch.run k merged t := by
  induction h generalizing k t with
  | done d base => rfl
  | last d ours => exact run_shift k d ours t
  | skip _ ih =>
    obtain ⟨h1, h2, h3⟩ := hours
    exact ih (h3.mono_left (h1.trans h2)) hbase hn
  | @ours d a b ours base result merged hab _ ih =>
    obtain ⟨h1, h2, h3⟩ := hours
    have hle := h3.le
    have hbehind : Fits a.stop n (b :: base) := ⟨hab, hbase.2⟩
    have hsplit := run_split hbehind (h1.trans h2) (hle.trans hn)
    have hlen : (t.take (a.stop - k).toNat).length = (a.stop - k).toNat := by
      rw [List.length_take]
      omega
    have hrest := ih (t := t.drop (a.stop - k).toNat) h3 hbehind (by
      rw [List.length_drop]
      omega)
    have hstart : a.start + d - (k + d) = a.start - k := by omega
    have hstop : a.stop + d - (k + d) = a.stop - k := by omega
    have hmin : min (a.start - k).toNat (a.stop - k).toNat = (a.start - k).toNat := by omega
    rw [hsplit, run_cons (k + d), run_cons k a, shift_start, shift_stop, shift_text, hstart, hstop,
      List.take_append_of_le_length (by omega), List.take_take, hmin,
      List.drop_left' hlen, hrest]
  | @base d a b ours base result merged hba hrebased ih =>
    obtain ⟨h1, h2, h3⟩ := hbase
    have hle := h3.le
    have hours' : Fits b.stop n (a :: ours) := ⟨hba, hours.2⟩
    have hrest := ih (t := t.drop (b.stop - k).toNat) hours' h3 (by
      rw [List.length_drop]
      omega)
    have hlen : ((t.take (b.start - k).toNat ++ b.text).length : Int) =
        b.start - k + b.text.length := by
      rw [List.length_append, List.length_take]
      omega
    have hoffset : k + d + ((t.take (b.start - k).toNat ++ b.text).length : Int) =
        b.stop + (d + (b.text.length - (b.stop - b.start))) := by omega
    have hfit := (hrebased.fits hours' h3).1
    rw [← hoffset] at hfit hrest
    rw [run_cons, run_cons, ← List.append_assoc, run_append_left _ _ hfit, hrest,
      List.append_assoc]

end Patch
end NexgileIde.Library
