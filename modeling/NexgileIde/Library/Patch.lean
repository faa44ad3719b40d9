import Mathlib.Data.List.Basic
import Mathlib.Tactic

/-!
# Sorted replacements on a sequence

A patch replaces the elements between two offsets of a base sequence. A list of
patches is run from left to right on the part of the base that has not been read
yet, so every law below speaks about a suffix of the base and the offset at which
that suffix starts.
-/
namespace NexgileIde.Library

variable {α : Type*}

structure Patch (α : Type*) where
  start : Int
  stop : Int
  text : List α
  deriving DecidableEq, Repr

namespace Patch

/-- Replacements sorted from offset `k`, not overlapping, and ending at most at `n`. -/
def Fits : Int → Int → List (Patch α) → Prop
  | k, n, [] => k ≤ n
  | k, n, p :: ps => k ≤ p.start ∧ p.start ≤ p.stop ∧ Fits p.stop n ps

/-- Run the patches on `t`, the part of the base from offset `k` on. -/
def run : Int → List (Patch α) → List α → List α
  | _, [], t => t
  | k, p :: ps, t =>
    t.take (p.start - k).toNat ++ (p.text ++ run p.stop ps (t.drop (p.stop - k).toNat))

@[simp] theorem run_nil (k : Int) (t : List α) : run k [] t = t := rfl

theorem run_cons (k : Int) (p : Patch α) (ps : List (Patch α)) (t : List α) :
    run k (p :: ps) t =
      t.take (p.start - k).toNat ++ (p.text ++ run p.stop ps (t.drop (p.stop - k).toNat)) := rfl

theorem Fits.le {k n : Int} {ps : List (Patch α)} (h : Fits k n ps) : k ≤ n := by
  induction ps generalizing k with
  | nil => exact h
  | cons p ps ih =>
    have := ih h.2.2
    have := h.1
    have := h.2.1
    omega

theorem Fits.mono_left {k k' n : Int} {ps : List (Patch α)} (h : Fits k n ps) (hk : k' ≤ k) :
    Fits k' n ps := by
  cases ps with
  | nil => exact hk.trans h
  | cons p ps => exact ⟨hk.trans h.1, h.2⟩

theorem Fits.mono_right {k n n' : Int} {ps : List (Patch α)} (h : Fits k n ps) (hn : n ≤ n') :
    Fits k n' ps := by
  induction ps generalizing k with
  | nil => exact le_trans h hn
  | cons p ps ih => exact ⟨h.1, h.2.1, ih h.2.2⟩

theorem fits_append {k n : Int} {ps qs : List (Patch α)} :
    Fits k n (ps ++ qs) ↔ ∃ m, Fits k m ps ∧ Fits m n qs := by
  induction ps generalizing k with
  | nil => exact ⟨fun h => ⟨k, le_rfl, h⟩, fun ⟨m, hm, h⟩ => h.mono_left hm⟩
  | cons p ps ih =>
    constructor
    · rintro ⟨h1, h2, h3⟩
      obtain ⟨m, hm, hq⟩ := ih.mp h3
      exact ⟨m, ⟨h1, h2, hm⟩, hq⟩
    · rintro ⟨m, ⟨h1, h2, hm⟩, hq⟩
      exact ⟨h1, h2, ih.mpr ⟨m, hm, hq⟩⟩

theorem Fits.append {k m n : Int} {ps qs : List (Patch α)} (hp : Fits k m ps) (hq : Fits m n qs) :
    Fits k n (ps ++ qs) := fits_append.mpr ⟨m, hp, hq⟩

/-- Elements before the first replacement are copied. -/
theorem run_append_left {k n : Int} {ps : List (Patch α)} (u t : List α)
    (h : Fits (k + u.length) n ps) : run k ps (u ++ t) = u ++ run (k + u.length) ps t := by
  cases ps with
  | nil => rfl
  | cons p ps =>
    have hs := h.1
    have hp := h.2.1
    have htake : (p.start - k).toNat = u.length + (p.start - (k + u.length)).toNat := by omega
    have hdrop : (p.stop - k).toNat = u.length + (p.stop - (k + u.length)).toNat := by omega
    rw [run_cons, run_cons, htake, hdrop, List.take_length_add_append,
      List.drop_length_add_append, List.append_assoc]

/-- The same for the elements up to an offset `j` before the first replacement. -/
theorem run_split {k j n : Int} {ps : List (Patch α)} {t : List α} (h : Fits j n ps)
    (hk : k ≤ j) (hj : j ≤ k + t.length) :
    run k ps t = t.take (j - k).toNat ++ run j ps (t.drop (j - k).toNat) := by
  have hlen : (t.take (j - k).toNat).length = (j - k).toNat := by
    rw [List.length_take]
    omega
  have hoff : k + ((t.take (j - k).toNat).length : Int) = j := by omega
  have hfit : Fits (k + ((t.take (j - k).toNat).length : Int)) n ps := by rwa [hoff]
  have hrun := run_append_left (t.take (j - k).toNat) (t.drop (j - k).toNat) hfit
  rwa [List.take_append_drop, hoff] at hrun

/-- The first patches only read the base up to the offset where they end. -/
theorem run_append {k c n : Int} {ps qs : List (Patch α)} {t : List α} (hp : Fits k c ps)
    (hq : Fits c n qs) (hc : c ≤ k + t.length) :
    run k (ps ++ qs) t =
      run k ps (t.take (c - k).toNat) ++ run c qs (t.drop (c - k).toNat) := by
  induction ps generalizing k t with
  | nil => exact run_split hq hp hc
  | cons p ps ih =>
    obtain ⟨h1, h2, h3⟩ := hp
    have hle := h3.le
    have hrest := ih (t := t.drop (p.stop - k).toNat) h3 (by simp only [List.length_drop]; omega)
    have htake : min (p.start - k).toNat (c - k).toNat = (p.start - k).toNat := by omega
    have hsub : (c - k).toNat - (p.stop - k).toNat = (c - p.stop).toNat := by omega
    have hdrop : (p.stop - k).toNat + (c - p.stop).toNat = (c - k).toNat := by omega
    rw [List.cons_append, run_cons, run_cons, hrest, List.take_take, htake, List.drop_take, hsub,
      List.drop_drop, hdrop]
    simp only [List.append_assoc]

/-- How much a list of patches lengthens its base. -/
def growth : List (Patch α) → Int
  | [] => 0
  | p :: ps => (p.text.length - (p.stop - p.start)) + growth ps

theorem growth_append (ps qs : List (Patch α)) : growth (ps ++ qs) = growth ps + growth qs := by
  induction ps with
  | nil => simp [growth]
  | cons p ps ih =>
    rw [List.cons_append, growth, growth, ih]
    omega

theorem length_run {k : Int} {ps : List (Patch α)} {t : List α}
    (h : Fits k (k + t.length) ps) : ((run k ps t).length : Int) = t.length + growth ps := by
  induction ps generalizing k t with
  | nil => simp [growth]
  | cons p ps ih =>
    obtain ⟨h1, h2, h3⟩ := h
    have hle := h3.le
    have hdrop : ((t.drop (p.stop - k).toNat).length : Int) = k + t.length - p.stop := by
      rw [List.length_drop]
      omega
    have hrest := ih (t := t.drop (p.stop - k).toNat) (k := p.stop) (h3.mono_right (by omega))
    simp only [run_cons, growth, List.length_append, List.length_take]
    omega

/-- Two touching patches act as one. -/
theorem run_join {k n a b c : Int} {x y : List α} {ps : List (Patch α)} {t : List α}
    (h : Fits k n (⟨a, b, x⟩ :: ⟨b, c, y⟩ :: ps)) :
    run k (⟨a, b, x⟩ :: ⟨b, c, y⟩ :: ps) t = run k (⟨a, c, x ++ y⟩ :: ps) t := by
  obtain ⟨h1, h2, -, h4, -⟩ := h
  simp only at h1 h2 h4
  have hdrop : (b - k).toNat + (c - b).toNat = (c - k).toNat := by omega
  simp only [run_cons, sub_self, Int.toNat_zero, List.take_zero, List.nil_append, List.drop_drop,
    hdrop, List.append_assoc]

theorem Fits.join {k n a b c : Int} {x y : List α} {ps : List (Patch α)}
    (h : Fits k n (⟨a, b, x⟩ :: ⟨b, c, y⟩ :: ps)) : Fits k n (⟨a, c, x ++ y⟩ :: ps) := by
  obtain ⟨h1, h2, -, h4, h5⟩ := h
  exact ⟨h1, h2.trans h4, h5⟩

/-- Two touching patches act as one wherever they stand in the list. -/
theorem run_append_join {k n a b c : Int} {x y : List α} {ps qs : List (Patch α)} {t : List α}
    (h : Fits k n (ps ++ ⟨a, b, x⟩ :: ⟨b, c, y⟩ :: qs)) :
    run k (ps ++ ⟨a, b, x⟩ :: ⟨b, c, y⟩ :: qs) t = run k (ps ++ ⟨a, c, x ++ y⟩ :: qs) t := by
  induction ps generalizing k t with
  | nil => exact run_join h
  | cons p ps ih => rw [List.cons_append, List.cons_append, run_cons, run_cons, ih h.2.2]

/-- A patch that replaces nothing by nothing can be left out. -/
theorem run_empty {k n a : Int} {ps : List (Patch α)} {t : List α}
    (h : Fits k n (⟨a, a, []⟩ :: ps)) (ha : a ≤ k + t.length) :
    run k (⟨a, a, []⟩ :: ps) t = run k ps t := by
  obtain ⟨h1, -, h3⟩ := h
  rw [run_split h3 h1 ha]
  simp [run_cons]

end Patch
end NexgileIde.Library

/-!
## Canonical lists of patches

Patches that all change something and of which no two touch are determined by what
they do to every base of one length. They are read off from their effect on the
base whose elements are its own offsets: what is still an offset has survived, and
everything between two survivors is the text of one patch.
-/
namespace NexgileIde.Library

variable {α β : Type*}

namespace Patch

/-- The patch changes something. -/
def Proper (p : Patch α) : Prop := ¬ (p.text = [] ∧ p.start = p.stop)

/-- Every patch is proper and ends before the next one starts. -/
def Canonical : List (Patch α) → Prop
  | [] => True
  | p :: ps => p.Proper ∧ (∀ q ∈ ps.head?, p.stop < q.start) ∧ Canonical ps

def mapText (f : α → β) (p : Patch α) : Patch β := ⟨p.start, p.stop, p.text.map f⟩

theorem run_map (f : α → β) (k : Int) (ps : List (Patch α)) (t : List α) :
    run k (ps.map (mapText f)) (t.map f) = (run k ps t).map f := by
  induction ps generalizing k t with
  | nil => rfl
  | cons p ps ih =>
    rw [List.map_cons, run_cons, run_cons, ← List.map_drop]
    simp only [mapText, ih, List.map_append, List.map_take]

/-- The `m` offsets from `k` on. -/
def offsets : Int → ℕ → List Int
  | _, 0 => []
  | k, m + 1 => k :: offsets (k + 1) m

@[simp] theorem length_offsets (k : Int) (m : ℕ) : (offsets k m).length = m := by
  induction m generalizing k with
  | zero => rfl
  | succ m ih => simp [offsets, ih]

theorem drop_offsets (k : Int) (j m : ℕ) : (offsets k m).drop j = offsets (k + j) (m - j) := by
  induction j generalizing k m with
  | zero => simp
  | succ j ih =>
    cases m with
    | zero => simp [offsets]
    | succ m =>
      rw [offsets, List.drop_succ_cons, ih]
      congr 1 <;> omega

/-- A character of a text, or the offset of an element of the base. -/
abbrev Symbol (α : Type*) := α ⊕ Int

/-- The patches with texts among the symbols. -/
def symbolic (ps : List (Patch α)) : List (Patch (Symbol α)) := ps.map (mapText Sum.inl)

/-- What the patches do to the base of `m` elements from offset `k` on. -/
def trace (k : Int) (ps : List (Patch α)) (m : ℕ) : List (Symbol α) :=
  run k (symbolic ps) ((offsets k m).map Sum.inr)

/-- The patch that puts `text` between the survivors, when there is anything to do. -/
def close (k : Int) (text : List α) (stop : Int) : List (Patch α) :=
  if text = [] ∧ k = stop then [] else [⟨k, stop, text⟩]

/-- Read patches off a trace: `k` follows the last survivor and `text` has been put in since. -/
def readPatches (n : Int) : Int → List α → List (Symbol α) → List (Patch α)
  | k, text, [] => close k text n
  | k, text, .inl c :: rest => readPatches n k (text ++ [c]) rest
  | k, text, .inr i :: rest => close k text i ++ readPatches n (i + 1) [] rest

theorem close_self (k : Int) : close k ([] : List α) k = [] := by simp [close]

theorem close_proper {p : Patch α} (h : p.Proper) : close p.start p.text p.stop = [p] := by
  rw [close, if_neg h]

theorem readPatches_text (n k : Int) (text u : List α) (rest : List (Symbol α)) :
    readPatches n k text (u.map Sum.inl ++ rest) = readPatches n k (text ++ u) rest := by
  induction u generalizing text with
  | nil => simp
  | cons c u ih => simp [readPatches, ih]

/-- Survivors that follow one another need no patch. -/
theorem readPatches_survivors (n k : Int) (j m : ℕ) (hj : j ≤ m) (rest : List (Symbol α)) :
    readPatches n k [] (((offsets k m).map Sum.inr).take j ++ rest) =
      readPatches n (k + j) [] rest := by
  induction j generalizing k m with
  | zero => simp
  | succ j ih =>
    cases m with
    | zero => omega
    | succ m =>
      simp only [offsets, List.map_cons, List.take_succ_cons, List.cons_append, readPatches,
        close_self, List.nil_append]
      rw [ih (k + 1) m (by omega)]
      congr 1
      push_cast
      omega

/-- The trace starts with the offset `k` unless the first patch starts there. -/
theorem trace_start {k n : Int} {ps : List (Patch α)} {m : ℕ} (h : Fits k n ps) (hm : k + m = n)
    (hhead : ∀ q ∈ ps.head?, k < q.start) :
    (k = n ∧ trace k ps m = []) ∨ ∃ rest, trace k ps m = .inr k :: rest := by
  cases m with
  | zero =>
    refine .inl ⟨by omega, ?_⟩
    cases ps with
    | nil => rfl
    | cons q ps =>
      have hq := hhead q rfl
      have hle := h.2.2.le
      have hq2 := h.2.1
      omega
  | succ m =>
    right
    cases ps with
    | nil => exact ⟨_, rfl⟩
    | cons q ps =>
      have hq := hhead q rfl
      obtain ⟨j, hj⟩ : ∃ j, (q.start - k).toNat = j + 1 := ⟨(q.start - k).toNat - 1, by omega⟩
      rw [trace, symbolic, List.map_cons, run_cons]
      simp only [mapText, hj, offsets, List.map_cons, List.take_succ_cons, List.cons_append]
      exact ⟨_, rfl⟩

/-- A pending patch is complete when the next survivor is met. -/
theorem readPatches_pending {n : Int} {p : Patch α} {rest : List (Symbol α)} (h : p.Proper)
    (hrest : p.stop = n ∧ rest = [] ∨ ∃ rest', rest = .inr p.stop :: rest') :
    readPatches n p.start p.text rest = p :: readPatches n p.stop [] rest := by
  rcases hrest with ⟨rfl, rfl⟩ | ⟨rest', rfl⟩
  · rw [readPatches, readPatches, close_proper h, close_self]
  · rw [readPatches, readPatches, close_proper h, close_self]
    rfl

/-- Canonical patches are read off from their trace. -/
theorem readPatches_trace {k n : Int} {ps : List (Patch α)} {m : ℕ} (h : Fits k n ps)
    (hm : k + m = n) (hc : Canonical ps) : readPatches n k [] (trace k ps m) = ps := by
  induction ps generalizing k m with
  | nil =>
    have hsurvive := readPatches_survivors (α := α) n k m m le_rfl []
    rw [List.append_nil, List.take_of_length_le (by simp)] at hsurvive
    change readPatches n k [] ((offsets k m).map Sum.inr) = []
    rw [hsurvive, hm, readPatches, close_self]
  | cons p ps ih =>
    obtain ⟨hstart, hle, hrest⟩ := h
    obtain ⟨hproper, hhead, hcanonical⟩ := hc
    have hn := hrest.le
    obtain ⟨m', hm'⟩ : ∃ m' : ℕ, p.stop + m' = n := ⟨(n - p.stop).toNat, by omega⟩
    have htrace : trace k (p :: ps) m = ((offsets k m).map Sum.inr).take (p.start - k).toNat ++
        (p.text.map Sum.inl ++ trace p.stop ps m') := by
      rw [trace, symbolic, List.map_cons, run_cons, ← List.map_drop, drop_offsets]
      have hk : k + ((p.stop - k).toNat : Int) = p.stop := by omega
      have hlen : m - (p.stop - k).toNat = m' := by omega
      simp only [mapText, hk, hlen]
      rfl
    have hoff : k + ((p.start - k).toNat : Int) = p.start := by omega
    rw [htrace, readPatches_survivors n k _ m (by omega), readPatches_text, hoff, List.nil_append,
      readPatches_pending hproper (trace_start hrest hm' hhead), ih hrest hm' hcanonical]

/-- The value of a symbol on the base with elements `σ`. -/
def Symbol.value (σ : Int → α) : Symbol α → α := Sum.elim id σ

theorem run_eq_trace (σ : Int → α) (k : Int) (ps : List (Patch α)) (m : ℕ) :
    run k ps ((offsets k m).map σ) = (trace k ps m).map (Symbol.value σ) := by
  rw [trace, ← run_map, List.map_map]
  congr 1
  simp only [symbolic, List.map_map]
  symm
  convert List.map_id ps using 2
  funext p
  simp [mapText, Symbol.value]

/-- Symbols that agree on every base are the same. -/
theorem Symbol.eq_of_value [Nontrivial α] {x y : Symbol α}
    (h : ∀ σ, Symbol.value σ x = Symbol.value σ y) : x = y := by
  obtain ⟨a, b, hab⟩ := exists_pair_ne α
  cases x with
  | inl c =>
    cases y with
    | inl d => exact congrArg Sum.inl (h fun _ => a)
    | inr j => exact absurd ((h fun _ => a).symm.trans (h fun _ => b)) hab
  | inr i =>
    cases y with
    | inl d => exact absurd ((h fun _ => a).trans (h fun _ => b).symm) hab
    | inr j =>
      by_contra hij
      have hne : j ≠ i := fun heq => hij (by rw [heq])
      have hval := h fun o => if o = i then a else b
      simp only [Symbol.value, Sum.elim_inr, if_true, if_neg hne] at hval
      exact hab hval

/-- Canonical patches with the same effect on all bases of one length are equal. -/
theorem Canonical.unique [Nontrivial α] {k n : Int} {ps qs : List (Patch α)} (hp : Fits k n ps)
    (hq : Fits k n qs) (hcp : Canonical ps) (hcq : Canonical qs)
    (h : ∀ t : List α, k + t.length = n → run k ps t = run k qs t) : ps = qs := by
  have hle := hp.le
  obtain ⟨m, hm⟩ : ∃ m : ℕ, k + m = n := ⟨(n - k).toNat, by omega⟩
  have hvalues : ∀ σ, (trace k ps m).map (Symbol.value σ) = (trace k qs m).map (Symbol.value σ) := by
    intro σ
    rw [← run_eq_trace, ← run_eq_trace]
    exact h _ (by simpa using hm)
  obtain ⟨a⟩ := (inferInstance : Nonempty α)
  have hlen : (trace k ps m).length = (trace k qs m).length := by
    simpa using congrArg List.length (hvalues fun _ => a)
  have htrace : trace k ps m = trace k qs m := by
    refine List.ext_getElem hlen fun i hi hi' => Symbol.eq_of_value fun σ => ?_
    have hi'' := congrArg (·[i]?) (hvalues σ)
    simpa [hi, hi'] using hi''
  rw [← readPatches_trace hp hm hcp, htrace, readPatches_trace hq hm hcq]

end Patch
end NexgileIde.Library
