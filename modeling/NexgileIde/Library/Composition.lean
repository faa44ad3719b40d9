import NexgileIde.Library.Patch

/-!
# Composing two lists of patches from left to right

A composition of patches `first` on a base with patches `second` on the text they
produce moves a cursor over both at once. The moves are: copy base elements, emit
a patch of the first list, absorb base elements or a whole first patch into the
current second patch, and emit the second patch once everything it replaces has
been absorbed. Every move keeps the invariant `Sound`; an algorithm is correct
when each of its steps is a sequence of moves.
-/
namespace NexgileIde.Library

variable {α : Type*}

open Patch

/-- A composition under way: the patches emitted, the cursor in the base (`cut`) and
in the intermediate text (`mid`), and the patches of both lists still to come. -/
structure Composing (α : Type*) where
  emitted : List (Patch α)
  cut : Int
  mid : Int
  first : List (Patch α)
  second : List (Patch α)

namespace Composing

/-- What the remaining first patches make of the rest of the base. -/
def rest (s : Composing α) (base : List α) : List α := run s.cut s.first (base.drop s.cut.toNat)

/-- The patches emitted so far followed by the ones to come yield `target`. -/
structure Sound (base target : List α) (s : Composing α) : Prop where
  nonneg : 0 ≤ s.cut
  emitted : Fits 0 s.cut s.emitted
  first : Fits s.cut base.length s.first
  second : Fits s.mid (s.mid + (s.rest base).length) s.second
  text : target =
    run 0 s.emitted (base.take s.cut.toNat) ++ run s.mid s.second (s.rest base)

variable {base target : List α} {s : Composing α}

theorem Sound.cut_le (h : Sound base target s) : s.cut ≤ base.length := h.first.le

theorem Sound.init {base : List α} {first second : List (Patch α)}
    (hf : Fits 0 base.length first) (hs : Fits 0 (run 0 first base).length second) :
    Sound base (run 0 second (run 0 first base)) ⟨[], 0, 0, first, second⟩ where
  nonneg := le_rfl
  emitted := le_rfl
  first := hf
  second := by simpa [rest] using hs
  text := by simp [rest]

/-- When the second list is used up, the rest of the first list completes the result. -/
theorem Sound.finish (h : Sound base target s) (hs : s.second = []) :
    Fits 0 base.length (s.emitted ++ s.first) ∧ run 0 (s.emitted ++ s.first) base = target := by
  have hc := h.cut_le
  refine ⟨h.emitted.append h.first, ?_⟩
  rw [run_append h.emitted h.first (by omega), h.text, hs, run_nil, sub_zero]
  rfl

/-- The base elements between the cursor and an offset before the next first patch. -/
theorem rest_split {c : Int} (h : Sound base target s) (hc : s.cut ≤ c)
    (hf : Fits c base.length s.first) :
    s.rest base = (base.drop s.cut.toNat).take (c - s.cut).toNat ++
      run c s.first (base.drop c.toNat) := by
  have hn := h.nonneg
  have hle := hf.le
  have hdrop : s.cut.toNat + (c - s.cut).toNat = c.toNat := by omega
  rw [rest, run_split hf hc (by rw [List.length_drop]; omega), List.drop_drop, hdrop]

theorem length_gap {c : Int} (h : Sound base target s) (hc : s.cut ≤ c)
    (hle : c ≤ base.length) :
    (((base.drop s.cut.toNat).take (c - s.cut).toNat).length : Int) = c - s.cut := by
  have hn := h.nonneg
  rw [List.length_take, List.length_drop]
  omega

/-- Emitting a patch that starts at the cursor: what the second list made of the
rest before must be the patch's text followed by what it makes of the rest now. -/
theorem Sound.push {p : Patch α} {mid : Int} {first second : List (Patch α)}
    (h : Sound base target s) (hp : p.start = s.cut) (hle : p.start ≤ p.stop)
    (hf : Fits p.stop base.length first)
    (hs : Fits mid (mid + (run p.stop first (base.drop p.stop.toNat)).length) second)
    (ht : run s.mid s.second (s.rest base) =
      p.text ++ run mid second (run p.stop first (base.drop p.stop.toNat))) :
    Sound base target ⟨s.emitted ++ [p], p.stop, mid, first, second⟩ := by
  have hn := h.nonneg
  have hstop := hf.le
  refine ⟨by simp only; omega, h.emitted.append ⟨hp.ge, hle, le_rfl⟩, hf, hs, ?_⟩
  have hone : Fits s.cut p.stop [p] := ⟨hp.ge, hle, le_rfl⟩
  have hrun := run_append (t := base.take p.stop.toNat) h.emitted hone
    (by rw [List.length_take]; omega)
  have hmin : min s.cut.toNat p.stop.toNat = s.cut.toNat := by omega
  have hdone : (base.take p.stop.toNat).drop (s.cut.toNat + (p.stop - s.cut).toNat) = [] := by
    apply List.drop_eq_nil_of_le
    rw [List.length_take]
    omega
  rw [sub_zero, List.take_take, hmin, run_cons, hp, sub_self, Int.toNat_zero, List.take_zero,
    List.nil_append, run_nil, List.drop_drop, hdone, List.append_nil] at hrun
  rw [h.text, ht]
  simp only [hrun, List.append_assoc]
  rfl

/-- Copy the base elements up to offset `c`. -/
theorem Sound.copy {c : Int} (h : Sound base target s) (hc : s.cut ≤ c)
    (hf : Fits c base.length s.first)
    (hs : Fits (s.mid + (c - s.cut)) (s.mid + (s.rest base).length) s.second) :
    Sound base target { s with cut := c, mid := s.mid + (c - s.cut) } := by
  have hn := h.nonneg
  have hle := hf.le
  have hlen := length_gap h hc hle
  have hsplit := rest_split h hc hf
  have hadd : c.toNat = s.cut.toNat + (c - s.cut).toNat := by omega
  refine ⟨hn.trans hc, h.emitted.mono_right hc, hf, hs.mono_right ?_, ?_⟩
  · rw [hsplit, List.length_append]
    simp only [rest]
    omega
  · rw [h.text, hsplit, run_append_left _ _ (by rw [hlen]; exact hs), hlen, ← List.append_assoc]
    congr 1
    have hnone : Fits s.cut c ([] : List (Patch α)) := hc
    have hrun := run_append (t := base.take c.toNat) h.emitted hnone
      (by rw [List.length_take]; omega)
    have hmin : min s.cut.toNat c.toNat = s.cut.toNat := by omega
    have hsub : c.toNat - s.cut.toNat = (c - s.cut).toNat := by omega
    rw [List.append_nil, run_nil, sub_zero, List.take_take, List.drop_take, hmin, hsub] at hrun
    exact hrun.symm

/-- What a first patch at the cursor makes of the rest: its text comes first. -/
theorem rest_cons {p : Patch α} {ps : List (Patch α)} (h : Sound base target s)
    (hf : s.first = p :: ps) (hp : p.start = s.cut) :
    s.rest base = p.text ++ run p.stop ps (base.drop p.stop.toNat) := by
  have hn := h.nonneg
  have hfit := h.first
  rw [hf] at hfit
  have hle := hfit.2.1
  have hadd : s.cut.toNat + (p.stop - s.cut).toNat = p.stop.toNat := by omega
  rw [rest, hf, run_cons, hp, sub_self, Int.toNat_zero, List.take_zero, List.nil_append,
    List.drop_drop, hadd]

/-- Emit the next patch of the first list unmodified. -/
theorem Sound.emit {p : Patch α} {ps : List (Patch α)} (h : Sound base target s)
    (hf : s.first = p :: ps) (hp : p.start = s.cut)
    (hs : Fits (s.mid + p.text.length) (s.mid + (s.rest base).length) s.second) :
    Sound base target ⟨s.emitted ++ [p], p.stop, s.mid + p.text.length, ps, s.second⟩ := by
  have hrest := rest_cons h hf hp
  have hfit := h.first
  rw [hf] at hfit
  refine h.push hp hfit.2.1 hfit.2.2 (hs.mono_right ?_) ?_
  · rw [hrest, List.length_append]
    omega
  · rw [hrest]
    exact run_append_left _ _ hs

/-- Replace the range of the next second patch, which starts at the cursor: the
first patches `ps` and the base up to offset `c` disappear into it. -/
theorem Sound.replace {c : Int} {q : Patch α} {ps rest qs : List (Patch α)}
    (h : Sound base target s) (hs : s.second = q :: qs) (hq : q.start = s.mid)
    (hf : s.first = ps ++ rest) (hps : Fits s.cut c ps) (hrest : Fits c base.length rest)
    (hstop : q.stop = s.mid + (c - s.cut) + growth ps) :
    Sound base target ⟨s.emitted ++ [⟨s.cut, c, q.text⟩], c, q.stop, rest, qs⟩ := by
  have hn := h.nonneg
  have hc := hps.le
  have hle := hrest.le
  have hfit := h.second
  rw [hs] at hfit
  have hgap := length_gap h hc hle
  have hdrop : s.cut.toNat + (c - s.cut).toNat = c.toNat := by omega
  have hsplit : s.rest base =
      run s.cut ps ((base.drop s.cut.toNat).take (c - s.cut).toNat) ++
        run c rest (base.drop c.toNat) := by
    rw [Composing.rest, hf, run_append hps hrest (by rw [List.length_drop]; omega),
      List.drop_drop, hdrop]
  have hlen := length_run (t := (base.drop s.cut.toNat).take (c - s.cut).toNat)
    (hps.mono_right (by omega))
  refine h.push (p := ⟨s.cut, c, q.text⟩) rfl hc hrest (hfit.2.2.mono_right ?_) ?_
  · rw [hsplit, List.length_append]
    simp only
    omega
  · have hnat : (q.stop - s.mid).toNat =
        (run s.cut ps ((base.drop s.cut.toNat).take (c - s.cut).toNat)).length := by omega
    rw [hs, hsplit, run_cons, hq, hnat, List.drop_left, sub_self, Int.toNat_zero, List.take_zero,
      List.nil_append]

/-- The same with base elements copied first. `d` leads from the base to the
intermediate text. -/
theorem Sound.merge (start stop : Int) (ps : List (Patch α)) {d cut : Int} {q : Patch α}
    {emitted rest qs : List (Patch α)}
    (h : Sound base target ⟨emitted, cut, cut + d, ps ++ rest, q :: qs⟩)
    (hstart : start + d = q.start) (hps : Fits start stop ps) (hrest : Fits stop base.length rest)
    (hstop : stop + (d + growth ps) = q.stop) :
    Sound base target ⟨emitted ++ [⟨start, stop, q.text⟩], stop, stop + (d + growth ps), rest,
      qs⟩ := by
  have hfit := h.second
  have h1 : cut + d ≤ q.start := hfit.1
  have hcopy := h.copy (c := start) (by simp only; omega) (hps.append hrest)
    ⟨by simp only; omega, hfit.2⟩
  have hreplace := hcopy.replace rfl (by simp only; omega) rfl hps hrest
    (by simp only; omega)
  rw [hstop]
  exact hreplace

theorem Sound.length_rest (h : Sound base target s) :
    ((s.rest base).length : Int) = base.length - s.cut + growth s.first := by
  have hn := h.nonneg
  have hle := h.cut_le
  have hlen : ((base.drop s.cut.toNat).length : Int) = base.length - s.cut := by
    rw [List.length_drop]
    omega
  rw [rest, length_run (h.first.mono_right (by omega)), hlen]

/-- Cut a first patch in two, at an offset `m` of the range it replaces. -/
theorem Sound.cutFirst {a b : Int} (m : Int) {x y : List α} (ps : List (Patch α))
    {qs : List (Patch α)} (h : Sound base target s) (hf : s.first = ps ++ ⟨a, b, x ++ y⟩ :: qs) (ham : a ≤ m)
    (hmb : m ≤ b) :
    Sound base target { s with first := ps ++ ⟨a, m, x⟩ :: ⟨m, b, y⟩ :: qs } := by
  have hfit := h.first
  rw [hf] at hfit
  obtain ⟨j, hps, h1, -, h3⟩ := fits_append.mp hfit
  have hcut : Fits s.cut base.length (ps ++ ⟨a, m, x⟩ :: ⟨m, b, y⟩ :: qs) :=
    hps.append ⟨h1, ham, le_rfl, hmb, h3⟩
  have hrest : rest { s with first := ps ++ ⟨a, m, x⟩ :: ⟨m, b, y⟩ :: qs } base =
      s.rest base := by
    rw [rest, rest, hf]
    exact run_append_join hcut
  exact ⟨h.nonneg, h.emitted, hcut, by simpa only [hrest] using h.second,
    by simpa only [hrest] using h.text⟩

end Composing
end NexgileIde.Library
