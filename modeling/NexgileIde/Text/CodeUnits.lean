import Mathlib

/-!
# Strings as sequences of UTF-16 code units

The editor indexes text by UTF-16 code units, so a string is a list of them and
no decoding takes place. The built-in string operations used by the models are
defined here with their clamping behaviour on out-of-range arguments.
-/
namespace NexgileIde.Text

abbrev CodeUnit := UInt16

abbrev Str := List CodeUnit

/-- `'literal'`, for a text of ASCII characters. -/
def ascii (text : String) : Str := text.toList.map fun char => UInt16.ofNat char.toNat

/-- `CharCode.LineFeed` -/
def LineFeed : CodeUnit := 10

/-- `CharCode.CarriageReturn` -/
def CarriageReturn : CodeUnit := 13

@[simp] theorem lineFeed_ne_carriageReturn : LineFeed ≠ CarriageReturn := by decide

@[simp] theorem carriageReturn_ne_lineFeed : CarriageReturn ≠ LineFeed := by decide

/-- `str.substring(a, b)`: arguments are clamped to the string and swapped when reversed. -/
def substring (s : List α) (a b : Int) : List α :=
  (s.drop (min a.toNat b.toNat)).take (max a.toNat b.toNat - min a.toNat b.toNat)

/-- `str.substring(a)` -/
def substringFrom (s : List α) (a : Int) : List α := s.drop a.toNat

theorem substring_of_le (s : List α) {a b : ℕ} (h : a ≤ b) :
    substring s a b = (s.drop a).take (b - a) := by
  simp [substring, h]

theorem substring_self (s : List α) (a : Int) : substring s a a = [] := by
  simp [substring]

end NexgileIde.Text
