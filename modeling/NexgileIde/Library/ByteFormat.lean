import Mathlib.Data.List.Basic
import Mathlib.Tactic

/-!
# Writing to and reading from a buffer

A writer changes a buffer from an offset on and returns where it stopped. What it
writes is described by the elements that it puts in place of as many old ones. A
reader is described by what the buffer holds from its offset on.
-/
namespace NexgileIde.Library

variable {α β : Type*}

/-! ## Writers -/

abbrev Writer (β : Type*) : Type _ := List β → ℕ → List β × ℕ

namespace Writer

def andThen (w w' : Writer β) : Writer β := fun b offset =>
  let r := w b offset
  w' r.1 r.2

/-- A loop that writes one value after the other. -/
def forEach (w : α → Writer β) (values : List α) : Writer β := fun b offset =>
  values.foldl (fun r a => w a r.1 r.2) (b, offset)

end Writer

/-- The writer puts `bytes` in place of as many elements from its offset on, and
stops behind them. -/
def Writes (w : Writer β) (bytes : List β) : Prop :=
  ∀ before old after : List β, old.length = bytes.length →
    w (before ++ (old ++ after)) before.length =
      (before ++ (bytes ++ after), before.length + bytes.length)

theorem writes_set (x : β) : Writes (fun b offset => (b.set offset x, offset + 1)) [x] := by
  intro before old after hlength
  obtain ⟨y, rfl⟩ := List.length_eq_one_iff.mp hlength
  simp

theorem Writes.andThen {w w' : Writer β} {bytes bytes' : List β} (h : Writes w bytes)
    (h' : Writes w' bytes') : Writes (w.andThen w') (bytes ++ bytes') := by
  intro before old after hlength
  rw [List.length_append] at hlength
  have hsplit := List.take_append_drop bytes.length old
  have hfirst : (old.take bytes.length).length = bytes.length := by
    rw [List.length_take]
    omega
  have hsecond : (old.drop bytes.length).length = bytes'.length := by
    rw [List.length_drop]
    omega
  have hwrite := h before (old.take bytes.length) (old.drop bytes.length ++ after) hfirst
  have hwrite' := h' (before ++ bytes) (old.drop bytes.length) after hsecond
  rw [← List.append_assoc (old.take bytes.length), hsplit] at hwrite
  simp only [Writer.andThen, hwrite]
  rw [← List.append_assoc before, ← List.length_append, hwrite']
  simp [Nat.add_assoc]

theorem Writes.forEach {w : α → Writer β} {bytes : α → List β} {values : List α}
    (h : ∀ a ∈ values, Writes (w a) (bytes a)) :
    Writes (Writer.forEach w values) (values.flatMap bytes) := by
  induction values with
  | nil =>
    intro before old after hlength
    obtain rfl := List.length_eq_zero_iff.mp hlength
    rfl
  | cons a values ih =>
    have hfirst := h a List.mem_cons_self
    have hrest := ih fun a ha => h a (List.mem_cons_of_mem _ ha)
    exact hfirst.andThen hrest

/-- A buffer of the right length is written in full. -/
theorem Writes.full {w : Writer β} {bytes b : List β} (h : Writes w bytes)
    (hlength : b.length = bytes.length) : w b 0 = (bytes, bytes.length) := by
  have hwrite := h [] b [] hlength
  simpa using hwrite

/-! ## Readers -/

/-- What is behind the elements that were read. -/
theorem drop_add_length {b x rest : List β} {offset : ℕ} (h : b.drop offset = x ++ rest) :
    b.drop (offset + x.length) = rest := by
  rw [← List.drop_drop, h, List.drop_left]

theorem getElem?_of_drop {b x rest : List β} {offset : ℕ} (h : b.drop offset = x ++ rest) {i : ℕ}
    (hi : i < x.length) : b[offset + i]? = x[i]? := by
  rw [← List.getElem?_drop, h, List.getElem?_append_left hi]

/-- A loop that reads a number of values. -/
def readMany (read : List β → ℕ → Option (α × ℕ)) (b : List β) :
    ℕ → ℕ → Option (List α × ℕ)
  | offset, 0 => some ([], offset)
  | offset, count + 1 => do
    let (a, offset) ← read b offset
    let (values, offset) ← readMany read b offset count
    return (a :: values, offset)

/-- Each value is read back as it was written, from every offset that `ok` holds of. -/
theorem readMany_flatMap {γ : Type*} {read : List β → ℕ → Option (α × ℕ)} {b : List β}
    {bytes : γ → List β} {value : γ → α} {ok : ℕ → Prop} {cs : List γ}
    (hread : ∀ c ∈ cs, ∀ offset rest, ok offset → b.drop offset = bytes c ++ rest →
      read b offset = some (value c, offset + (bytes c).length) ∧ ok (offset + (bytes c).length))
    {offset : ℕ} {rest : List β} (hok : ok offset)
    (h : b.drop offset = cs.flatMap bytes ++ rest) :
    readMany read b offset cs.length =
        some (cs.map value, offset + (cs.flatMap bytes).length) ∧
      ok (offset + (cs.flatMap bytes).length) := by
  induction cs generalizing offset with
  | nil => exact ⟨rfl, hok⟩
  | cons c cs ih =>
    rw [List.flatMap_cons, List.append_assoc] at h
    obtain ⟨hfirst, hok'⟩ := hread c List.mem_cons_self offset _ hok h
    obtain ⟨hrest, hok''⟩ := ih (fun c hc => hread c (List.mem_cons_of_mem _ hc)) hok'
      (drop_add_length h)
    rw [List.flatMap_cons, List.length_append, ← Nat.add_assoc]
    refine ⟨?_, hok''⟩
    simp only [List.length_cons, readMany, hfirst, hrest, Option.bind_eq_bind, Option.bind_some,
      List.map_cons]
    rfl

end NexgileIde.Library
