import NexgileIde.ContextKey.ContextKeyTermination

/-!
# Substituting constants

Keys can get constant values after an expression was built. `substituteConstants` replaces the
leaves that have become constants and builds the expressions around them again.
-/

namespace NexgileIde.ContextKey

open ContextKeyExpression

variable {L : Type} (F : LeafFamily L) (constantOf : L → Option Bool)

namespace ContextKeyExpression

mutual

/-- Whether `substituteConstants` returns something else than the expression itself. -/
def changes : ContextKeyExpression L → Bool
  | constant _ => false
  | leaf l => (constantOf l).isSome
  | and expr _ => changesAny expr
  | or expr _ => changesAny expr

def changesAny : List (ContextKeyExpression L) → Bool
  | [] => false
  | e :: expr => changes e || changesAny expr

end

mutual

/-- The outer option is empty when the call does not return. -/
def substituteConstants : ContextKeyExpression L → Option (Option (ContextKeyExpression L))
  | constant value => some (some (constant value))
  | leaf l =>
    match constantOf l with
    | some value => some (some (constant value))
    | none => some (some (leaf l))
  | and expr negated =>
    if changesAny constantOf expr then do
      ContextKeyAndExpr.create F (← eliminateConstantsInArray expr) negated false
    else some (some (and expr negated))
  | or expr negated =>
    if changesAny constantOf expr then do
      ContextKeyOrExpr.create F (← eliminateConstantsInArray expr) negated false
    else some (some (or expr negated))

def eliminateConstantsInArray :
    List (ContextKeyExpression L) → Option (List (Option (ContextKeyExpression L)))
  | [] => some []
  | e :: arr => do
    let newExpr ← substituteConstants e
    let newArr ← eliminateConstantsInArray arr
    some (newExpr :: newArr)

end

end ContextKeyExpression

variable {F}

theorem finish_negated {expr : List (ContextKeyExpression L)} {extra : Bool}
    {r : Option (ContextKeyExpression L)} (negated : Option (ContextKeyExpression L))
    (h : ContextKeyAndExpr.finish F expr none extra = some r) :
    ContextKeyAndExpr.finish F expr negated extra = some r ∨
      r = some (.and expr none) ∧
        ContextKeyAndExpr.finish F expr negated extra = some (some (.and expr negated)) := by
  let last (negated : Option (ContextKeyExpression L)) (complementary : Bool) :
      Option (Option (ContextKeyExpression L)) :=
    if complementary then some (some (constant false))
    else some (some (ContextKeyExpression.and expr negated))
  have hcheck : ∀ found : Option Bool, found.bind (last none) = some r →
      found.bind (last negated) = some r ∨
        r = some (.and expr none) ∧ found.bind (last negated) = some (some (.and expr negated)) := by
    intro found hfound
    obtain ⟨complementary, rfl, hlast⟩ := Option.bind_eq_some_iff.mp hfound
    cases complementary with
    | true => exact .inl hlast
    | false =>
      cases hlast
      exact .inr ⟨rfl, rfl⟩
  unfold ContextKeyAndExpr.finish at h ⊢
  split at h
  · exact .inl h
  · cases extra with
    | true => exact hcheck _ h
    | false => exact hcheck (some false) h

/-- The negation that is given to `and` shows only in a conjunction that is built. -/
theorem create_negated {arr : List (Option (ContextKeyExpression L))} {extra : Bool}
    {r : Option (ContextKeyExpression L)} (negated : Option (ContextKeyExpression L))
    (h : ContextKeyAndExpr.create F arr none extra = some r) :
    ContextKeyAndExpr.create F arr negated extra = some r ∨
      ∃ expr, r = some (.and expr none) ∧
        ContextKeyAndExpr.create F arr negated extra = some (some (.and expr negated)) := by
  unfold ContextKeyAndExpr.create at h ⊢
  split at h
  · exact .inl h
  · exact .inl h
  · exact .inl h
  · split at h
    · exact .inl h
    · obtain ⟨expr, hd, h⟩ := Option.bind_eq_some_iff.mp h
      simp only [hd, Option.bind_eq_bind, Option.bind_some]
      rcases finish_negated negated h with hf | ⟨rfl, hf⟩
      · exact .inl hf
      · exact .inr ⟨expr, rfl, hf⟩

/-- Expressions whose given negations are nested to some level. -/
def Levelled (e : ContextKeyExpression L) : Prop := ∃ k, Within k e

theorem and_levelled {arr : List (Option (ContextKeyExpression L))}
    {negated : Option (ContextKeyExpression L)} (harr : ∀ e ∈ defined arr, Levelled e)
    (hneg : ∀ g, negated = some g → Levelled g) :
    ∃ r, ContextKeyAndExpr.create F arr negated false = some r ∧
      ∀ e, r = some e → Levelled e := by
  obtain ⟨k, hk⟩ := exists_level harr
  obtain ⟨r, hr, -, hres⟩ :=
    and_returns (negates (F := F) k) _ arr false (fun e he => (hk e he).term) le_rfl
  rcases create_negated negated hr with h | ⟨expr, rfl, h⟩
  · exact ⟨r, h, fun e he => ⟨_, (hres e he).within⟩⟩
  · refine ⟨_, h, ?_⟩
    rintro e ⟨⟩
    have hw := (hres _ rfl).within
    generalize max 1 k = n at hw
    cases hw with
    | @and m _ _ nonempty terms _ =>
      cases negated with
      | none => exact ⟨_, .and nonempty terms (by simp)⟩
      | some g =>
        obtain ⟨i, hi⟩ := hneg g rfl
        refine ⟨max m i + 1, .and nonempty (fun e he => ?_) ?_⟩
        · exact (terms e he).mono (by omega)
        · rintro _ ⟨⟩
          exact hi.mono (le_max_right m i)

theorem or_levelled {arr : List (Option (ContextKeyExpression L))}
    {negated : Option (ContextKeyExpression L)} (harr : ∀ e ∈ defined arr, Levelled e)
    (hneg : ∀ g, negated = some g → Levelled g) :
    ∃ r, ContextKeyOrExpr.create F arr negated false = some r ∧
      ∀ e, r = some e → Levelled e := by
  obtain ⟨k, hk⟩ := exists_level harr
  obtain ⟨i, hi⟩ : ∃ i, ∀ g, negated = some g → Within (i + 1) g := by
    cases negated with
    | none => exact ⟨0, by simp⟩
    | some g =>
      obtain ⟨i, hi⟩ := hneg g rfl
      refine ⟨i, ?_⟩
      rintro _ ⟨⟩
      exact hi.mono (Nat.le_succ i)
  have hflat : ∀ e ∈ defined arr, Flat (max k i) e := fun e he =>
    ((hk e he).mono (le_max_left k i)).flat
  obtain ⟨r, hr, hshape⟩ := or_returns (F := F) negated false
    (fun e he => (hflat e he).nonempty) (by simp)
  refine ⟨r, hr, ?_⟩
  rintro e rfl
  cases negated with
  | none => exact ⟨_, hshape.within hflat⟩
  | some g => exact ⟨_, hshape.within_given hflat ((hi g rfl).mono (by omega))⟩

mutual

/-- Substituting constants in a built expression returns, with an expression like those that
are built or with nothing. -/
theorem substituteConstants_levelled (F : LeafFamily L) (constantOf : L → Option Bool) :
    ∀ e : ContextKeyExpression L, Levelled e →
      ∃ r, substituteConstants F constantOf e = some r ∧ ∀ e', r = some e' → Levelled e'
  | .constant value, _ => ⟨_, rfl, by rintro _ ⟨⟩; exact ⟨0, .constant 0 value⟩⟩
  | .leaf l, _ => by
    rw [substituteConstants]
    split
    · next value _ => exact ⟨_, rfl, by rintro _ ⟨⟩; exact ⟨0, .constant 0 value⟩⟩
    · exact ⟨_, rfl, by rintro _ ⟨⟩; exact ⟨0, .leaf 0 l⟩⟩
  | .and expr negated, h => by
    rw [substituteConstants]
    split_ifs
    · obtain ⟨k, _ | _ | ⟨nonempty, terms, given⟩ | _⟩ := h
      obtain ⟨arr, harr, hlevel⟩ :=
        eliminateConstantsInArray_levelled F constantOf expr fun e he => ⟨_, terms e he⟩
      obtain ⟨r, hr, hres⟩ := and_levelled (F := F) hlevel fun g hg => ⟨_, given g hg⟩
      refine ⟨r, ?_, hres⟩
      rw [harr]
      exact hr
    · exact ⟨_, rfl, by rintro _ ⟨⟩; exact h⟩
  | .or expr negated, h => by
    rw [substituteConstants]
    split_ifs
    · obtain ⟨k, _ | _ | _ | ⟨nonempty, terms, given⟩⟩ := h
      obtain ⟨arr, harr, hlevel⟩ :=
        eliminateConstantsInArray_levelled F constantOf expr fun e he => ⟨_, terms e he⟩
      obtain ⟨r, hr, hres⟩ := or_levelled (F := F) hlevel fun g hg => ⟨_, given g hg⟩
      refine ⟨r, ?_, hres⟩
      rw [harr]
      exact hr
    · exact ⟨_, rfl, by rintro _ ⟨⟩; exact h⟩

theorem eliminateConstantsInArray_levelled (F : LeafFamily L) (constantOf : L → Option Bool) :
    ∀ expr : List (ContextKeyExpression L), (∀ e ∈ expr, Levelled e) →
      ∃ arr, eliminateConstantsInArray F constantOf expr = some arr ∧
        ∀ e ∈ defined arr, Levelled e
  | [], _ => ⟨[], rfl, nofun⟩
  | e :: expr, h => by
    rw [List.forall_mem_cons] at h
    obtain ⟨r, hr, hres⟩ := substituteConstants_levelled F constantOf e h.1
    obtain ⟨arr, harr, hlevel⟩ := eliminateConstantsInArray_levelled F constantOf expr h.2
    refine ⟨r :: arr, ?_, ?_⟩
    · rw [eliminateConstantsInArray, hr, harr]
      rfl
    · cases r with
      | none => exact hlevel
      | some e' => simpa using ⟨hres e' rfl, hlevel⟩

end

end NexgileIde.ContextKey
