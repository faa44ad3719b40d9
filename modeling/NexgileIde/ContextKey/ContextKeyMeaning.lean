import NexgileIde.ContextKey.ContextKeyExpr

/-!
# What normalised expressions mean

`false` decides a conjunction and `true` a disjunction, so both are described by one
predicate: whether some term evaluates to the deciding constant. Flattening, sorting and
dropping duplicates keep it, whatever the order of terms is.
-/

namespace NexgileIde.ContextKey

open ContextKeyExpression

variable {L : Type}

/-- What a context and the leaves owe each other. -/
structure Respects (F : LeafFamily L) (context : L → Bool) : Prop where
  equals : ∀ l m, F.equals l m = true → context l = context m
  negate : ∀ l, (F.negate l).elim id context = !context l

/-- Some term decides for `b`. -/
def Decides (context : L → Bool) (b : Bool) (expr : List (ContextKeyExpression L)) : Prop :=
  ∃ e ∈ expr, evaluate context e = b

section Decides

variable (context : L → Bool) (b : Bool)

@[simp] theorem decides_nil : ¬ Decides context b [] := by
  simp [Decides]

@[simp] theorem decides_cons (e : ContextKeyExpression L) (expr : List (ContextKeyExpression L)) :
    Decides context b (e :: expr) ↔ evaluate context e = b ∨ Decides context b expr := by
  simp [Decides]

@[simp] theorem decides_append (xs ys : List (ContextKeyExpression L)) :
    Decides context b (xs ++ ys) ↔ Decides context b xs ∨ Decides context b ys := by
  induction xs with
  | nil => simp
  | cons x xs ih => simp [ih, or_assoc]

theorem Decides.perm {context : L → Bool} {b : Bool} {xs ys : List (ContextKeyExpression L)}
    (h : xs.Perm ys) : Decides context b xs ↔ Decides context b ys := by
  simp [Decides, h.mem_iff]

theorem evaluateAll_eq_false (expr : List (ContextKeyExpression L)) :
    evaluateAll context expr = false ↔ Decides context false expr := by
  induction expr with
  | nil => simp [evaluateAll]
  | cons e expr ih =>
    rw [evaluateAll, Bool.and_eq_false_iff, ih, decides_cons]

theorem evaluateAny_eq_true (expr : List (ContextKeyExpression L)) :
    evaluateAny context expr = true ↔ Decides context true expr := by
  induction expr with
  | nil => simp [evaluateAny]
  | cons e expr ih => simp [evaluateAny, ih]

theorem evaluate_and (expr : List (ContextKeyExpression L))
    (negated : Option (ContextKeyExpression L)) :
    evaluate context (.and expr negated) = false ↔ Decides context false expr := by
  rw [evaluate]
  exact evaluateAll_eq_false context expr

theorem evaluate_or (expr : List (ContextKeyExpression L))
    (negated : Option (ContextKeyExpression L)) :
    evaluate context (.or expr negated) = true ↔ Decides context true expr := by
  rw [evaluate]
  exact evaluateAny_eq_true context expr

end Decides

/-- Compound expressions have terms, and a negation that was given to one is its opposite. -/
inductive Sound (context : L → Bool) : ContextKeyExpression L → Prop
  | constant (value : Bool) : Sound context (.constant value)
  | leaf (l : L) : Sound context (.leaf l)
  | and {expr negated} (nonempty : expr ≠ []) (terms : ∀ e ∈ expr, Sound context e)
      (given : ∀ g, negated = some g → Sound context g)
      (opposite : ∀ g, negated = some g →
        (evaluate context g = true ↔ Decides context false expr)) :
      Sound context (.and expr negated)
  | or {expr negated} (nonempty : expr ≠ []) (terms : ∀ e ∈ expr, Sound context e)
      (given : ∀ g, negated = some g → Sound context g)
      (opposite : ∀ g, negated = some g →
        (evaluate context g = false ↔ Decides context true expr)) :
      Sound context (.or expr negated)

/-- How the arguments of `and` and `or` are taken apart: into sound terms that decide as the
argument does. -/
def Splits (context : L → Bool) (b : Bool)
    (parts : ContextKeyExpression L → List (ContextKeyExpression L)) : Prop :=
  ∀ e, Sound context e → parts e ≠ [] ∧ (∀ x ∈ parts e, Sound context x) ∧
    (Decides context b (parts e) ↔ evaluate context e = b)

theorem splits_conjuncts (context : L → Bool) : Splits context false conjuncts := by
  intro e h
  cases h with
  | and nonempty terms => exact ⟨nonempty, terms, (evaluate_and context _ _).symm⟩
  | constant value => simp [conjuncts, Sound.constant]
  | leaf l => simp [conjuncts, Sound.leaf]
  | or nonempty terms given opposite =>
    simp [conjuncts, Sound.or nonempty terms given opposite]

theorem splits_getTerminals (context : L → Bool) : Splits context true getTerminals := by
  intro e h
  cases h with
  | or nonempty terms => exact ⟨nonempty, terms, (evaluate_or context _ _).symm⟩
  | constant value => simp [getTerminals, Sound.constant]
  | leaf l => simp [getTerminals, Sound.leaf]
  | and nonempty terms given opposite =>
    simp [getTerminals, Sound.and nonempty terms given opposite]

/-- The arguments that are not `undefined`. -/
def defined (arr : List (Option (ContextKeyExpression L))) : List (ContextKeyExpression L) :=
  arr.filterMap id

@[simp] theorem defined_nil : defined ([] : List (Option (ContextKeyExpression L))) = [] := rfl

@[simp] theorem defined_none (arr : List (Option (ContextKeyExpression L))) :
    defined (none :: arr) = defined arr := rfl

@[simp] theorem defined_some (e : ContextKeyExpression L)
    (arr : List (Option (ContextKeyExpression L))) :
    defined (some e :: arr) = e :: defined arr := rfl

@[simp] theorem defined_append (xs ys : List (Option (ContextKeyExpression L))) :
    defined (xs ++ ys) = defined xs ++ defined ys := by
  simp [defined]

@[simp] theorem defined_map_some (expr : List (ContextKeyExpression L)) :
    defined (expr.map some) = expr := by
  simp [defined]

section Collect

variable {context : L → Bool} {b : Bool}
  {parts : ContextKeyExpression L → List (ContextKeyExpression L)}

theorem collect_none {arr : List (Option (ContextKeyExpression L))}
    (h : collect b parts arr = none) : Decides context b (defined arr) := by
  fun_induction collect b parts arr with
  | case1 => cases h
  | case2 arr ih => exact ih h
  | case3 arr => simp [evaluate]
  | case4 value arr hne ih =>
    simp [ih (by simpa using h)]
  | case5 e arr hne ih =>
    simp [ih (by simpa using h)]

theorem collect_sublist (hsplit : ∀ value, parts (.constant value) = [.constant value])
    {arr : List (Option (ContextKeyExpression L))} {expr : List (ContextKeyExpression L)}
    {hasNeutral : Bool} (h : collect b parts arr = some (expr, hasNeutral)) :
    expr.Sublist ((defined arr).flatMap parts) := by
  fun_induction collect b parts arr generalizing expr hasNeutral with
  | case1 => simp_all
  | case2 arr ih => exact ih h
  | case3 arr => cases h
  | case4 value arr hne ih =>
    simp only [Option.map_eq_some_iff, Prod.exists, Prod.mk.injEq] at h
    obtain ⟨xs, t, hc, rfl, rfl⟩ := h
    simpa [hsplit] using (ih hc).cons _
  | case5 e arr hne ih =>
    simp only [Option.map_eq_some_iff, Prod.exists, Prod.mk.injEq] at h
    obtain ⟨xs, t, hc, rfl, rfl⟩ := h
    simpa using ih hc

theorem collect_eq_nil {arr : List (Option (ContextKeyExpression L))}
    {expr : List (ContextKeyExpression L)} {hasNeutral : Bool}
    (hparts : ∀ e ∈ defined arr, parts e ≠ [])
    (h : collect b parts arr = some (expr, hasNeutral)) :
    defined arr = [] ↔ expr = [] ∧ hasNeutral = false := by
  fun_induction collect b parts arr generalizing expr hasNeutral with
  | case1 => simp_all
  | case2 arr ih => exact ih hparts h
  | case3 arr => cases h
  | case4 value arr hne ih =>
    simp only [Option.map_eq_some_iff, Prod.exists, Prod.mk.injEq] at h
    obtain ⟨xs, t, hc, rfl, rfl⟩ := h
    simp
  | case5 e arr hne ih =>
    simp only [Option.map_eq_some_iff, Prod.exists, Prod.mk.injEq] at h
    obtain ⟨xs, t, hc, rfl, rfl⟩ := h
    simp [hparts e (by simp)]

theorem collect_some {arr : List (Option (ContextKeyExpression L))}
    {expr : List (ContextKeyExpression L)} {hasNeutral : Bool}
    (hparts : Splits context b parts) (hsound : ∀ e ∈ defined arr, Sound context e)
    (h : collect b parts arr = some (expr, hasNeutral)) :
    (∀ e ∈ expr, Sound context e) ∧
      (Decides context b expr ↔ Decides context b (defined arr)) := by
  fun_induction collect b parts arr generalizing expr hasNeutral with
  | case1 => simp_all
  | case2 arr ih => exact ih hsound h
  | case3 arr => cases h
  | case4 value arr hne ih =>
    simp only [Option.map_eq_some_iff, Prod.exists, Prod.mk.injEq] at h
    obtain ⟨xs, t, hc, rfl, rfl⟩ := h
    simp only [defined_some, List.forall_mem_cons] at hsound
    obtain ⟨hs, hd⟩ := ih hsound.2 hc
    exact ⟨hs, by simp [evaluate, hne, hd]⟩
  | case5 e arr hne ih =>
    simp only [Option.map_eq_some_iff, Prod.exists, Prod.mk.injEq] at h
    obtain ⟨xs, t, hc, rfl, rfl⟩ := h
    simp only [defined_some, List.forall_mem_cons] at hsound
    obtain ⟨hs, hd⟩ := ih hsound.2 hc
    obtain ⟨-, hps, hpd⟩ := hparts e hsound.1
    refine ⟨?_, by simp [hd, hpd]⟩
    simpa [or_imp, forall_and] using ⟨hps, hs⟩

end Collect

section Normalize

variable {F : LeafFamily L} {context : L → Bool}

mutual

theorem evaluate_eq_of_equals (h : ∀ l m, F.equals l m = true → context l = context m) :
    ∀ a b : ContextKeyExpression L, equals F a b = true →
      evaluate context a = evaluate context b
  | .constant b, .constant c, heq => by simpa [equals, evaluate] using heq
  | .leaf l, .leaf m, heq => h l m heq
  | .and xs _, .and ys _, heq => by
    simp only [equals, Bool.and_eq_true, beq_iff_eq] at heq
    simp only [evaluate]
    exact (evaluateTerms_eq_of_equals h xs ys heq.1 heq.2).1
  | .or xs _, .or ys _, heq => by
    simp only [equals, Bool.and_eq_true, beq_iff_eq] at heq
    simp only [evaluate]
    exact (evaluateTerms_eq_of_equals h xs ys heq.1 heq.2).2

theorem evaluateTerms_eq_of_equals (h : ∀ l m, F.equals l m = true → context l = context m) :
    ∀ xs ys : List (ContextKeyExpression L), xs.length = ys.length →
      equalTerms F xs ys = true →
      evaluateAll context xs = evaluateAll context ys ∧
        evaluateAny context xs = evaluateAny context ys
  | [], [], _, _ => ⟨rfl, rfl⟩
  | x :: xs, y :: ys, hlen, heq => by
    simp only [equalTerms, Bool.and_eq_true] at heq
    have hx := evaluate_eq_of_equals h x y heq.1
    obtain ⟨hall, hany⟩ := evaluateTerms_eq_of_equals h xs ys (by simpa using hlen) heq.2
    simp [evaluateAll, evaluateAny, hx, hall, hany]

end

theorem dedupeAfter_sublist (e : ContextKeyExpression L) (expr : List (ContextKeyExpression L)) :
    (dedupeAfter F e expr).Sublist (e :: expr) := by
  fun_induction dedupeAfter F e expr with
  | case1 e => rfl
  | case2 e y expr heq ih => exact ih.trans ((List.sublist_cons_self y expr).cons_cons e)
  | case3 e y expr hne ih => exact ih.cons_cons e

theorem decides_dedupeAfter (hr : Respects F context) (b : Bool) (e : ContextKeyExpression L)
    (expr : List (ContextKeyExpression L)) :
    Decides context b (dedupeAfter F e expr) ↔ Decides context b (e :: expr) := by
  fun_induction dedupeAfter F e expr with
  | case1 e => rfl
  | case2 e y expr heq ih =>
    have := evaluate_eq_of_equals hr.equals e y heq
    simp [ih, this]
  | case3 e y expr hne ih => simp [ih]

theorem dedupeAfter_ne_nil (e : ContextKeyExpression L) (expr : List (ContextKeyExpression L)) :
    dedupeAfter F e expr ≠ [] := by
  fun_induction dedupeAfter F e expr with
  | case1 e => simp
  | case2 e y expr heq ih => exact ih
  | case3 e y expr hne ih => simp

theorem dedupe_sublist (expr : List (ContextKeyExpression L)) :
    (dedupe F expr).Sublist expr := by
  cases expr with
  | nil => rfl
  | cons e expr => exact dedupeAfter_sublist e expr

theorem decides_dedupe (hr : Respects F context) (b : Bool)
    (expr : List (ContextKeyExpression L)) :
    Decides context b (dedupe F expr) ↔ Decides context b expr := by
  cases expr with
  | nil => rfl
  | cons e expr => exact decides_dedupeAfter hr b e expr

theorem dedupe_eq_nil {expr : List (ContextKeyExpression L)} : dedupe F expr = [] ↔ expr = [] := by
  cases expr with
  | nil => simp [dedupe]
  | cons e expr => simp [dedupe, dedupeAfter_ne_nil]

theorem sort_perm (expr : List (ContextKeyExpression L)) : (sort F expr).Perm expr :=
  List.mergeSort_perm expr _

theorem dedupe_sort_ne_nil {expr : List (ContextKeyExpression L)} (h : expr ≠ []) :
    dedupe F (sort F expr) ≠ [] := by
  rw [Ne, dedupe_eq_nil, ← List.length_eq_zero_iff, (sort_perm expr).length_eq,
    List.length_eq_zero_iff]
  exact h

theorem popOr_eq_some {expr terms rest : List (ContextKeyExpression L)}
    {second : ContextKeyExpression L} (h : popOr expr = some (terms, second, rest)) :
    ∃ negated, expr = rest ++ [second, .or terms negated] := by
  unfold popOr at h
  split at h
  · next terms' negated second' rest' heq =>
    simp only [Option.some.injEq, Prod.mk.injEq] at h
    obtain ⟨rfl, rfl, rfl⟩ := h
    exact ⟨negated, by simpa using congrArg List.reverse heq⟩
  · cases h

end Normalize

/-- What a call of `and` or `or` may return for its arguments. -/
def Gives (context : L → Bool) (b : Bool) (arr : List (Option (ContextKeyExpression L))) :
    Option (ContextKeyExpression L) → Prop
  | none => defined arr = []
  | some e => defined arr ≠ [] ∧ Sound context e ∧
      (evaluate context e = b ↔ Decides context b (defined arr))

section Gives

variable {F : LeafFamily L} {context : L → Bool} {b : Bool}
  {parts : ContextKeyExpression L → List (ContextKeyExpression L)}
  {arr : List (Option (ContextKeyExpression L))} {expr : List (ContextKeyExpression L)}
  {hasNeutral : Bool}

theorem gives_absorbing (h : collect b parts arr = none) :
    Gives context b arr (some (.constant b)) := by
  have hd : Decides context b (defined arr) := collect_none h
  refine ⟨?_, .constant b, by simpa [evaluate] using hd⟩
  rintro heq
  simp [heq] at hd

theorem gives_empty (hparts : Splits context b parts) (hsound : ∀ e ∈ defined arr, Sound context e)
    (h : collect b parts arr = some ([], hasNeutral)) :
    Gives context b arr (if hasNeutral then some (.constant !b) else none) := by
  have hnil := collect_eq_nil (fun e he => (hparts e (hsound e he)).1) h
  obtain ⟨-, hd⟩ := collect_some hparts hsound h
  cases hasNeutral with
  | false => simpa [Gives] using hnil
  | true => simp_all [Gives, Sound.constant, evaluate]

theorem Gives.of_pair {left right : ContextKeyExpression L} {r : Option (ContextKeyExpression L)}
    (h : Gives context false [some left, some right] r) :
    ∃ e, r = some e ∧ Sound context e ∧
      (evaluate context e = true ↔ evaluate context left = true ∧ evaluate context right = true) := by
  cases r with
  | none => simp [Gives] at h
  | some e =>
    obtain ⟨-, he, hev⟩ := h
    refine ⟨e, rfl, he, ?_⟩
    rw [← Bool.not_eq_false, hev]
    simp

/-- The terms left by flattening, sorting and dropping duplicates. -/
structure Terms (context : L → Bool) (b : Bool) (arr : List (Option (ContextKeyExpression L)))
    (expr : List (ContextKeyExpression L)) : Prop where
  nonempty : expr ≠ []
  sound : ∀ e ∈ expr, Sound context e
  decides : Decides context b expr ↔ Decides context b (defined arr)
  some_arg : defined arr ≠ []

theorem terms_of_collect (hparts : Splits context b parts)
    (hsound : ∀ e ∈ defined arr, Sound context e)
    (h : collect b parts arr = some (expr, hasNeutral)) (hne : expr ≠ []) :
    Terms context b arr expr := by
  have hnil := collect_eq_nil (fun e he => (hparts e (hsound e he)).1) h
  obtain ⟨hs, hd⟩ := collect_some hparts hsound h
  exact ⟨hne, hs, hd, fun heq => hne (hnil.mp heq).1⟩

theorem Terms.normalized (hr : Respects F context) (h : Terms context b arr expr) :
    Terms context b arr (dedupe F (sort F expr)) where
  nonempty := dedupe_sort_ne_nil h.nonempty
  sound e he := h.sound e ((sort_perm expr).mem_iff.mp ((dedupe_sublist _).mem he))
  decides := by
    rw [decides_dedupe hr, Decides.perm (sort_perm expr)]
    exact h.decides
  some_arg := h.some_arg

theorem Terms.gives {e : ContextKeyExpression L} (h : Terms context b arr expr)
    (hsound : Sound context e) (he : evaluate context e = b ↔ Decides context b expr) :
    Gives context b arr (some e) :=
  ⟨h.some_arg, hsound, he.trans h.decides⟩

theorem Terms.gives_single {e : ContextKeyExpression L} (h : Terms context b arr [e]) :
    Gives context b arr (some e) :=
  h.gives (h.sound e (by simp)) (by simp)

/-- A term and its opposite among the terms decide for both constants. -/
theorem Terms.gives_complementary (h : Terms context b arr expr)
    (hboth : ∀ b, Decides context b expr) : Gives context b arr (some (.constant b)) :=
  h.gives (.constant b) (by simpa [evaluate] using hboth b)

theorem of_checked {α : Type} {extra : Bool} {check : Option Bool} {next : Bool → Option α}
    {r : α}
    (h : (if extra = true then check >>= next else some false >>= next) = some r) :
    ∃ complementary, (complementary = true → check = some true) ∧ next complementary = some r := by
  cases extra with
  | false => exact ⟨false, by simp, h⟩
  | true =>
    simp only [if_true, Option.bind_eq_bind, Option.bind_eq_some_iff] at h
    obtain ⟨complementary, hc, h⟩ := h
    exact ⟨complementary, fun heq => heq ▸ hc, h⟩

end Gives

theorem eq_not_of_iff (b : Bool) {x y : Bool} (h : x = !b ↔ y = b) : y = !x := by
  cases x <;> cases y <;> cases b <;> simp_all

/-! What each function returns, if it returns. -/

section Means

variable (context : L → Bool)

/-- A negation passed to `create` is the opposite of what the call is to build. -/
def Opposite (b : Bool) (negated : Option (ContextKeyExpression L))
    (expr : List (ContextKeyExpression L)) : Prop :=
  ∀ g, negated = some g → Sound context g ∧
    (evaluate context g = !b ↔ Decides context b expr)

def CreateMeans (b : Bool) (arr : List (Option (ContextKeyExpression L)))
    (negated : Option (ContextKeyExpression L)) (_extraRedundantCheck : Bool)
    (r : Option (ContextKeyExpression L)) : Prop :=
  (∀ e ∈ defined arr, Sound context e) → Opposite context b negated (defined arr) →
    Gives context b arr r

def FinishMeans (expr : List (ContextKeyExpression L)) (negated : Option (ContextKeyExpression L))
    (_extraRedundantCheck : Bool) (r : Option (ContextKeyExpression L)) : Prop :=
  ∀ arr, Terms context false arr expr → Opposite context false negated (defined arr) →
    Gives context false arr r

def ComplementaryMeans (expr : List (ContextKeyExpression L)) (r : Bool) : Prop :=
  (∀ e ∈ expr, Sound context e) → r = true → ∀ b, Decides context b expr

def NegateMeans (e n : ContextKeyExpression L) : Prop :=
  Sound context e → Sound context n ∧ evaluate context n = !evaluate context e

def NegateAllMeans (expr result : List (ContextKeyExpression L)) : Prop :=
  (∀ e ∈ expr, Sound context e) → (∀ n ∈ result, Sound context n) ∧
    (result = [] ↔ expr = []) ∧ ∀ b, Decides context b result ↔ Decides context (!b) expr

def DistributeNegationsMeans (result r : List (ContextKeyExpression L)) : Prop :=
  result ≠ [] → (∀ n ∈ result, Sound context n) → ∃ n, r = [n] ∧ Sound context n ∧
    (evaluate context n = false ↔ Decides context false result)

def PairsMean (lefts rights : List (ContextKeyExpression L))
    (all : List (Option (ContextKeyExpression L))) : Prop :=
  (∀ e ∈ lefts, Sound context e) → (∀ e ∈ rights, Sound context e) →
    (∀ e ∈ defined all, Sound context e) ∧
    (defined all = [] ↔ lefts = [] ∨ rights = []) ∧
    (Decides context true (defined all) ↔
      Decides context true lefts ∧ Decides context true rights)

def DistributeMeans (expr : List (ContextKeyExpression L)) (_extraRedundantCheck : Bool)
    (r : List (ContextKeyExpression L)) : Prop :=
  ∀ arr, Terms context false arr expr → Terms context false arr r

end Means

theorem create_means {F : LeafFamily L} {context : L → Bool} (hr : Respects F context) :
    (∀ arr negated extra r, ContextKeyAndExpr.create F arr negated extra = some r →
      CreateMeans context false arr negated extra r) ∧
    (∀ arr negated extra r, ContextKeyOrExpr.create F arr negated extra = some r →
      CreateMeans context true arr negated extra r) ∧
    (∀ e n, ContextKeyExpression.negate F e = some n → NegateMeans context e n) := by
  have h := ContextKeyAndExpr.create.mutual_partial_correctness F
    (CreateMeans context false) (FinishMeans context) (ComplementaryMeans context)
    (NegateMeans context) (DistributeNegationsMeans context) (CreateMeans context true)
    (PairsMean context) (fun left => PairsMean context [left]) (NegateAllMeans context)
    (DistributeMeans context) (fun terms second _ => PairsMean context terms [second])
    ?_ ?_ ?_ ?_ ?_ ?_ ?_ ?_ ?_ ?_ ?_
  · exact ⟨h.1, h.2.2.2.2.2.1, h.2.2.2.1⟩
  · intro finish distribute hfinish hdistribute arr negated extra r h hsound hopp
    have hparts := splits_conjuncts context
    split at h
    · next hc =>
      cases h
      exact gives_absorbing hc
    · next hc =>
      cases h
      exact gives_empty hparts hsound hc
    · next hc =>
      cases h
      exact (terms_of_collect hparts hsound hc (by simp)).gives_single
    · next expr t hnil hone hc =>
      have hterms := (terms_of_collect hparts hsound hc (by simpa using hnil)).normalized hr
      split at h
      · next heq =>
        cases h
        rw [heq] at hterms
        exact hterms.gives_single
      · simp only [Option.bind_eq_bind, Option.bind_eq_some_iff] at h
        obtain ⟨expr', hd, hf⟩ := h
        exact hfinish _ _ _ _ hf arr (hdistribute _ _ _ hd arr hterms) hopp
  · intro anyComplementary hany expr negated extra r h arr hterms hopp
    split at h
    · cases h
      exact hterms.gives_single
    · obtain ⟨complementary, hc, h⟩ := of_checked h
      cases complementary with
      | true =>
        cases h
        exact hterms.gives_complementary (hany _ _ (hc rfl) hterms.sound rfl)
      | false =>
        cases h
        refine hterms.gives (.and hterms.nonempty hterms.sound ?_ ?_) (evaluate_and context _ _)
        · exact fun g hg => (hopp g hg).1
        · exact fun g hg => (hopp g hg).2.trans hterms.decides.symm
  · intro anyComplementary negate hany hnegate expr r h hsound hr' b
    split at h
    · next e x expr =>
      simp only [Option.bind_eq_bind, Option.bind_eq_some_iff] at h
      obtain ⟨n, hn, h⟩ := h
      rw [decides_cons]
      split at h
      · next heq =>
        obtain ⟨y, hy, heq⟩ := List.any_eq_true.mp heq
        have hy' := evaluate_eq_of_equals hr.equals n y heq
        rw [(hnegate _ _ hn (hsound e (by simp))).2] at hy'
        by_cases he : evaluate context e = b
        · exact .inl he
        · refine .inr ⟨y, hy, ?_⟩
          rw [← hy', Bool.not_eq_eq_eq_not]
          exact Bool.eq_not_of_ne he
      · exact .inr (hany _ _ h (fun y hy => hsound y (List.mem_cons_of_mem _ hy)) hr' b)
    · cases h
      cases hr'
  · intro distributeNegations create negateAll hdist hcreate hall e n h hsound
    cases hsound with
    | constant value =>
      cases h
      exact ⟨.constant _, by simp [evaluate]⟩
    | leaf l =>
      have hl := hr.negate l
      dsimp only at h
      split at h
      · next value heq =>
        cases h
        exact ⟨.constant value, by simpa [heq, evaluate] using hl⟩
      · next m heq =>
        cases h
        exact ⟨.leaf m, by simpa [heq, evaluate] using hl⟩
    | @and expr negated nonempty terms given opposite =>
      have hand := evaluate_and context expr negated
      cases negated with
      | some g =>
        cases h
        exact ⟨given _ rfl, eq_not_of_iff true (hand.trans (opposite _ rfl).symm)⟩
      | none =>
        simp only [Option.bind_eq_bind, Option.bind_eq_some_iff] at h
        obtain ⟨result, hres, negated, hc, rfl⟩ := h
        obtain ⟨hs, -, hd⟩ := hall _ _ hres terms
        have hopp : Opposite context true (some (.and expr none)) result := by
          rintro g ⟨⟩
          exact ⟨.and nonempty terms given opposite, hand.trans (hd true).symm⟩
        obtain ⟨-, hn, hev⟩ := hcreate _ _ _ _ hc (by simpa using hs) (by simpa using hopp)
        rw [defined_map_some, hd true] at hev
        exact ⟨hn, eq_not_of_iff true (hand.trans hev.symm)⟩
    | @or expr negated nonempty terms given opposite =>
      have hor := evaluate_or context expr negated
      cases negated with
      | some g =>
        cases h
        exact ⟨given _ rfl, eq_not_of_iff false (hor.trans (opposite _ rfl).symm)⟩
      | none =>
        simp only [Option.bind_eq_bind, Option.bind_eq_some_iff] at h
        obtain ⟨result, hres, result', hdn, negated, hc, rfl⟩ := h
        obtain ⟨hs, hnil, hd⟩ := hall _ _ hres terms
        obtain ⟨m, rfl, hm, hmev⟩ := hdist _ _ hdn (fun heq => nonempty (hnil.mp heq)) hs
        have hm' : Decides context true [m] ↔ evaluate context (.or expr none) = false := by
          rw [decides_cons, or_iff_left (decides_nil context true), ← Bool.not_eq_false, hmev,
            hd false, Bool.not_false, ← hor, Bool.not_eq_true]
        have hopp : Opposite context true (some (.or expr none)) [m] := by
          rintro g ⟨⟩
          exact ⟨.or nonempty terms given opposite, hm'.symm⟩
        obtain ⟨-, hn, hev⟩ := hcreate _ _ _ _ hc (by simpa using hm) (by simpa using hopp)
        rw [defined_map_some, hm'] at hev
        exact ⟨hn, eq_not_of_iff true hev.symm⟩
  · intro distributeNegations create andPairs hdist hcreate hpairs result r h hne hsound
    split at h
    · next left right rest =>
      simp only [Option.bind_eq_bind, Option.bind_eq_some_iff] at h
      obtain ⟨all, hall, e, hc, h⟩ := h
      simp only [List.forall_mem_cons] at hsound
      obtain ⟨hleft, hright, hrest⟩ := hsound
      obtain ⟨-, hls, hld⟩ := splits_getTerminals context left hleft
      obtain ⟨-, hrs, hrd⟩ := splits_getTerminals context right hright
      obtain ⟨hs, -, hd⟩ := hpairs _ _ _ hall hls hrs
      have he := hcreate _ _ _ _ hc hs (by rintro g ⟨⟩)
      cases e with
      | none => cases h
      | some e =>
        obtain ⟨-, he, hev⟩ := he
        obtain ⟨n, rfl, hn, hnev⟩ := hdist _ _ h (by simp) (by simpa using ⟨he, hrest⟩)
        have hev' : evaluate context e = false ↔
            evaluate context left = false ∨ evaluate context right = false := by
          rw [← Bool.not_eq_true, hev, hd, hld, hrd, not_and_or, Bool.not_eq_true,
            Bool.not_eq_true]
        refine ⟨n, rfl, hn, hnev.trans ?_⟩
        simp only [decides_cons, hev', or_assoc]
    · next hne' =>
      cases h
      obtain ⟨n, rest, rfl⟩ := List.exists_cons_of_ne_nil hne
      cases rest with
      | nil => exact ⟨n, rfl, hsound n (by simp), by simp⟩
      | cons right rest => exact absurd rfl (hne' n right rest)
  · intro anyComplementary hany arr negated extra r h hsound hopp
    have hparts := splits_getTerminals context
    split at h
    · next hc =>
      cases h
      exact gives_absorbing hc
    · next hc =>
      cases h
      exact gives_empty hparts hsound hc
    · next hc =>
      cases h
      exact (terms_of_collect hparts hsound hc (by simp)).gives_single
    · next expr t hnil hone hc =>
      have hterms := (terms_of_collect hparts hsound hc (by simpa using hnil)).normalized hr
      split at h
      · next heq =>
        cases h
        rw [heq] at hterms
        exact hterms.gives_single
      · obtain ⟨complementary, hc, h⟩ := of_checked h
        cases complementary with
        | true =>
          cases h
          exact hterms.gives_complementary (hany _ _ (hc rfl) hterms.sound rfl)
        | false =>
          cases h
          refine hterms.gives (.or hterms.nonempty hterms.sound ?_ ?_) (evaluate_or context _ _)
          · exact fun g hg => (hopp g hg).1
          · exact fun g hg => (hopp g hg).2.trans hterms.decides.symm
  · intro andPairs andWith hpairs hwith lefts rights r h hls hrs
    cases lefts with
    | nil => cases h; simp
    | cons left lefts =>
      simp only [Option.bind_eq_bind, Option.bind_eq_some_iff] at h
      obtain ⟨these, hthese, all, hall, h⟩ := h
      cases h
      simp only [List.forall_mem_cons] at hls
      obtain ⟨hs, hnil, hd⟩ := hwith _ _ _ hthese (by simpa using hls.1) hrs
      obtain ⟨hs', hnil', hd'⟩ := hpairs _ _ _ hall hls.2 hrs
      refine ⟨?_, ?_, ?_⟩
      · simpa [or_imp, forall_and] using ⟨hs, hs'⟩
      · rw [defined_append, List.append_eq_nil_iff, hnil, hnil']
        simp only [List.cons_ne_nil, false_or]
        exact and_iff_left_of_imp Or.inr
      · simp only [defined_append, decides_append, hd, hd', decides_cons, decides_nil, or_false,
          or_and_right]
  · intro create andWith hcreate hwith left rights r h hls hrs
    cases rights with
    | nil => cases h; simp
    | cons right rights =>
      simp only [Option.bind_eq_bind, Option.bind_eq_some_iff] at h
      obtain ⟨e, he, all, hall, h⟩ := h
      cases h
      simp only [List.forall_mem_cons] at hls hrs
      have hs : ∀ e ∈ defined [some left, some right], Sound context e := by
        simpa using ⟨hls.1, hrs.1⟩
      obtain ⟨e, rfl, hes, hev⟩ := (hcreate _ _ _ _ he hs (by rintro g ⟨⟩)).of_pair
      obtain ⟨hs', -, hd'⟩ := hwith _ _ _ hall (by simpa using hls) hrs.2
      refine ⟨by simpa using ⟨hes, hs'⟩, by simp, ?_⟩
      simp only [defined_some, decides_cons, decides_nil, hev, hd', or_false, and_or_left]
  · intro negate negateAll hnegate hall expr result h hsound
    cases expr with
    | nil => cases h; simp
    | cons e expr =>
      simp only [Option.bind_eq_bind, Option.bind_eq_some_iff] at h
      obtain ⟨n, hn, result, hres, h⟩ := h
      cases h
      simp only [List.forall_mem_cons] at hsound
      obtain ⟨hns, hev⟩ := hnegate _ _ hn hsound.1
      obtain ⟨hs, -, hd⟩ := hall _ _ hres hsound.2
      refine ⟨by simpa using ⟨hns, hs⟩, by simp, ?_⟩
      intro b
      simp [hd, hev]
  · intro create distribute distributeOver hcreate hdist hover expr extra r h arr hterms
    split at h
    · cases h
      exact hterms
    · next terms second rest hpop =>
      obtain ⟨negated, rfl⟩ := popOr_eq_some hpop
      simp only [Option.bind_eq_bind, Option.bind_eq_some_iff] at h
      obtain ⟨arr', harr, result, hc, h⟩ := h
      have hsecond := hterms.sound second (by simp)
      obtain ⟨hne, hts, -⟩ : terms ≠ [] ∧ _ :=
        splits_getTerminals context _ (hterms.sound (.or terms negated) (by simp))
      have hor := evaluate_or context terms negated
      obtain ⟨hs, hnil, hd⟩ := hover _ _ _ _ harr hts (by simpa using hsecond)
      have he := hcreate _ _ _ _ hc hs (by rintro g ⟨⟩)
      cases result with
      | none => exact absurd (hnil.mp he) (by simpa using hne)
      | some e =>
        obtain ⟨-, he, hev⟩ := he
        refine hdist _ _ _ h arr ⟨?_, ?_, ?_, hterms.some_arg⟩
        · simp [← List.length_eq_zero_iff, (sort_perm _).length_eq]
        · intro x hx
          rw [(sort_perm _).mem_iff, List.mem_append, List.mem_singleton] at hx
          rcases hx with hx | rfl
          · exact hterms.sound x (by simp [hx])
          · exact he
        · rw [← hterms.decides, Decides.perm (sort_perm _)]
          have hev' : evaluate context e = false ↔
              evaluate context (.or terms negated) = false ∨ evaluate context second = false := by
            rw [← Bool.not_eq_true, hev, hd, ← hor, not_and_or, decides_cons,
              or_iff_left (decides_nil context true), Bool.not_eq_true, Bool.not_eq_true]
          simp [hev', or_comm]
  · intro create distributeOver hcreate hover terms second extra r h hls hrs
    cases terms with
    | nil => cases h; simp
    | cons el terms =>
      simp only [Option.bind_eq_bind, Option.bind_eq_some_iff] at h
      obtain ⟨e, he, all, hall, h⟩ := h
      cases h
      simp only [List.forall_mem_cons] at hls hrs
      have hs : ∀ e ∈ defined [some el, some second], Sound context e := by
        simpa using ⟨hls.1, hrs.1⟩
      obtain ⟨e, rfl, hes, hev⟩ := (hcreate _ _ _ _ he hs (by rintro g ⟨⟩)).of_pair
      obtain ⟨hs', -, hd'⟩ := hover _ _ _ _ hall hls.2 (by simpa using hrs)
      refine ⟨by simpa using ⟨hes, hs'⟩, by simp, ?_⟩
      simp only [defined_some, decides_cons, decides_nil, hev, hd', or_false, or_and_right]

end NexgileIde.ContextKey
