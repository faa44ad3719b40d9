import NexgileIde.ContextKey.ContextKeyMeaning

/-!
# Every call returns

`negate` calls itself on terms of negations, which are no parts of the expression it was
called for. What becomes smaller is how deep given negations are nested: the terms of a
negation are leaves or come from a negation that the expression was given.
-/

namespace NexgileIde.ContextKey

open ContextKeyExpression

variable {L : Type}

/-- Given negations are nested less than `k` deep, and at level 0 there are only leaves. -/
inductive Within : ℕ → ContextKeyExpression L → Prop
  | constant (k : ℕ) (value : Bool) : Within k (.constant value)
  | leaf (k : ℕ) (l : L) : Within k (.leaf l)
  | and {k expr negated} (nonempty : expr ≠ []) (terms : ∀ e ∈ expr, Within (k + 1) e)
      (given : ∀ g, negated = some g → Within k g) : Within (k + 1) (.and expr negated)
  | or {k expr negated} (nonempty : expr ≠ []) (terms : ∀ e ∈ expr, Within (k + 1) e)
      (given : ∀ g, negated = some g → Within k g) : Within (k + 1) (.or expr negated)

namespace Within

theorem mono {k m : ℕ} {e : ContextKeyExpression L} (h : Within k e) (hkm : k ≤ m) :
    Within m e := by
  induction h generalizing m with
  | constant k value => exact .constant m value
  | leaf k l => exact .leaf m l
  | @and k expr negated nonempty terms given ihterms ihgiven =>
    obtain ⟨m, rfl⟩ := Nat.exists_eq_add_of_lt hkm
    exact .and nonempty (fun e he => ihterms e he hkm) (fun g hg => ihgiven g hg (by omega))
  | @or k expr negated nonempty terms given ihterms ihgiven =>
    obtain ⟨m, rfl⟩ := Nat.exists_eq_add_of_lt hkm
    exact .or nonempty (fun e he => ihterms e he hkm) (fun g hg => ihgiven g hg (by omega))

theorem of_terms_and {k : ℕ} {expr : List (ContextKeyExpression L)} (hk : 0 < k)
    (hne : expr ≠ []) (h : ∀ e ∈ expr, Within k e) : Within k (.and expr none) := by
  obtain ⟨k, rfl⟩ := Nat.exists_eq_succ_of_ne_zero hk.ne'
  exact .and hne h (by simp)

theorem of_terms_or {k : ℕ} {expr : List (ContextKeyExpression L)} (hk : 0 < k)
    (hne : expr ≠ []) (h : ∀ e ∈ expr, Within k e) : Within k (.or expr none) := by
  obtain ⟨k, rfl⟩ := Nat.exists_eq_succ_of_ne_zero hk.ne'
  exact .or hne h (by simp)

theorem getTerminals {k : ℕ} {e : ContextKeyExpression L} (h : Within k e) :
    e.getTerminals ≠ [] ∧ ∀ t ∈ e.getTerminals, Within k t := by
  cases h with
  | or nonempty terms given => exact ⟨nonempty, terms⟩
  | constant k value => simp [ContextKeyExpression.getTerminals, Within.constant]
  | leaf k l => simp [ContextKeyExpression.getTerminals, Within.leaf]
  | and nonempty terms given =>
    simp [ContextKeyExpression.getTerminals, Within.and nonempty terms given]

theorem conjuncts {k : ℕ} {e : ContextKeyExpression L} (h : Within k e) :
    e.conjuncts ≠ [] ∧ ∀ t ∈ e.conjuncts, Within k t := by
  cases h with
  | and nonempty terms given => exact ⟨nonempty, terms⟩
  | constant k value => simp [ContextKeyExpression.conjuncts, Within.constant]
  | leaf k l => simp [ContextKeyExpression.conjuncts, Within.leaf]
  | or nonempty terms given =>
    simp [ContextKeyExpression.conjuncts, Within.or nonempty terms given]

end Within

mutual

/-- How often an OR may be distributed out of an expression. -/
def depth : ContextKeyExpression L → ℕ
  | .constant _ => 0
  | .leaf _ => 0
  | .and expr _ => depthSum expr
  | .or expr _ => depthMax expr + 1

def depthSum : List (ContextKeyExpression L) → ℕ
  | [] => 0
  | e :: expr => depth e + depthSum expr

def depthMax : List (ContextKeyExpression L) → ℕ
  | [] => 0
  | e :: expr => max (depth e) (depthMax expr)

end

section Depth

theorem depthSum_eq (expr : List (ContextKeyExpression L)) :
    depthSum expr = (expr.map depth).sum := by
  induction expr with
  | nil => rfl
  | cons e expr ih => simp [depthSum, ih]

theorem depth_le_depthMax {e : ContextKeyExpression L} {expr : List (ContextKeyExpression L)}
    (h : e ∈ expr) : depth e ≤ depthMax expr := by
  induction expr with
  | nil => simp at h
  | cons x expr ih =>
    rw [depthMax]
    rcases List.mem_cons.mp h with rfl | h
    · exact le_max_left _ _
    · exact (ih h).trans (le_max_right _ _)

theorem depthMax_le {n : ℕ} {expr : List (ContextKeyExpression L)} (h : ∀ e ∈ expr, depth e ≤ n) :
    depthMax expr ≤ n := by
  induction expr with
  | nil => simp [depthMax]
  | cons x expr ih =>
    simp only [List.forall_mem_cons] at h
    exact max_le h.1 (ih h.2)

theorem depth_le_of_mem_getTerminals {e t : ContextKeyExpression L} (h : t ∈ e.getTerminals) :
    depth t ≤ depth e := by
  cases e with
  | or expr negated => exact (depth_le_depthMax h).trans (Nat.le_succ _)
  | _ =>
    rw [List.mem_singleton.mp h]

theorem depthSum_conjuncts (e : ContextKeyExpression L) : depthSum e.conjuncts = depth e := by
  cases e <;> simp [ContextKeyExpression.conjuncts, depthSum, depth]

theorem depthSum_append (xs ys : List (ContextKeyExpression L)) :
    depthSum (xs ++ ys) = depthSum xs + depthSum ys := by
  simp [depthSum_eq]

theorem depthSum_flatMap_conjuncts (expr : List (ContextKeyExpression L)) :
    depthSum (expr.flatMap conjuncts) = depthSum expr := by
  induction expr with
  | nil => rfl
  | cons e expr ih =>
    rw [List.flatMap_cons, depthSum_append, depthSum_conjuncts, ih, depthSum]

theorem depthSum_perm {xs ys : List (ContextKeyExpression L)} (h : xs.Perm ys) :
    depthSum xs = depthSum ys := by
  rw [depthSum_eq, depthSum_eq]
  exact (h.map depth).sum_eq

theorem depthSum_sublist {xs ys : List (ContextKeyExpression L)} (h : xs.Sublist ys) :
    depthSum xs ≤ depthSum ys := by
  rw [depthSum_eq, depthSum_eq]
  exact (h.map depth).sum_le_sum (by simp)

end Depth

/-- A term of a disjunction whose own terms are of level `j`. -/
structure Term (j : ℕ) (t : ContextKeyExpression L) : Prop where
  within : Within (max 1 j) t
  conjuncts : ∀ e ∈ t.conjuncts, Within j e

/-- A disjunction of such terms. -/
structure Flat (j : ℕ) (e : ContextKeyExpression L) : Prop where
  nonempty : e.getTerminals ≠ []
  terms : ∀ t ∈ e.getTerminals, Term j t

theorem Within.term {j : ℕ} {e : ContextKeyExpression L} (h : Within j e) : Term j e :=
  ⟨h.mono (le_max_right 1 j), h.conjuncts.2⟩

theorem Within.flat {j : ℕ} {e : ContextKeyExpression L} (h : Within j e) : Flat j e :=
  ⟨h.getTerminals.1, fun t ht => (h.getTerminals.2 t ht).term⟩

theorem Term.within_of_pos {j : ℕ} {e : ContextKeyExpression L} (h : Term j e) (hj : 0 < j) :
    Within j e := by
  have := h.within
  rwa [max_eq_right hj] at this

section Or

variable {F : LeafFamily L}

theorem anyComplementary_returns {expr : List (ContextKeyExpression L)}
    (h : ∀ e ∈ expr, ∃ n, negate F e = some n) :
    ∃ found, anyComplementary F expr = some found := by
  induction expr with
  | nil => exact ⟨false, by simp [anyComplementary]⟩
  | cons e expr ih =>
    cases expr with
    | nil => exact ⟨false, by simp [anyComplementary]⟩
    | cons x expr =>
      simp only [List.forall_mem_cons] at h
      obtain ⟨n, hn⟩ := h.1
      obtain ⟨found, hfound⟩ := ih (by simpa using h.2)
      rw [anyComplementary]
      simp only [hn, hfound, Option.bind_eq_bind, Option.bind_some]
      split
      · exact ⟨true, rfl⟩
      · exact ⟨found, rfl⟩

theorem check_returns (expr : List (ContextKeyExpression L)) (extra : Bool)
    (h : extra = true → ∀ e ∈ expr, ∃ n, negate F e = some n) :
    ∃ found, (if extra = true then anyComplementary F expr else some false) = some found := by
  cases extra with
  | false => exact ⟨false, rfl⟩
  | true => exact anyComplementary_returns (h rfl)

theorem of_check {α : Type} {extra found : Bool} {check : Option Bool} {next : Bool → Option α}
    (h : (if extra = true then check else some false) = some found) :
    (if extra = true then check >>= next else some false >>= next) = next found := by
  cases extra <;> simp_all

/-- What `or` returns is made of terms of its arguments. -/
def OrShape (arr : List (Option (ContextKeyExpression L)))
    (negated : Option (ContextKeyExpression L)) : Option (ContextKeyExpression L) → Prop
  | none => defined arr = []
  | some e => (∃ value, e = .constant value) ∨ e ∈ (defined arr).flatMap getTerminals ∨
    ∃ expr, expr ≠ [] ∧ (∀ x ∈ expr, x ∈ (defined arr).flatMap getTerminals) ∧
      e = .or expr negated

theorem or_returns {arr : List (Option (ContextKeyExpression L))}
    (negated : Option (ContextKeyExpression L)) (extra : Bool)
    (hne : ∀ e ∈ defined arr, e.getTerminals ≠ [])
    (hneg : extra = true → ∀ t ∈ (defined arr).flatMap getTerminals, ∃ n, negate F t = some n) :
    ∃ r, ContextKeyOrExpr.create F arr negated extra = some r ∧ OrShape arr negated r := by
  rw [ContextKeyOrExpr.create]
  split
  · exact ⟨_, rfl, .inl ⟨true, rfl⟩⟩
  · next hasFalse hc =>
    have hnil := collect_eq_nil hne hc
    cases hasFalse with
    | false => exact ⟨none, rfl, hnil.mpr ⟨rfl, rfl⟩⟩
    | true => exact ⟨_, rfl, .inl ⟨false, rfl⟩⟩
  · next e t hc =>
    have hsub := collect_sublist (fun _ => rfl) hc
    exact ⟨_, rfl, .inr (.inl (hsub.mem (by simp)))⟩
  · next expr t hnil hone hc =>
    have hsub := collect_sublist (fun _ => rfl) hc
    have hmem : ∀ x ∈ dedupe F (sort F expr), x ∈ (defined arr).flatMap getTerminals := by
      intro x hx
      exact hsub.mem ((sort_perm expr).mem_iff.mp ((dedupe_sublist _).mem hx))
    split
    · next e heq => exact ⟨_, rfl, .inr (.inl (hmem e (by simp [heq])))⟩
    · obtain ⟨found, hfound⟩ := check_returns (F := F) (dedupe F (sort F expr)) extra
        (fun hx e he => hneg hx e (hmem e he))
      have hne' : dedupe F (sort F expr) ≠ [] := dedupe_sort_ne_nil hnil
      cases found with
      | true => exact ⟨_, of_check hfound, .inl ⟨true, rfl⟩⟩
      | false => exact ⟨_, of_check hfound, .inr (.inr ⟨_, hne', hmem, rfl⟩)⟩

end Or

theorem Term.flat {j : ℕ} {e : ContextKeyExpression L} (h : Term j e) : Flat j e := by
  cases e with
  | or expr negated => exact (h.conjuncts (.or expr negated) (List.mem_singleton_self _)).flat
  | _ => exact ⟨List.cons_ne_nil _ _, fun t ht => List.mem_singleton.mp ht ▸ h⟩

section Shape

variable {j : ℕ} {arr : List (Option (ContextKeyExpression L))}
  {negated : Option (ContextKeyExpression L)} {e : ContextKeyExpression L}

theorem Flat.term_of_mem (hflat : ∀ e ∈ defined arr, Flat j e) {t : ContextKeyExpression L}
    (ht : t ∈ (defined arr).flatMap getTerminals) : Term j t := by
  obtain ⟨e, he, ht⟩ := List.mem_flatMap.mp ht
  exact (hflat e he).terms t ht

theorem OrShape.flat (h : OrShape arr negated (some e)) (hflat : ∀ e ∈ defined arr, Flat j e) :
    Flat j e := by
  rcases h with ⟨value, rfl⟩ | he | ⟨expr, hne, hmem, rfl⟩
  · exact (Within.constant j value).flat
  · exact (Flat.term_of_mem hflat he).flat
  · exact ⟨hne, fun t ht => Flat.term_of_mem hflat (hmem t ht)⟩

theorem OrShape.within (h : OrShape arr none (some e)) (hflat : ∀ e ∈ defined arr, Flat j e) :
    Within (max 1 j) e := by
  rcases h with ⟨value, rfl⟩ | he | ⟨expr, hne, hmem, rfl⟩
  · exact .constant _ value
  · exact (Flat.term_of_mem hflat he).within
  · exact .of_terms_or (by simp) hne fun t ht => (Flat.term_of_mem hflat (hmem t ht)).within

theorem OrShape.depth_le {n : ℕ} (h : OrShape arr negated (some e))
    (hn : ∀ e ∈ defined arr, ∀ t ∈ e.getTerminals, depth t ≤ n) : depth e ≤ n + 1 := by
  have hmem : ∀ t ∈ (defined arr).flatMap getTerminals, depth t ≤ n := by
    intro t ht
    obtain ⟨e, he, ht⟩ := List.mem_flatMap.mp ht
    exact hn e he t ht
  rcases h with ⟨value, rfl⟩ | he | ⟨expr, hne, hexpr, rfl⟩
  · simp [depth]
  · exact (hmem e he).trans (Nat.le_succ n)
  · exact Nat.succ_le_succ (depthMax_le fun t ht => hmem t (hexpr t ht))

end Shape

section And

variable {F : LeafFamily L} {j n : ℕ}

/-- Terms of level `j` can be negated. -/
def Negates (F : LeafFamily L) (j : ℕ) : Prop :=
  ∀ t : ContextKeyExpression L, Term j t → ∃ n, negate F t = some n

/-- What `and` makes of terms of level `j` and of depth `n` together. -/
structure AndResult (j n : ℕ) (e : ContextKeyExpression L) : Prop where
  flat : Flat j e
  within : Within (max 1 j) e
  bound : ∀ t ∈ e.getTerminals, depth t ≤ n

def AndReturns (F : LeafFamily L) (j n : ℕ) : Prop :=
  ∀ (arr : List (Option (ContextKeyExpression L))) (extra : Bool),
    (∀ a ∈ defined arr, Term j a) → depthSum (defined arr) ≤ n →
    ∃ r, ContextKeyAndExpr.create F arr none extra = some r ∧
      (r = none → defined arr = []) ∧ ∀ e, r = some e → AndResult j n e

/-- The terms of a conjunction while ORs are distributed. -/
structure Conjunction (j n : ℕ) (expr : List (ContextKeyExpression L)) : Prop where
  nonempty : expr ≠ []
  within : ∀ e ∈ expr, Within j e
  bound : depthSum expr ≤ n

theorem AndResult.constant (j n : ℕ) (value : Bool) :
    AndResult j n (.constant value : ContextKeyExpression L) where
  flat := (Within.constant j value).flat
  within := .constant _ value
  bound := by simp [getTerminals, depth]

theorem Conjunction.single {e : ContextKeyExpression L} (h : Conjunction j n [e]) :
    AndResult j n e where
  flat := (h.within e (by simp)).flat
  within := (h.within e (by simp)).mono (le_max_right 1 j)
  bound t ht := by
    have := h.bound
    rw [depthSum, depthSum, Nat.add_zero] at this
    exact (depth_le_of_mem_getTerminals ht).trans this

theorem Conjunction.result {expr : List (ContextKeyExpression L)} (h : Conjunction j n expr) :
    AndResult j n (.and expr none) := by
  have hw : Within (max 1 j) (.and expr none) :=
    .of_terms_and (by simp) h.nonempty fun e he => (h.within e he).mono (le_max_right 1 j)
  exact ⟨Term.flat ⟨hw, h.within⟩, hw, by simpa [getTerminals, depth] using h.bound⟩

theorem Conjunction.of_collect {arr : List (Option (ContextKeyExpression L))}
    {expr : List (ContextKeyExpression L)} {hasTrue : Bool} (hterm : ∀ a ∈ defined arr, Term j a)
    (hn : depthSum (defined arr) ≤ n) (hc : collect false conjuncts arr = some (expr, hasTrue))
    (hne : expr ≠ []) : Conjunction j n expr := by
  have hsub := collect_sublist (fun _ => rfl) hc
  refine ⟨hne, ?_, ?_⟩
  · intro e he
    obtain ⟨a, ha, he⟩ := List.mem_flatMap.mp (hsub.mem he)
    exact (hterm a ha).conjuncts e he
  · rw [← depthSum_flatMap_conjuncts] at hn
    exact (depthSum_sublist hsub).trans hn

theorem Conjunction.normalized {expr : List (ContextKeyExpression L)} (h : Conjunction j n expr) :
    Conjunction j n (dedupe F (sort F expr)) where
  nonempty := dedupe_sort_ne_nil h.nonempty
  within e he := h.within e ((sort_perm expr).mem_iff.mp ((dedupe_sublist _).mem he))
  bound := by
    have := depthSum_sublist (dedupe_sublist (F := F) (sort F expr))
    rw [depthSum_perm (sort_perm expr)] at this
    exact this.trans h.bound

theorem finish_returns (hneg : Negates F j) {expr : List (ContextKeyExpression L)} (extra : Bool)
    (h : Conjunction j n expr) :
    ∃ e, ContextKeyAndExpr.finish F expr none extra = some (some e) ∧ AndResult j n e := by
  unfold ContextKeyAndExpr.finish
  split
  · exact ⟨_, rfl, h.single⟩
  · obtain ⟨found, hfound⟩ := check_returns (F := F) expr extra
      (fun _ e he => hneg e (h.within e he).term)
    cases found with
    | true => exact ⟨_, of_check hfound, .constant j n false⟩
    | false => exact ⟨_, of_check hfound, h.result⟩

theorem distributeOver_returns (hand : AndReturns F j n) {terms : List (ContextKeyExpression L)}
    {second : ContextKeyExpression L} (extra : Bool) (hsecond : Term j second)
    (hterms : ∀ el ∈ terms, Term j el ∧ depth el + depth second ≤ n) :
    ∃ arr, ContextKeyAndExpr.distributeOver F terms second extra = some arr ∧
      (defined arr = [] → terms = []) ∧ ∀ e ∈ defined arr, AndResult j n e := by
  induction terms with
  | nil => exact ⟨[], by rw [ContextKeyAndExpr.distributeOver], by simp⟩
  | cons el terms ih =>
    simp only [List.forall_mem_cons] at hterms
    obtain ⟨⟨hel, hdepth⟩, hterms⟩ := hterms
    obtain ⟨arr, harr, -, hres⟩ := ih hterms
    obtain ⟨r, hr, hnone, hsome⟩ := hand [some el, some second] extra
      (by simpa using ⟨hel, hsecond⟩) (by simpa [depthSum] using hdepth)
    rw [ContextKeyAndExpr.distributeOver]
    simp only [hr, harr, Option.bind_eq_bind, Option.bind_some]
    cases r with
    | none => simp at hnone
    | some e =>
      exact ⟨_, rfl, by simp, by simpa using ⟨hsome e rfl, hres⟩⟩

theorem Conjunction.distributed {expr terms rest : List (ContextKeyExpression L)}
    {second : ContextKeyExpression L} (h : Conjunction j n expr)
    (hpop : popOr expr = some (terms, second, rest)) :
    0 < j ∧ terms ≠ [] ∧ (∀ t ∈ terms, Within j t) ∧ Within j second ∧
      depthMax terms + depth second + 1 + depthSum rest ≤ n := by
  obtain ⟨negated, rfl⟩ := popOr_eq_some hpop
  have hor := h.within (.or terms negated) (by simp)
  have hdepth := h.bound
  rw [depthSum_append] at hdepth
  simp only [depthSum, depth] at hdepth
  refine ⟨?_, hor.getTerminals.1, hor.getTerminals.2, h.within second (by simp), by omega⟩
  cases hor
  exact Nat.succ_pos _

theorem distribute_returns (hneg : Negates F j) (ih : ∀ m < n, AndReturns F j m)
    {expr : List (ContextKeyExpression L)} (extra : Bool) (h : Conjunction j n expr) :
    ∃ expr', ContextKeyAndExpr.distribute F expr extra = some expr' ∧ Conjunction j n expr' := by
  induction hlen : expr.length generalizing expr with
  | zero => exact absurd (List.length_eq_zero_iff.mp hlen) h.nonempty
  | succ len ihlen =>
    rw [ContextKeyAndExpr.distribute]
    split
    · exact ⟨expr, rfl, h⟩
    · next terms second rest hpop =>
      obtain ⟨hj, hne, hterms, hsecond, hdepth⟩ := h.distributed hpop
      obtain ⟨arr, harr, hnil, hres⟩ := distributeOver_returns
        (ih (depthMax terms + depth second) (by omega)) extra hsecond.term
        (fun el hel => ⟨(hterms el hel).term, Nat.add_le_add_right (depth_le_depthMax hel) _⟩)
      obtain ⟨r, hr, hshape⟩ := or_returns (F := F) none rest.isEmpty
        (fun e he => (hres e he).flat.nonempty)
        (fun _ t ht => hneg t (Flat.term_of_mem (fun e he => (hres e he).flat) ht))
      simp only [harr, hr, Option.bind_eq_bind, Option.bind_some]
      cases r with
      | none => exact absurd (hnil hshape) hne
      | some e =>
        have hwithin := hshape.within fun e he => (hres e he).flat
        rw [max_eq_right hj] at hwithin
        have he := hshape.depth_le fun e he => (hres e he).bound
        obtain ⟨negated, rfl⟩ := popOr_eq_some hpop
        refine ihlen ⟨?_, ?_, ?_⟩ (by simpa [(sort_perm _).length_eq] using hlen)
        · simp [← List.length_eq_zero_iff, (sort_perm _).length_eq]
        · intro x hx
          rw [(sort_perm _).mem_iff, List.mem_append, List.mem_singleton] at hx
          rcases hx with hx | rfl
          · exact h.within x (by simp [hx])
          · exact hwithin
        · rw [depthSum_perm (sort_perm _), depthSum_append]
          simp only [depthSum]
          omega

theorem and_returns (hneg : Negates F j) (n : ℕ) : AndReturns F j n := by
  induction n using Nat.strong_induction_on with
  | _ n ih =>
    intro arr extra hterm hdepth
    unfold ContextKeyAndExpr.create
    split
    · exact ⟨_, rfl, by simp, by rintro e ⟨⟩; exact .constant j n false⟩
    · next hasTrue hc =>
      have hnil := collect_eq_nil (fun e he => (hterm e he).within.conjuncts.1) hc
      cases hasTrue with
      | false => exact ⟨none, rfl, fun _ => hnil.mpr ⟨rfl, rfl⟩, by rintro e ⟨⟩⟩
      | true => exact ⟨_, rfl, by simp, by rintro e ⟨⟩; exact .constant j n true⟩
    · next e t hc =>
      have := (Conjunction.of_collect hterm hdepth hc (by simp)).single
      exact ⟨_, rfl, by simp, by rintro e ⟨⟩; exact this⟩
    · next expr t hnil hone hc =>
      have hconj := (Conjunction.of_collect hterm hdepth hc hnil).normalized (F := F)
      split
      · next e heq =>
        rw [heq] at hconj
        exact ⟨_, rfl, by simp, by rintro e ⟨⟩; exact hconj.single⟩
      · obtain ⟨expr', hd, hconj'⟩ := distribute_returns hneg ih extra hconj
        obtain ⟨e, hf, he⟩ := finish_returns hneg extra hconj'
        simp only [hd, hf, Option.bind_eq_bind, Option.bind_some]
        exact ⟨_, rfl, by simp, by rintro e ⟨⟩; exact he⟩

end And

section Negate

variable {F : LeafFamily L} {j : ℕ}

theorem negate_leaf_returns {e : ContextKeyExpression L} (h : Within 0 e) :
    ∃ n, negate F e = some n ∧ Within 0 n := by
  cases h with
  | constant k value => exact ⟨_, by rw [negate], .constant 0 _⟩
  | leaf k l =>
    rw [negate]
    split
    · exact ⟨_, rfl, .constant 0 _⟩
    · exact ⟨_, rfl, .leaf 0 _⟩

theorem negateAll_returns {expr : List (ContextKeyExpression L)} {P : ContextKeyExpression L → Prop}
    (h : ∀ e ∈ expr, ∃ n, negate F e = some n ∧ P n) :
    ∃ result, negateAll F expr = some result ∧ (result = [] ↔ expr = []) ∧ ∀ n ∈ result, P n := by
  induction expr with
  | nil => exact ⟨[], by rw [negateAll], by simp⟩
  | cons e expr ih =>
    simp only [List.forall_mem_cons] at h
    obtain ⟨⟨n, hn, hp⟩, h⟩ := h
    obtain ⟨result, hr, -, hps⟩ := ih h
    rw [negateAll]
    simp only [hn, hr, Option.bind_eq_bind, Option.bind_some]
    exact ⟨_, rfl, by simp, by simpa using ⟨hp, hps⟩⟩

/-- The last call of `negate`, on at least one argument. -/
theorem or_some_returns (negated : Option (ContextKeyExpression L))
    {result : List (ContextKeyExpression L)} (hne : result ≠ [])
    (hterminals : ∀ e ∈ result, e.getTerminals ≠ [])
    (hneg : ∀ e ∈ result, ∀ t ∈ e.getTerminals, ∃ n, negate F t = some n) :
    ∃ e, ContextKeyOrExpr.create F (result.map some) negated true = some (some e) ∧
      OrShape (result.map some) negated (some e) := by
  have hdef := defined_map_some result
  have hneg' : ∀ t ∈ (defined (result.map some)).flatMap getTerminals,
      ∃ n, negate F t = some n := by
    intro t ht
    rw [hdef] at ht
    obtain ⟨e, he, ht⟩ := List.mem_flatMap.mp ht
    exact hneg e he t ht
  obtain ⟨r, hr, hshape⟩ := or_returns negated true (by rwa [hdef]) (fun _ => hneg')
  cases r with
  | none => exact absurd (hdef ▸ hshape) hne
  | some e => exact ⟨e, hr, hshape⟩

theorem andWith_returns (hneg : Negates F j) {left : ContextKeyExpression L}
    {rights : List (ContextKeyExpression L)} (hleft : Term j left)
    (hrights : ∀ t ∈ rights, Term j t) :
    ∃ all, ContextKeyOrExpr.andWith F left rights = some all ∧
      (defined all = [] → rights = []) ∧ ∀ e ∈ defined all, Flat j e := by
  induction rights with
  | nil => exact ⟨[], by rw [ContextKeyOrExpr.andWith], by simp⟩
  | cons right rights ih =>
    simp only [List.forall_mem_cons] at hrights
    obtain ⟨all, hall, -, hflat⟩ := ih hrights.2
    obtain ⟨r, hr, hnone, hsome⟩ := and_returns hneg _ [some left, some right] false
      (by simpa using ⟨hleft, hrights.1⟩) le_rfl
    rw [ContextKeyOrExpr.andWith]
    simp only [hr, hall, Option.bind_eq_bind, Option.bind_some]
    cases r with
    | none => simp at hnone
    | some e => exact ⟨_, rfl, by simp, by simpa using ⟨(hsome e rfl).flat, hflat⟩⟩

theorem andPairs_returns (hneg : Negates F j) {lefts rights : List (ContextKeyExpression L)}
    (hlefts : ∀ t ∈ lefts, Term j t) (hrights : ∀ t ∈ rights, Term j t) (hne : rights ≠ []) :
    ∃ all, ContextKeyOrExpr.andPairs F lefts rights = some all ∧
      (defined all = [] → lefts = []) ∧ ∀ e ∈ defined all, Flat j e := by
  induction lefts with
  | nil => exact ⟨[], by rw [ContextKeyOrExpr.andPairs], by simp⟩
  | cons left lefts ih =>
    simp only [List.forall_mem_cons] at hlefts
    obtain ⟨these, hthese, hnil, hflat⟩ := andWith_returns hneg hlefts.1 hrights
    obtain ⟨all, hall, -, hflat'⟩ := ih hlefts.2
    rw [ContextKeyOrExpr.andPairs]
    simp only [hthese, hall, Option.bind_eq_bind, Option.bind_some]
    refine ⟨_, rfl, ?_, ?_⟩
    · intro heq
      rw [defined_append, List.append_eq_nil_iff] at heq
      exact absurd (hnil heq.1) hne
    · intro e he
      rw [defined_append, List.mem_append] at he
      exact he.elim (hflat e) (hflat' e)

theorem distributeNegations_returns (hneg : Negates F j) {result : List (ContextKeyExpression L)}
    (hne : result ≠ []) (hflat : ∀ n ∈ result, Flat j n) :
    ∃ n, ContextKeyOrExpr.distributeNegations F result = some [n] ∧ Flat j n := by
  induction hlen : result.length generalizing result with
  | zero => exact absurd (List.length_eq_zero_iff.mp hlen) hne
  | succ len ih =>
    match result, hne with
    | [n], _ => exact ⟨n, by simp [ContextKeyOrExpr.distributeNegations], hflat n (by simp)⟩
    | left :: right :: rest, _ =>
      simp only [List.forall_mem_cons] at hflat
      obtain ⟨hleft, hright, hrest⟩ := hflat
      obtain ⟨all, hall, hnil, hflat⟩ :=
        andPairs_returns hneg hleft.terms hright.terms hright.nonempty
      obtain ⟨r, hr, hshape⟩ := or_returns (F := F) none false
        (fun e he => (hflat e he).nonempty) (by simp)
      rw [ContextKeyOrExpr.distributeNegations]
      simp only [hall, hr, Option.bind_eq_bind, Option.bind_some]
      cases r with
      | none => exact absurd (hnil hshape) hleft.nonempty
      | some e =>
        exact ih (by simp) (by simpa using ⟨hshape.flat hflat, hrest⟩) (by simpa using hlen)

theorem negate_and_returns (hneg : Negates F j) {expr : List (ContextKeyExpression L)}
    (hne : expr ≠ []) (h : ∀ e ∈ expr, ∃ n, negate F e = some n ∧ Flat j n) :
    ∃ n, negate F (.and expr none) = some n ∧ Flat j n ∧ ∃ arr,
      OrShape arr (some (.and expr none)) (some n) ∧ ∀ a ∈ defined arr, Flat j a := by
  obtain ⟨result, hr, hnil, hflat⟩ := negateAll_returns h
  obtain ⟨n, hn, hshape⟩ := or_some_returns (some (.and expr none))
    (fun heq => hne (hnil.mp heq)) (fun e he => (hflat e he).nonempty)
    (fun e he t ht => hneg t ((hflat e he).terms t ht))
  have hflat' : ∀ a ∈ defined (result.map some), Flat j a := by simpa using hflat
  rw [negate]
  simp only [hr, hn, Option.bind_eq_bind, Option.bind_some]
  exact ⟨n, rfl, hshape.flat hflat', _, hshape, hflat'⟩

theorem negate_or_returns (hneg : Negates F j) {expr : List (ContextKeyExpression L)}
    (hne : expr ≠ []) (h : ∀ e ∈ expr, ∃ n, negate F e = some n ∧ Flat j n) :
    ∃ n, negate F (.or expr none) = some n ∧ Flat j n ∧ ∃ arr,
      OrShape arr (some (.or expr none)) (some n) ∧ ∀ a ∈ defined arr, Flat j a := by
  obtain ⟨result, hr, hnil, hflat⟩ := negateAll_returns h
  obtain ⟨m, hm, hmflat⟩ :=
    distributeNegations_returns hneg (fun heq => hne (hnil.mp heq)) hflat
  obtain ⟨n, hn, hshape⟩ := or_some_returns (some (.or expr none))
    (List.cons_ne_nil m []) (by simpa using hmflat.nonempty)
    (by simpa using fun t ht => hneg t (hmflat.terms t ht))
  have hflat' : ∀ a ∈ defined ([m].map some), Flat j a := by simpa using hmflat
  rw [negate]
  simp only [hr, hm, hn, Option.bind_eq_bind, Option.bind_some]
  exact ⟨n, rfl, hshape.flat hflat', _, hshape, hflat'⟩

theorem OrShape.within_given {arr : List (Option (ContextKeyExpression L))}
    {e g : ContextKeyExpression L} (h : OrShape arr (some g) (some e))
    (hflat : ∀ a ∈ defined arr, Flat j a) (hg : Within (j + 1) g) : Within (j + 2) e := by
  have hterm : ∀ t ∈ (defined arr).flatMap getTerminals, Within (j + 2) t := by
    intro t ht
    exact (Flat.term_of_mem hflat ht).within.mono (by omega)
  rcases h with ⟨value, rfl⟩ | he | ⟨expr, hne, hmem, rfl⟩
  · exact .constant _ value
  · exact hterm e he
  · exact .or hne (fun t ht => hterm t (hmem t ht)) (by rintro g ⟨⟩; exact hg)

/-- The negation of an expression is made of terms one level down. -/
theorem negate_within (hneg : Negates F j) {e : ContextKeyExpression L} (h : Within (j + 1) e) :
    ∃ n, negate F e = some n ∧ Flat j n ∧ Within (j + 2) n := by
  have hleaf : ∀ {e}, Within 0 e → ∃ n, negate F e = some n ∧ Flat j n ∧ Within (j + 2) n := by
    intro e he
    obtain ⟨n, hn, hw⟩ := negate_leaf_returns (F := F) he
    exact ⟨n, hn, (hw.mono (Nat.zero_le j)).flat, hw.mono (Nat.zero_le _)⟩
  generalize hk : j + 1 = k at h
  induction h with
  | constant k value => exact hleaf (.constant 0 value)
  | leaf k l => exact hleaf (.leaf 0 l)
  | @and k expr negated nonempty terms given ihterms _ =>
    obtain rfl : j = k := Nat.succ.inj hk
    cases negated with
    | some g =>
      have hg := given g rfl
      exact ⟨g, by rw [negate], hg.flat, hg.mono (by omega)⟩
    | none =>
      obtain ⟨n, hn, hflat, arr, hshape, harr⟩ := negate_and_returns hneg nonempty
        fun e he => (ihterms e he rfl).imp fun n h => ⟨h.1, h.2.1⟩
      exact ⟨n, hn, hflat, hshape.within_given harr (.and nonempty terms given)⟩
  | @or k expr negated nonempty terms given ihterms _ =>
    obtain rfl : j = k := Nat.succ.inj hk
    cases negated with
    | some g =>
      have hg := given g rfl
      exact ⟨g, by rw [negate], hg.flat, hg.mono (by omega)⟩
    | none =>
      obtain ⟨n, hn, hflat, arr, hshape, harr⟩ := negate_or_returns hneg nonempty
        fun e he => (ihterms e he rfl).imp fun n h => ⟨h.1, h.2.1⟩
      exact ⟨n, hn, hflat, hshape.within_given harr (.or nonempty terms given)⟩

theorem Within.zero {e : ContextKeyExpression L} (h : Within 0 e) : e.getTerminals = [e] := by
  cases h <;> rfl

theorem negates_zero : Negates F 0 := by
  intro t ht
  have hconj := ht.conjuncts
  cases t with
  | constant value => exact ⟨_, by rw [negate]⟩
  | leaf l =>
    obtain ⟨n, hn, -⟩ := negate_leaf_returns (F := F) (.leaf 0 l)
    exact ⟨n, hn⟩
  | or expr negated => cases hconj (.or expr negated) (List.mem_singleton_self _)
  | and expr negated =>
    cases negated with
    | some g => exact ⟨g, by rw [negate]⟩
    | none =>
      have hexpr : ∀ e ∈ expr, Within 0 e := hconj
      obtain ⟨result, hr, hnil, hleaf⟩ :=
        negateAll_returns (F := F) fun e he => negate_leaf_returns (hexpr e he)
      obtain ⟨n, hn, -⟩ := or_some_returns (F := F) (some (.and expr none))
        (fun heq => ht.within.conjuncts.1 (hnil.mp heq)) (fun e he => by simp [(hleaf e he).zero])
        (by
          intro e he t ht
          rw [(hleaf e he).zero, List.mem_singleton] at ht
          subst ht
          exact (negate_leaf_returns (hleaf t he)).imp fun n h => h.1)
      rw [negate]
      simp only [hr, hn, Option.bind_eq_bind, Option.bind_some]
      exact ⟨n, rfl⟩

theorem negates (j : ℕ) : Negates F j := by
  induction j with
  | zero => exact negates_zero
  | succ j ih =>
    intro t ht
    obtain ⟨n, hn, -⟩ := negate_within ih (ht.within_of_pos (Nat.succ_pos j))
    exact ⟨n, hn⟩

end Negate

section Formula

variable {F : LeafFamily L} {context : L → Bool}

theorem exists_level {arr : List (Option (ContextKeyExpression L))}
    (h : ∀ e ∈ defined arr, ∃ k, Within k e) : ∃ k, ∀ e ∈ defined arr, Within k e := by
  induction arr with
  | nil => exact ⟨0, by simp⟩
  | cons a arr ih =>
    cases a with
    | none => exact ih h
    | some e =>
      simp only [defined_some, List.forall_mem_cons] at h ⊢
      obtain ⟨⟨k, hk⟩, h⟩ := h
      obtain ⟨m, hm⟩ := ih h
      exact ⟨max k m, hk.mono (le_max_left k m), fun e he => (hm e he).mono (le_max_right k m)⟩

theorem and_level {arr : List (Option (ContextKeyExpression L))}
    (h : ∀ e ∈ defined arr, ∃ k, Within k e) :
    ∃ r, ContextKeyExpr.and F arr = some r ∧ ∀ e, r = some e → ∃ k, Within k e := by
  obtain ⟨k, hk⟩ := exists_level h
  obtain ⟨r, hr, -, hres⟩ :=
    and_returns (negates (F := F) k) _ arr true (fun e he => (hk e he).term) le_rfl
  exact ⟨r, hr, fun e he => ⟨_, (hres e he).within⟩⟩

theorem or_level {arr : List (Option (ContextKeyExpression L))}
    (h : ∀ e ∈ defined arr, ∃ k, Within k e) :
    ∃ r, ContextKeyExpr.or F arr = some r ∧ ∀ e, r = some e → ∃ k, Within k e := by
  obtain ⟨k, hk⟩ := exists_level h
  obtain ⟨r, hr, hshape⟩ := or_returns (F := F) none true
    (fun e he => (hk e he).flat.nonempty)
    (fun _ t ht => negates k t (Flat.term_of_mem (fun e he => (hk e he).flat) ht))
  refine ⟨r, hr, ?_⟩
  rintro e rfl
  exact ⟨_, hshape.within fun e he => (hk e he).flat⟩

theorem negate_level {e : ContextKeyExpression L} (h : ∃ k, Within k e) :
    ∃ n, negate F e = some n ∧ ∃ k, Within k n := by
  obtain ⟨k, hk⟩ := h
  obtain ⟨n, hn, -, hw⟩ := negate_within (negates (F := F) k) (hk.mono (Nat.le_succ k))
  exact ⟨n, hn, _, hw⟩

/-- What a formula has been built to: it can be used in further formulas, and evaluates as
the formula does. -/
structure Built (F : LeafFamily L) (context : L → Bool) (f : Formula L)
    (r : Option (ContextKeyExpression L)) : Prop where
  build : f.build F = some r
  sound : ∀ e, r = some e → Sound context e
  level : ∀ e, r = some e → ∃ k, Within k e
  value : r.map (evaluate context) = f.value context

structure BuiltAll (F : LeafFamily L) (context : L → Bool) (args : List (Formula L))
    (arr : List (Option (ContextKeyExpression L))) : Prop where
  build : Formula.buildAll F args = some arr
  sound : ∀ e ∈ defined arr, Sound context e
  level : ∀ e ∈ defined arr, ∃ k, Within k e
  values : (defined arr).map (evaluate context) = Formula.values context args

namespace BuiltAll

variable {args : List (Formula L)} {arr : List (Option (ContextKeyExpression L))}

theorem values_eq_nil (h : BuiltAll F context args arr) :
    Formula.values context args = [] ↔ defined arr = [] := by
  rw [← h.values, List.map_eq_nil_iff]

theorem and_value_nil (h : BuiltAll F context args arr) (hnil : defined arr = []) :
    (Formula.and args).value context = none := by
  simp [Formula.value, h.values_eq_nil.mpr hnil]

theorem or_value_nil (h : BuiltAll F context args arr) (hnil : defined arr = []) :
    (Formula.or args).value context = none := by
  simp [Formula.value, h.values_eq_nil.mpr hnil]

theorem and_value (h : BuiltAll F context args arr) (hne : defined arr ≠ []) :
    (Formula.and args).value context = some ((Formula.values context args).all id) := by
  rw [Formula.value]
  split
  · next heq => exact absurd (h.values_eq_nil.mp heq) hne
  · rfl

theorem or_value (h : BuiltAll F context args arr) (hne : defined arr ≠ []) :
    (Formula.or args).value context = some ((Formula.values context args).any id) := by
  rw [Formula.value]
  split
  · next heq => exact absurd (h.values_eq_nil.mp heq) hne
  · rfl

end BuiltAll

theorem decides_iff_mem_values {b : Bool} {args : List (Formula L)}
    {arr : List (Option (ContextKeyExpression L))} (h : BuiltAll F context args arr) :
    Decides context b (defined arr) ↔ b ∈ Formula.values context args := by
  rw [← h.values, List.mem_map]
  rfl

mutual

theorem exists_built (hr : Respects F context) :
    ∀ f : Formula L, ∃ r, Built F context f r
  | .undefined => ⟨none, rfl, nofun, nofun, rfl⟩
  | .constant value =>
    ⟨_, rfl, by rintro e ⟨⟩; exact .constant value, by rintro e ⟨⟩; exact ⟨0, .constant 0 value⟩,
      rfl⟩
  | .leaf l =>
    ⟨_, rfl, by rintro e ⟨⟩; exact .leaf l, by rintro e ⟨⟩; exact ⟨0, .leaf 0 l⟩, rfl⟩
  | .and args => by
    obtain ⟨arr, harr⟩ := exists_builtAll hr args
    obtain ⟨r, hand, hlevel⟩ := and_level (F := F) harr.level
    have hgives := (create_means hr).1 _ _ _ _ hand harr.sound (by rintro g ⟨⟩)
    have hbuild : (Formula.and args).build F = some r := by
      simp [Formula.build, harr.build, hand]
    cases r with
    | none => exact ⟨none, hbuild, nofun, nofun, (harr.and_value_nil hgives).symm⟩
    | some e =>
      obtain ⟨hne, hs, hev⟩ := hgives
      refine ⟨some e, hbuild, by rintro e ⟨⟩; exact hs, hlevel, ?_⟩
      rw [harr.and_value hne, Option.map_some, Option.some.injEq, Bool.eq_iff_iff, ← not_iff_not,
        Bool.not_eq_true, Bool.not_eq_true, hev, decides_iff_mem_values harr]
      simp
  | .or args => by
    obtain ⟨arr, harr⟩ := exists_builtAll hr args
    obtain ⟨r, hor, hlevel⟩ := or_level (F := F) harr.level
    have hgives := (create_means hr).2.1 _ _ _ _ hor harr.sound (by rintro g ⟨⟩)
    have hbuild : (Formula.or args).build F = some r := by
      simp [Formula.build, harr.build, hor]
    cases r with
    | none => exact ⟨none, hbuild, nofun, nofun, (harr.or_value_nil hgives).symm⟩
    | some e =>
      obtain ⟨hne, hs, hev⟩ := hgives
      refine ⟨some e, hbuild, by rintro e ⟨⟩; exact hs, hlevel, ?_⟩
      rw [harr.or_value hne, Option.map_some, Option.some.injEq, Bool.eq_iff_iff, hev,
        decides_iff_mem_values harr]
      simp
  | .not arg => by
    obtain ⟨r, h⟩ := exists_built hr arg
    cases r with
    | none =>
      refine ⟨none, ?_, nofun, nofun, ?_⟩
      · simp [Formula.build, h.build]
      · simp [Formula.value, ← h.value]
    | some e =>
      obtain ⟨n, hn, hlevel⟩ := negate_level (F := F) (h.level e rfl)
      obtain ⟨hs, hev⟩ := (create_means hr).2.2 e n hn (h.sound e rfl)
      refine ⟨some n, ?_, by rintro e ⟨⟩; exact hs, by rintro e ⟨⟩; exact hlevel, ?_⟩
      · simp [Formula.build, h.build, hn]
      · simp [Formula.value, ← h.value, hev]

theorem exists_builtAll (hr : Respects F context) :
    ∀ args : List (Formula L), ∃ arr, BuiltAll F context args arr
  | [] => ⟨[], rfl, by simp, by simp, rfl⟩
  | f :: args => by
    obtain ⟨r, h⟩ := exists_built hr f
    obtain ⟨arr, harr⟩ := exists_builtAll hr args
    have hvalue := h.value
    refine ⟨r :: arr, by simp [Formula.buildAll, h.build, harr.build], ?_, ?_, ?_⟩
    · cases r with
      | none => exact harr.sound
      | some e => simpa using ⟨h.sound e rfl, harr.sound⟩
    · cases r with
      | none => exact harr.level
      | some e => simpa using ⟨h.level e rfl, harr.level⟩
    · cases r with
      | none => simp [Formula.values, ← hvalue, harr.values]
      | some e => simp [Formula.values, ← hvalue, harr.values]

end

/-- Normalising keeps the meaning: every formula is built to an expression that evaluates to
the value of the formula. -/
theorem build_evaluates (F : LeafFamily L) (context : L → Bool) (hr : Respects F context)
    (f : Formula L) :
    ∃ r, f.build F = some r ∧ r.map (evaluate context) = f.value context := by
  obtain ⟨r, h⟩ := exists_built hr f
  exact ⟨r, h.build, h.value⟩

/-- Numbered keys, as defined or as not defined. -/
def numberedKeys : LeafFamily (ℕ × Bool) where
  type l := if l.2 then .Defined else .Not
  cmp l m := (l.1 : ℤ) - m.1
  equals l m := l == m
  negate l := .inr (l.1, !l.2)
  single l := by cases l.2 <;> simp

theorem numberedKeys_respects (defined : ℕ → Bool) :
    Respects numberedKeys fun l => defined l.1 == l.2 where
  equals l m h := by rw [eq_of_beq h]
  negate l := by
    simp only [numberedKeys, Sum.elim_inr]
    cases defined l.1 <;> cases l.2 <;> rfl

/-- `!(k0 && (k1 || !k0))` where only `k0` is defined -/
theorem build_evaluates_numberedKeys :
    ∃ r, (Formula.not (.and [.leaf (0, true), .or [.leaf (1, true), .leaf (0, false)]])).build
        numberedKeys = some r ∧
      r.map (evaluate fun l => decide (l.1 = 0) == l.2) = some true :=
  build_evaluates numberedKeys _ (numberedKeys_respects fun k => decide (k = 0)) _

end Formula

end NexgileIde.ContextKey
