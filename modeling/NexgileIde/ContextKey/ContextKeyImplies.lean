import NexgileIde.ContextKey.ContextKeyNegation

/-!
# Provable implications

`implies` compares normal forms term by term, where terms that neither come before the other
count as one. So it is as good as that order is on leaves.
-/

namespace NexgileIde.ContextKey

open Text ContextKeyExpression

variable {L : Type} (F : LeafFamily L)

/-- Returns true if all elements in `p` are also present in `q`. The two arrays are assumed to
be sorted. -/
def allElementsIncluded :
    List (ContextKeyExpression L) → List (ContextKeyExpression L) → Bool
  | [], _ => true
  | _ :: _, [] => false
  | x :: p, y :: q =>
    -- an element from `p` is missing from `q`
    if cmp F x y < 0 then false
    else if cmp F x y = 0 then allElementsIncluded p q
    else allElementsIncluded (x :: p) q

mutual

/-- Returns true if it is provable `p` implies `q`. -/
def implies (p q : ContextKeyExpression L) : Bool :=
  match p, q with
  | .constant false, _ => true
  | _, .constant true => true
  | .or ps _, .or qs _ => allElementsIncluded F ps qs
  | .or _ _, _ => false
  | p, .or qs _ => impliesSome p qs
  -- `a && b && c` implies `a && c`
  | .and ps _, .and qs _ => allElementsIncluded F qs ps
  | .and ps _, q => someImplies ps q
  | p, q => equals F p q
termination_by sizeOf p + sizeOf q

def impliesSome (p : ContextKeyExpression L) (qs : List (ContextKeyExpression L)) : Bool :=
  match qs with
  | [] => false
  | q :: qs => implies p q || impliesSome p qs
termination_by sizeOf p + sizeOf qs

def someImplies (ps : List (ContextKeyExpression L)) (q : ContextKeyExpression L) : Bool :=
  match ps with
  | [] => false
  | p :: ps => implies p q || someImplies ps q
termination_by sizeOf ps + sizeOf q

end

variable {F} {context : L → Bool}

/-- Leaves of one type that neither come before the other evaluate alike. -/
def OrderedAlike (F : LeafFamily L) (context : L → Bool) : Prop :=
  ∀ l m, F.type l = F.type m → F.cmp l m = 0 → context l = context m

theorem code_injective : Function.Injective ContextKeyExprType.code := by
  intro t t' h
  cases t <;> cases t' <;> first | rfl | cases h

theorem type_eq_of_cmp {a b : ContextKeyExpression L}
    (h : ContextKeyExpression.cmp F a b = 0) :
    a.type F = b.type F := by
  have hcode : ∀ t t' : ContextKeyExprType, t.code - t'.code = 0 → t = t' :=
    fun t t' ht => code_injective (sub_eq_zero.mp ht)
  cases a <;> cases b <;> simp only [ContextKeyExpression.cmp] at h
  case leaf.leaf l m =>
    split_ifs at h with htype
    · exact hcode _ _ h
    · exact (not_not.mp htype).symm
  case and.and => rfl
  case or.or => rfl
  all_goals exact hcode _ _ h

theorem lengthFirst_eq_zero {m n : ℕ} {r : ℤ}
    (h : (if m < n then -1 else if m > n then 1 else r) = 0) : m = n ∧ r = 0 := by
  split_ifs at h
  · cases h
  · exact ⟨by omega, h⟩

theorem leaf_type_ne (F : LeafFamily L) (l : L) :
    F.type l ≠ .False ∧ F.type l ≠ .True ∧ F.type l ≠ .And ∧ F.type l ≠ .Or := by
  have := F.single l
  simpa [List.mem_cons, not_or] using this

mutual

theorem evaluate_eq_of_cmp (h : OrderedAlike F context) :
    ∀ a b : ContextKeyExpression L, ContextKeyExpression.cmp F a b = 0 →
      evaluate context a = evaluate context b
  | .leaf l, .leaf m, h0 => by
    have htype : F.type l = F.type m := type_eq_of_cmp h0
    rw [ContextKeyExpression.cmp, if_neg (not_not.mpr htype.symm)] at h0
    exact h l m htype h0
  | .and xs _, .and ys _, h0 => by
    rw [ContextKeyExpression.cmp] at h0
    obtain ⟨hlen, h0⟩ := lengthFirst_eq_zero h0
    simp only [evaluate]
    exact (evaluateTerms_eq_of_cmp h xs ys hlen h0).1
  | .or xs _, .or ys _, h0 => by
    rw [ContextKeyExpression.cmp] at h0
    obtain ⟨hlen, h0⟩ := lengthFirst_eq_zero h0
    simp only [evaluate]
    exact (evaluateTerms_eq_of_cmp h xs ys hlen h0).2
  | .constant b, .constant c, h0 => by
    have htype := type_eq_of_cmp h0
    cases b <;> cases c <;> simp_all [type]
  | .constant b, .leaf m, h0 => by
    have htype := type_eq_of_cmp h0
    have := leaf_type_ne F m
    cases b <;> simp_all [type]
  | .leaf l, .constant c, h0 => by
    have htype := type_eq_of_cmp h0
    have := leaf_type_ne F l
    cases c <;> simp_all [type]
  | .leaf l, .and _ _, h0 => absurd (type_eq_of_cmp h0) (leaf_type_ne F l).2.2.1
  | .leaf l, .or _ _, h0 => absurd (type_eq_of_cmp h0) (leaf_type_ne F l).2.2.2
  | .and _ _, .leaf m, h0 => absurd (type_eq_of_cmp h0).symm (leaf_type_ne F m).2.2.1
  | .or _ _, .leaf m, h0 => absurd (type_eq_of_cmp h0).symm (leaf_type_ne F m).2.2.2
  | .constant b, .and _ _, h0 => by
    have htype := type_eq_of_cmp h0
    cases b <;> cases htype
  | .constant b, .or _ _, h0 => by
    have htype := type_eq_of_cmp h0
    cases b <;> cases htype
  | .and _ _, .constant c, h0 => by
    have htype := type_eq_of_cmp h0
    cases c <;> cases htype
  | .or _ _, .constant c, h0 => by
    have htype := type_eq_of_cmp h0
    cases c <;> cases htype
  | .and _ _, .or _ _, h0 => by cases type_eq_of_cmp h0
  | .or _ _, .and _ _, h0 => by cases type_eq_of_cmp h0

theorem evaluateTerms_eq_of_cmp (h : OrderedAlike F context) :
    ∀ xs ys : List (ContextKeyExpression L), xs.length = ys.length → cmpTerms F xs ys = 0 →
      evaluateAll context xs = evaluateAll context ys ∧
        evaluateAny context xs = evaluateAny context ys
  | [], [], _, _ => ⟨rfl, rfl⟩
  | x :: xs, y :: ys, hlen, h0 => by
    rw [cmpTerms] at h0
    by_cases hx : ContextKeyExpression.cmp F x y = 0
    · rw [if_neg (not_not.mpr hx)] at h0
      have hx := evaluate_eq_of_cmp h x y hx
      obtain ⟨hall, hany⟩ := evaluateTerms_eq_of_cmp h xs ys (by simpa using hlen) h0
      simp [evaluateAll, evaluateAny, hx, hall, hany]
    · rw [if_pos hx] at h0
      exact absurd h0 hx

end

theorem of_allElementsIncluded (h : OrderedAlike F context) {p q : List (ContextKeyExpression L)}
    (hincluded : allElementsIncluded F p q = true) :
    ∀ x ∈ p, ∃ y ∈ q, evaluate context x = evaluate context y := by
  fun_induction allElementsIncluded F p q with
  | case1 q => nofun
  | case2 x p => cases hincluded
  | case3 x p y q hlt => cases hincluded
  | case4 x p y q hlt h0 ih =>
    rw [List.forall_mem_cons]
    refine ⟨⟨y, List.mem_cons_self, evaluate_eq_of_cmp h x y h0⟩, fun z hz => ?_⟩
    obtain ⟨w, hw, heq⟩ := ih hincluded z hz
    exact ⟨w, List.mem_cons_of_mem y hw, heq⟩
  | case5 x p y q hlt hne ih =>
    intro z hz
    obtain ⟨w, hw, heq⟩ := ih hincluded z hz
    exact ⟨w, List.mem_cons_of_mem y hw, heq⟩

/-- Leaves that are taken for equal are alike in order. -/
def EqualOrdered (F : LeafFamily L) : Prop :=
  ∀ l m, F.equals l m = true → F.type l = F.type m ∧ F.cmp l m = 0

theorem of_included_disjuncts (h : OrderedAlike F context) {ps qs : List (ContextKeyExpression L)}
    (hincluded : allElementsIncluded F ps qs = true) (hp : evaluateAny context ps = true) :
    evaluateAny context qs = true := by
  rw [evaluateAny_eq_true] at hp ⊢
  obtain ⟨x, hx, heval⟩ := hp
  obtain ⟨y, hy, heq⟩ := of_allElementsIncluded h hincluded x hx
  exact ⟨y, hy, heq ▸ heval⟩

theorem of_included_conjuncts (h : OrderedAlike F context) {ps qs : List (ContextKeyExpression L)}
    (hincluded : allElementsIncluded F qs ps = true) (hp : evaluateAll context ps = true) :
    evaluateAll context qs = true := by
  by_contra hq
  rw [Bool.not_eq_true, evaluateAll_eq_false] at hq
  obtain ⟨x, hx, heval⟩ := hq
  obtain ⟨y, hy, heq⟩ := of_allElementsIncluded h hincluded x hx
  have hfalse : evaluateAll context ps = false :=
    (evaluateAll_eq_false context ps).mpr ⟨y, hy, heq ▸ heval⟩
  rw [hp] at hfalse
  cases hfalse

/-- `implies` is sound in a context in which leaves that are alike in order evaluate alike. -/
theorem evaluate_of_implies (h : OrderedAlike F context) (hequals : EqualOrdered F)
    (p q : ContextKeyExpression L) (himplies : implies F p q = true)
    (hp : evaluate context p = true) : evaluate context q = true := by
  have hleaf : ∀ l m, F.equals l m = true → context l = context m := fun l m heq =>
    h l m (hequals l m heq).1 (hequals l m heq).2
  revert himplies hp
  apply implies.induct
    (fun p q => implies F p q = true → evaluate context p = true → evaluate context q = true)
    (fun ps q => someImplies F ps q = true → evaluateAll context ps = true →
      evaluate context q = true)
    (fun p qs => impliesSome F p qs = true → evaluate context p = true →
      evaluateAny context qs = true)
  · rintro q - ⟨⟩
  · rintro p - - -
    rfl
  · intro ps negated qs negated' himplies hp
    rw [implies] at himplies
    exact of_included_disjuncts h himplies hp
  · intro q ps negated htrue hor himplies
    rw [implies] at himplies
    · cases himplies
    · exact htrue
    · exact hor
  · intro p qs negated hfalse hor ih himplies hp
    rw [implies] at himplies
    · rw [evaluate]
      exact ih himplies hp
    · exact hfalse
    · exact hor
  · intro ps negated qs negated' himplies hp
    rw [implies] at himplies
    rw [evaluate] at hp ⊢
    exact of_included_conjuncts h himplies hp
  · intro ps negated q htrue hor hand ih himplies hp
    rw [implies] at himplies
    · rw [evaluate] at hp
      exact ih himplies hp
    · exact htrue
    · exact hor
    · exact hand
  · intro p q hfalse htrue _ hp' hq' _ hand himplies hp
    rw [implies] at himplies
    · rw [← evaluate_eq_of_equals hleaf p q himplies]
      exact hp
    all_goals assumption
  · intro q himplies
    rw [someImplies] at himplies
    cases himplies
  · intro q p ps ihp ihps himplies hp
    rw [someImplies, Bool.or_eq_true] at himplies
    rw [evaluateAll, Bool.and_eq_true] at hp
    rcases himplies with himplies | himplies
    · exact ihp himplies hp.1
    · exact ihps himplies hp.2
  · intro p himplies
    rw [impliesSome] at himplies
    cases himplies
  · intro p q qs ihq ihqs himplies hp
    rw [impliesSome, Bool.or_eq_true] at himplies
    rw [evaluateAny, Bool.or_eq_true]
    rcases himplies with himplies | himplies
    · exact .inl (ihq himplies hp)
    · exact .inr (ihqs himplies hp)

section Vocabulary

variable {P : Platform} {V : Vocabulary P}

theorem Platform.lessThan_self (P : Platform) (v : Value) : P.lessThan v v = false := by
  have hnumber : ∀ n : Number, n.lessThan n = false := by
    intro n
    cases n <;> simp [Number.lessThan]
  unfold lessThan
  split
  · next hs ht =>
    rw [hs, Value.string.injEq] at ht
    simp [ht]
  · exact hnumber _

theorem cmp1_self (key : Str) : cmp1 key key = 0 := by
  unfold cmp1
  rw [if_neg (List.lt_irrefl key), if_neg (List.lt_irrefl key)]

theorem cmp2_self {α : Type} (less : α → α → Bool) (hless : ∀ v, less v v = false) (key : Str)
    (v : α) : cmp2 less key v key v = 0 := by
  unfold cmp2
  rw [if_neg (List.lt_irrefl key), if_neg (List.lt_irrefl key), hless]
  rfl

theorem strLess_self (s : Str) : strLess s s = false :=
  decide_eq_false (List.lt_irrefl s)

theorem Leaf.cmp_self (P : Platform) (l : Leaf) : l.cmp P l = 0 := by
  cases l with
  | defined key => exact cmp1_self key
  | not key => exact cmp1_self key
  | equals key v => exact cmp2_self _ P.lessThan_self _ _
  | notEquals key v => exact cmp2_self _ P.lessThan_self _ _
  | comparison type key v => exact cmp2_self _ P.lessThan_self _ _
  | _ => exact cmp2_self strLess strLess_self _ _

theorem Vocabulary.equalOrdered (V : Vocabulary P) : EqualOrdered V.leaves := by
  intro l m h
  have hlm : l.1.equalsTo m.1 = true := h
  rcases Leaf.of_equalsTo hlm with heq | ⟨key, r, r', hsource, ⟨hl, hm⟩ | ⟨hl, hm⟩⟩
  · obtain rfl : l = m := Subtype.ext heq
    exact ⟨rfl, l.1.cmp_self P⟩
  all_goals
    change l.1.type = m.1.type ∧ l.1.cmp P m.1 = 0
    rw [hl, hm, Leaf.cmp, hsource]
    exact ⟨rfl, cmp2_self strLess strLess_self _ _⟩

theorem Value.strictEquals_comm (v w : Value) : v.strictEquals w = w.strictEquals v := by
  cases v <;> cases w <;> simp [strictEquals, Bool.beq_comm]
  next n m =>
    cases n <;> cases m <;> simp [Number.equals, eq_comm]

theorem Leaf.equalsTo_comm (l m : Leaf) : l.equalsTo m = m.equalsTo l := by
  cases l <;> cases m <;>
    simp [equalsTo, Bool.beq_comm, Value.strictEquals_comm]

theorem Leaf.opposite_equalsTo (l m : Leaf) :
    l.opposite.equalsTo m.opposite = l.equalsTo m := by
  cases l <;> cases m <;> try rfl
  next type _ _ type' _ _ => cases type <;> cases type' <;> rfl

theorem Leaf.opposite_cmp (l m : Leaf) : l.opposite.cmp P m.opposite = l.cmp P m := by
  cases l <;> cases m <;> rfl

theorem cmp2_eq_zero_comm {α : Type} {less : α → α → Bool} {key key' : Str} {v v' : α}
    (h : cmp2 less key v key' v' = 0) : cmp2 less key' v' key v = 0 := by
  unfold cmp2 at h ⊢
  split_ifs at h ⊢ <;> simp_all

theorem Leaf.cmp_eq_zero_comm {l m : Leaf} (h : l.cmp P m = 0) : m.cmp P l = 0 := by
  have hkey : ∀ k k', cmp1 k k' = 0 → cmp1 k' k = 0 := by
    intro k k' h
    unfold cmp1 at h ⊢
    split_ifs at h ⊢ <;> simp_all
  cases l <;> cases m <;> first
    | rfl
    | exact hkey _ _ h
    | exact cmp2_eq_zero_comm h

theorem sort_pair (F : LeafFamily L) (a b : ContextKeyExpression L) :
    sort F [a, b] = if ContextKeyExpression.cmp F a b ≤ 0 then [a, b] else [b, a] := by
  unfold ContextKeyExpression.sort
  simp [List.mergeSort, List.merge]

theorem anyComplementary_pair {a b : V.Leaf} (h : a.1.opposite.equalsTo b.1 = false) :
    anyComplementary V.leaves [.leaf a, .leaf b] = some false := by
  have hequals : equals V.leaves (.leaf ⟨a.1.opposite, V.opposite a.1 a.2⟩) (.leaf b) = false := h
  rw [anyComplementary, ContextKeyExpression.negate, V.negate_eq]
  simp only [Option.bind_eq_bind, Option.bind_some, List.any_cons, List.any_nil, hequals,
    Bool.or_false]
  rw [anyComplementary]
  · rfl
  · rintro e x expr ⟨⟩

/-- Two leaves of different types, neither the negation of the other, stay a disjunction. -/
theorem build_pair {a b : V.Leaf} (htype : a.1.type ≠ b.1.type)
    (h1 : a.1.opposite.equalsTo b.1 = false) (h2 : b.1.opposite.equalsTo a.1 = false) :
    (Formula.or [.leaf a, .leaf b]).build V.leaves =
      some (some (.or (if a.1.type.code ≤ b.1.type.code then [.leaf a, .leaf b]
        else [.leaf b, .leaf a]) none)) := by
  have hequals : ∀ x y : V.Leaf, x.1.type ≠ y.1.type →
      equals V.leaves (.leaf x) (.leaf y) = false := by
    intro x y hxy
    rw [Bool.eq_false_iff]
    exact fun heq => hxy (V.equalOrdered x y heq).1
  have hcmp : ContextKeyExpression.cmp V.leaves (.leaf a) (.leaf b) =
      a.1.type.code - b.1.type.code := by
    rw [ContextKeyExpression.cmp]
    exact if_pos (Ne.symm htype)
  have hcollect : collect true getTerminals [some (leaf a), some (leaf b)] =
      some ([leaf a, leaf b], false) := rfl
  have hbuild : (Formula.or [.leaf a, .leaf b]).build V.leaves =
      ContextKeyOrExpr.create V.leaves [some (leaf a), some (leaf b)] none true := rfl
  rw [hbuild, ContextKeyOrExpr.create, hcollect]
  simp only [sort_pair, hcmp]
  split_ifs with hcode hle hle
  · simp only [dedupe, dedupeAfter, hequals a b htype, Bool.false_eq_true, if_false,
      anyComplementary_pair h1]
    rfl
  · omega
  · omega
  · simp only [dedupe, dedupeAfter, hequals b a htype.symm, Bool.false_eq_true, if_false,
      anyComplementary_pair h2]
    rfl

theorem Leaf.opposite_type_ne (l : Leaf) : l.opposite.type ≠ l.type := by
  cases l with
  | comparison type => cases type <;> nofun
  | _ => nofun

/-- The type of the negations of a type of leaves. -/
def ContextKeyExprType.opposite : ContextKeyExprType → ContextKeyExprType
  | Defined => Not
  | Not => Defined
  | Equals => NotEquals
  | NotEquals => Equals
  | Regex => NotRegex
  | NotRegex => Regex
  | In => NotIn
  | NotIn => In
  | Greater => SmallerEquals
  | GreaterEquals => Smaller
  | Smaller => GreaterEquals
  | SmallerEquals => Greater
  | t => t

theorem Leaf.opposite_type (l : Leaf) : l.opposite.type = l.type.opposite := by
  cases l with
  | comparison type => cases type <;> rfl
  | _ => rfl

/-- A leaf and its negation are never both true. -/
theorem Leaf.opposite_false {l : Leaf} {context : Str → Value}
    (h : l.evaluate P context = true) : l.opposite.evaluate P context = false := by
  by_cases hnumber : l.HasNumber P context
  · rw [(l.evaluate_opposite context).mpr hnumber, h, Bool.not_true]
  · cases l with
    | comparison type key value =>
      cases value with
      | string s => cases h
      | number n =>
        revert h
        simp only [HasNumber, not_and_or, not_not] at hnumber
        simp only [evaluate]
        rcases hnumber with rfl | hnan
        · cases type <;> cases P.parseFloatOf (context key) <;>
            simp [ComparisonType.evaluate, Number.lessThan, Number.lessThanOrEqual]
        · rw [hnan]
          cases type <;> cases n <;>
            simp [ComparisonType.evaluate, Number.lessThan, Number.lessThanOrEqual]
    | _ => exact absurd trivial hnumber

/-- What `implies` and `equals` promise for two expressions. -/
def ImpliesSound (V : Vocabulary P) (p q : ContextKeyExpression V.Leaf) : Prop :=
  (implies V.leaves p q = true → ∀ context, evaluate (V.evaluate context) p = true →
      evaluate (V.evaluate context) q = true) ∧
    (equals V.leaves p q = true → ∀ context, evaluate (V.evaluate context) p =
      evaluate (V.evaluate context) q)

theorem cmp_leaf {a b : V.Leaf} (htype : a.1.type = b.1.type) (h : a.1.cmp P b.1 = 0) :
    ContextKeyExpression.cmp V.leaves (.leaf a) (.leaf b) = 0 := by
  rw [ContextKeyExpression.cmp, if_neg]
  · exact h
  · exact not_not.mpr htype.symm

theorem allElementsIncluded_pair {a b c d : V.Leaf} (htype : a.1.type = c.1.type)
    (h : a.1.cmp P c.1 = 0) (htype' : b.1.type = d.1.type) (h' : b.1.cmp P d.1 = 0) :
    allElementsIncluded V.leaves [.leaf a, .leaf b] [.leaf c, .leaf d] = true := by
  simp [allElementsIncluded, cmp_leaf htype h, cmp_leaf htype' h']

/-- Two leaves that are alike in order, one true and one not, refute a disjunction with each
other's negations. -/
theorem not_sound_of_differ {l m : Leaf} (hl : V.Mem l) (hm : V.Mem m)
    (hsound : ∀ (f g : Formula V.Leaf) (p q), f.build V.leaves = some (some p) →
      g.build V.leaves = some (some q) → ImpliesSound V p q)
    (htype : l.type = m.type) (hcmp : l.cmp P m = 0) {context : Str → Value}
    (htrue : l.evaluate P context = true) : m.evaluate P context = true := by
  let a : V.Leaf := ⟨l, hl⟩
  let b : V.Leaf := ⟨m, hm⟩
  let a' : V.Leaf := ⟨l.opposite, V.opposite l hl⟩
  let b' : V.Leaf := ⟨m.opposite, V.opposite m hm⟩
  cases heq : l.equalsTo m with
  | true =>
    have h := hsound (.leaf a) (.leaf b) (.leaf a) (.leaf b) rfl rfl
    have hev := h.2 heq context
    exact hev.symm.trans htrue
  | false =>
    have htype' : l.opposite.type = m.opposite.type := by
      rw [Leaf.opposite_type, Leaf.opposite_type, htype]
    have hcmp' : m.opposite.cmp P l.opposite = 0 := by
      rw [Leaf.opposite_cmp]
      exact Leaf.cmp_eq_zero_comm hcmp
    have hab : a.1.type ≠ b'.1.type := by
      change l.type ≠ m.opposite.type
      rw [htype]
      exact m.opposite_type_ne.symm
    have hba : b.1.type ≠ a'.1.type := by
      change m.type ≠ l.opposite.type
      rw [← htype]
      exact l.opposite_type_ne.symm
    have hopposite : l.opposite.equalsTo m.opposite = false := by
      rw [Leaf.opposite_equalsTo, heq]
    have hopposite' : m.opposite.equalsTo l.opposite = false := by
      rw [Leaf.equalsTo_comm, hopposite]
    have hp := build_pair hab hopposite
      (by rw [Leaf.opposite_opposite, Leaf.equalsTo_comm]; exact heq)
    have hq := build_pair hba hopposite' (by rw [Leaf.opposite_opposite]; exact heq)
    have hq' : ∀ xs, (xs = [leaf b, leaf a'] ∨ xs = [leaf a', leaf b]) →
        evaluate (V.evaluate context) (ContextKeyExpression.or xs none) = true →
          m.evaluate P context = true := by
      have hfalse : V.evaluate context a' = false := Leaf.opposite_false htrue
      rintro xs (rfl | rfl) hev
      all_goals
        simp only [evaluate, evaluateAny, hfalse, Bool.or_false, Bool.false_or] at hev
        exact hev
    have h := hsound _ _ _ _ hp hq
    have hcode : (a.1.type.code ≤ b'.1.type.code) = (b.1.type.code ≤ a'.1.type.code) := by
      change (l.type.code ≤ m.opposite.type.code) = (m.type.code ≤ l.opposite.type.code)
      rw [htype, htype']
    simp only [hcode] at h
    have htrue' : V.evaluate context a = true := htrue
    split_ifs at h
    · apply hq' [leaf b, leaf a'] (.inl rfl)
      apply h.1
      · rw [implies]
        exact allElementsIncluded_pair htype hcmp htype'.symm hcmp'
      · simp [evaluate, evaluateAny, htrue']
    · apply hq' [leaf a', leaf b] (.inr rfl)
      apply h.1
      · rw [implies]
        exact allElementsIncluded_pair htype'.symm hcmp' htype hcmp
      · simp [evaluate, evaluateAny, htrue']

/-- Neither leaf comes before the other: they are of one class and on one key, regular
expressions have one source, and of other values neither is less. -/
def Leaf.Unordered (P : Platform) : Leaf → Leaf → Prop
  | defined k, defined k' | not k, not k' => k = k'
  | equals k v, equals k' v' | notEquals k v, notEquals k' v' =>
    k = k' ∧ P.lessThan v v' = false ∧ P.lessThan v' v = false
  | regex k r, regex k' r' | notRegex k r, notRegex k' r' =>
    k = k' ∧ regexpSource r = regexpSource r'
  | .in k v, .in k' v' | notIn k v, notIn k' v' => k = k' ∧ v = v'
  | comparison type k v, comparison type' k' v' =>
    type = type' ∧ k = k' ∧ P.lessThan v.toValue v'.toValue = false ∧
      P.lessThan v'.toValue v.toValue = false
  | _, _ => False

theorem str_eq_of_not_lt {s t : Str} (h : ¬ s < t) (h' : ¬ t < s) : s = t :=
  List.le_antisymm h' h

theorem cmp1_eq_zero {k k' : Str} : cmp1 k k' = 0 ↔ k = k' := by
  constructor
  · intro h
    unfold cmp1 at h
    split_ifs at h with h1 h2
    · cases h
    · exact str_eq_of_not_lt h1 h2
  · rintro rfl
    exact cmp1_self k

theorem cmp2_eq_zero {α : Type} {less : α → α → Bool} {k k' : Str} {v v' : α} :
    cmp2 less k v k' v' = 0 ↔ k = k' ∧ less v v' = false ∧ less v' v = false := by
  constructor
  · intro h
    unfold cmp2 at h
    split_ifs at h with h1 h2 h3 h4
    · cases h
    · cases h
    · exact ⟨str_eq_of_not_lt h1 h2, Bool.eq_false_iff.mpr h3, Bool.eq_false_iff.mpr h4⟩
  · rintro ⟨rfl, h, h'⟩
    unfold cmp2
    rw [if_neg (List.lt_irrefl k), if_neg (List.lt_irrefl k), h, h']
    rfl

theorem strLess_eq_false {s t : Str} : strLess s t = false ∧ strLess t s = false ↔ s = t := by
  constructor
  · rintro ⟨h, h'⟩
    exact str_eq_of_not_lt (of_decide_eq_false h) (of_decide_eq_false h')
  · rintro rfl
    exact ⟨strLess_self s, strLess_self s⟩

theorem ComparisonType.exprType_injective {t t' : ComparisonType} (h : t.exprType = t'.exprType) :
    t = t' := by
  cases t <;> cases t' <;> first | rfl | cases h

theorem Leaf.unordered_iff {l m : Leaf} :
    l.Unordered P m ↔ l.type = m.type ∧ l.cmp P m = 0 := by
  have hcomparison : ∀ (t : ComparisonType) (x : ContextKeyExprType),
      x ∉ [.Greater, .GreaterEquals, .Smaller, .SmallerEquals] → t.exprType ≠ x := by
    intro t x hx ht
    subst ht
    cases t <;> simp [ComparisonType.exprType] at hx
  cases l <;> cases m
  case comparison.comparison t k v t' k' v' =>
    simp only [Unordered, type, cmp, cmp2_eq_zero]
    exact and_congr_left' ⟨congrArg _, ComparisonType.exprType_injective⟩
  case defined.defined => simp only [Unordered, type, cmp, cmp1_eq_zero, true_and]
  case not.not => simp only [Unordered, type, cmp, cmp1_eq_zero, true_and]
  case equals.equals => simp only [Unordered, type, cmp, cmp2_eq_zero, true_and]
  case notEquals.notEquals => simp only [Unordered, type, cmp, cmp2_eq_zero, true_and]
  case regex.regex =>
    simp only [Unordered, type, cmp, cmp2_eq_zero, strLess_eq_false, true_and]
  case notRegex.notRegex =>
    simp only [Unordered, type, cmp, cmp2_eq_zero, strLess_eq_false, true_and]
  case in.in => simp only [Unordered, type, cmp, cmp2_eq_zero, strLess_eq_false, true_and]
  case notIn.notIn => simp only [Unordered, type, cmp, cmp2_eq_zero, strLess_eq_false, true_and]
  all_goals
    simp only [Unordered, type, false_iff, not_and]
    intro htype
    first
      | cases htype
      | exact absurd htype (hcomparison _ _ (by simp))
      | exact absurd htype.symm (hcomparison _ _ (by simp))

/-- `/a/`, and `/a/i` when the flag is set -/
def letterA (flags : Str) : RegExp := ⟨[97], flags, by simp⟩

/-- A platform for texts of one letter: the flag `i` lets the capital match too. -/
def letterPlatform : Platform where
  constantValues _ := none
  isWindows := false
  objects _ := ⟨[], none, []⟩
  toLowerCase := id
  stringToNumber _ := .nan
  parseFloat _ := .nan
  test r v := v = .string [97] || (v = .string [65] && r.flags.contains 105)

/-- Regular expressions on the key of one letter, and their negations. -/
def regexOnly : Vocabulary letterPlatform where
  Mem l := ∃ r, l = .regex [107] r ∨ l = .notRegex [107] r
  created l h := by
    obtain ⟨r, rfl | rfl⟩ := h <;> trivial
  opposite l h := by
    obtain ⟨r, rfl | rfl⟩ := h
    · exact ⟨r, .inr rfl⟩
    · exact ⟨r, .inl rfl⟩

end Vocabulary

end NexgileIde.ContextKey
