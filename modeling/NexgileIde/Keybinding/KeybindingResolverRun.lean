import NexgileIde.Keybinding.KeybindingResolver

/-!
# Lookup and dispatch

The lookup map keeps the rules that no later one overwrites, of all rules in effect. Pressing
chords finds the last rule that matches; whether it is one of these depends on the rules that
were complete on the way.
-/

namespace NexgileIde.Keybinding

open Text ContextKey ContextKeyExpression KeybindingResolver

variable {L A : Type} {F : LeafFamily L}

section Survivors

/-- The rules in their order, each with a place of its own. -/
def Ordered (rules : List (Rule L A)) : Prop := rules.Pairwise fun a b => a.2 < b.2

/-- A rule comes later in effect and makes another one unreachable, so the code says. -/
def covers (F : LeafFamily L) (item conflict : Rule L A) : Bool :=
  item.1.chords.head? = conflict.1.chords.head? && overwrites F item conflict

/-- The rules that no later one covers. -/
def survivors (F : LeafFamily L) (rules : List (Rule L A)) : List (Rule L A) :=
  rules.foldl (fun s item => s.filter (fun r => !covers F item r) ++ [item]) []

variable {xs : List (Rule L A)} {x r : Rule L A}

theorem survivors_append (xs : List (Rule L A)) (x : Rule L A) :
    survivors F (xs ++ [x]) = (survivors F xs).filter (fun r => !covers F x r) ++ [x] := by
  unfold survivors
  rw [List.foldl_append]
  rfl

theorem survivors_sublist (xs : List (Rule L A)) : (survivors F xs).Sublist xs := by
  induction xs using List.reverseRecOn with
  | nil => exact .slnil
  | append_singleton xs x ih =>
    rw [survivors_append]
    exact (List.filter_sublist.trans ih).append_right [x]

theorem mem_survivors_iff : r ∈ survivors F xs ↔
    ∃ ys zs, xs = ys ++ r :: zs ∧ ∀ z ∈ zs, covers F z r = false := by
  induction xs using List.reverseRecOn with
  | nil => simp [survivors]
  | append_singleton xs x ih =>
    rw [survivors_append, List.mem_append, List.mem_filter, ih, List.mem_singleton]
    constructor
    · rintro (⟨⟨ys, zs, rfl, hzs⟩, hx⟩ | rfl)
      · refine ⟨ys, zs ++ [x], by simp, fun z hz => ?_⟩
        rcases List.mem_append.mp hz with hz | hz
        · exact hzs z hz
        · cases List.mem_singleton.mp hz
          simpa using hx
      · exact ⟨xs, [], rfl, nofun⟩
    · rintro ⟨ys, zs, heq, hzs⟩
      rcases List.eq_nil_or_concat zs with rfl | ⟨zs, z, rfl⟩
      · exact .inr (List.append_inj_right' heq rfl |> List.cons.inj |>.1).symm
      · rw [List.concat_eq_append] at heq hzs
        have heq' : xs ++ [x] = (ys ++ r :: zs) ++ [z] := by simp [heq]
        obtain ⟨rfl, hx⟩ := List.append_inj' heq' rfl
        obtain rfl : x = z := (List.cons.inj hx).1
        refine .inl ⟨⟨ys, zs, rfl, fun z hz => hzs z (by simp [hz])⟩, ?_⟩
        simpa using hzs x (by simp)

end Survivors

section LookupMap

/-- The lookup map holds just these rules, under their commands. -/
def Represents (lookupMap : Str → Option (List (Rule L A))) (s : List (Rule L A)) : Prop :=
  ∀ command, (lookupMap command).getD [] = s.filter fun r => r.1.boundCommand = some command

variable {lookupMap : Str → Option (List (Rule L A))} {s : List (Rule L A)} {x : Rule L A}

theorem Represents.add (h : Represents lookupMap s) (x : Rule L A) :
    Represents (addToLookupMap lookupMap x) (s ++ [x]) := by
  intro command
  unfold addToLookupMap
  rw [List.filter_append]
  cases hbound : x.1.boundCommand with
  | none => simp [h command, hbound]
  | some bound =>
    by_cases heq : command = bound
    · subst heq
      simp [h command, hbound]
    · have hne : ¬ bound = command := fun hb => heq hb.symm
      simp [Function.update_of_ne heq, h command, hbound, hne]

theorem eraseP_eq_filter (hs : Ordered s) (n : ℕ) :
    s.eraseP (·.2 = n) = s.filter (·.2 ≠ n) := by
  induction s with
  | nil => rfl
  | cons a s ih =>
    obtain ⟨ha, hs⟩ := List.pairwise_cons.mp hs
    by_cases hn : a.2 = n
    · rw [List.eraseP_cons_of_pos (by simpa using hn), List.filter_cons_of_neg (by simpa using hn)]
      symm
      rw [List.filter_eq_self]
      intro b hb
      have := ha b hb
      simp only [ne_eq, decide_eq_true_eq]
      omega
    · rw [List.eraseP_cons_of_neg (by simpa using hn), List.filter_cons_of_pos (by simpa using hn),
        ih hs]

theorem Represents.remove (h : Represents lookupMap s) (hs : Ordered s)
    (hx : ∀ r ∈ s, r.2 = x.2 → r = x) :
    Represents (removeFromLookupMap lookupMap x) (s.filter (·.2 ≠ x.2)) := by
  have hother : ∀ command, x.1.boundCommand ≠ some command →
      (s.filter (·.2 ≠ x.2)).filter (fun r => r.1.boundCommand = some command) =
        s.filter fun r => r.1.boundCommand = some command := by
    intro command hne
    rw [List.filter_filter]
    apply List.filter_congr
    intro r hr
    by_cases hid : r.2 = x.2
    · rw [hx r hr hid]
      simp [hne]
    · simp [hid]
  intro command
  unfold removeFromLookupMap
  cases hbound : x.1.boundCommand with
  | none => rw [hother command (by simp [hbound]), ← h command]
  | some bound =>
    by_cases heq : command = bound
    · subst heq
      have hc := h command
      cases hmap : lookupMap command with
      | none =>
        rw [hmap] at hc
        rw [List.filter_comm, ← hc]
        simp [hmap]
      | some arr =>
        rw [hmap, Option.getD_some] at hc
        have harr : Ordered arr := hc ▸ List.Pairwise.sublist List.filter_sublist hs
        simp only [hmap]
        rw [Function.update_self, Option.getD_some, eraseP_eq_filter harr, hc, List.filter_comm]
    · have hne : x.1.boundCommand ≠ some command := by
        rw [hbound]
        exact fun hb => heq (Option.some.inj hb).symm
      rw [hother command hne, ← h command]
      cases hmap : lookupMap bound with
      | none => simp only [hmap]
      | some arr =>
        simp only [hmap]
        rw [Function.update_of_ne heq]

end LookupMap

section Add

variable {xs s conflicts : List (Rule L A)} {item : Rule L A}

theorem Ordered.eq_of_place (h : Ordered xs) {a b : Rule L A} (ha : a ∈ xs) (hb : b ∈ xs)
    (hab : a.2 = b.2) : a = b := by
  have hnodup : (xs.map Prod.snd).Nodup := by
    rw [List.Nodup, List.pairwise_map]
    exact h.imp fun hlt => hlt.ne
  exact List.inj_on_of_nodup_map hnodup ha hb hab

/-- The loop over the conflicts removes those that the item overwrites. -/
theorem Represents.removeAll (hxs : Ordered xs) {lookupMap : Str → Option (List (Rule L A))}
    (h : Represents lookupMap s) (hs : s.Sublist xs) (hc : ∀ c ∈ conflicts, c ∈ xs) :
    Represents (conflicts.foldl (fun lookupMap conflict =>
        if overwrites F item conflict then removeFromLookupMap lookupMap conflict else lookupMap)
      lookupMap)
      (s.filter fun r => !conflicts.any fun c => c.2 = r.2 && overwrites F item c) := by
  induction conflicts generalizing lookupMap s with
  | nil => simpa using h
  | cons c conflicts ih =>
    rw [List.forall_mem_cons] at hc
    rw [List.foldl_cons]
    split_ifs with hoverwrites
    · have hstep := h.remove (hxs.sublist hs)
        (fun r hr hid => hxs.eq_of_place (hs.mem hr) hc.1 hid)
      have := ih hstep (List.filter_sublist.trans hs) hc.2
      rw [List.filter_filter] at this
      convert this using 2
      funext r
      by_cases hid : r.2 = c.2
      · simp [hid, hoverwrites]
      · have hid' : ¬ c.2 = r.2 := fun heq => hid heq.symm
        simp [hid, hid']
    · have := ih h hs hc.2
      convert this using 2
      funext r
      simp [hoverwrites]

/-- What the maps hold for the rules that were added. -/
structure Holds (F : LeafFamily L) (xs : List (Rule L A)) (r : KeybindingResolver L A) : Prop where
  map : ∀ chord, (r.map chord).getD [] = xs.filter fun x => x.1.chords.head? = some chord
  lookup : Represents r.lookupMap (survivors F xs)

theorem Holds.addKeyPress {r : KeybindingResolver L A} (h : Holds F xs r) (hxs : Ordered xs)
    {keypress : Str} (hitem : item.1.chords.head? = some keypress) :
    Holds F (xs ++ [item]) (r.addKeyPress F keypress item) := by
  have hmap : ∀ chord,
      (Function.update r.map keypress
        (some ((r.map keypress).getD [] ++ [item])) chord).getD [] =
      (xs ++ [item]).filter fun x => x.1.chords.head? = some chord := by
    intro chord
    rw [List.filter_append]
    by_cases heq : chord = keypress
    · subst heq
      simp [h.map, hitem]
    · have hne : ¬ keypress = chord := fun hb => heq hb.symm
      simp [Function.update_of_ne heq, h.map, hitem, hne]
  have hsub := survivors_sublist (F := F) xs
  have hconflicts : (survivors F xs).filter (fun x => !covers F item x) =
      (survivors F xs).filter fun x => !((r.map keypress).getD []).reverse.any fun c =>
        c.2 = x.2 && overwrites F item c := by
    apply List.filter_congr
    intro x hx
    have hx := hsub.mem hx
    rw [h.map, Bool.not_inj_iff, Bool.eq_iff_iff, List.any_eq_true]
    constructor
    · intro hcovers
      unfold covers at hcovers
      rw [Bool.and_eq_true, decide_eq_true_eq, hitem] at hcovers
      refine ⟨x, ?_, by simp [hcovers.2]⟩
      simpa [hx] using hcovers.1.symm
    · rintro ⟨c, hc, hover⟩
      simp only [List.mem_reverse, List.mem_filter, decide_eq_true_eq, Bool.and_eq_true] at hc hover
      obtain rfl := hxs.eq_of_place hc.1 hx hover.1
      simp [covers, hitem, hc.2, hover.2]
  unfold KeybindingResolver.addKeyPress
  cases hr : r.map keypress with
  | none =>
    rw [hr] at hmap hconflicts
    refine ⟨hmap, ?_⟩
    rw [survivors_append, hconflicts]
    simpa using h.lookup.add item
  | some conflicts =>
    rw [hr] at hmap hconflicts
    refine ⟨hmap, ?_⟩
    rw [survivors_append, hconflicts]
    apply Represents.add
    apply h.lookup.removeAll hxs hsub
    intro c hc
    have hm := h.map keypress
    rw [hr, Option.getD_some] at hm
    rw [List.mem_reverse, hm] at hc
    exact (List.mem_filter.mp hc).1

end Add

section New

variable {k : Rule L A} {rules xs : List (Rule L A)}

/-- Whether the constructor adds a rule: it has chords, and its condition is not false. -/
def isInEffect (F : LeafFamily L) (constantOf : L → Option Bool) (k : Rule L A) : Bool :=
  k.1.chords ≠ [] &&
    match substituteWhen F constantOf k.1.when with
    | some (some (.constant false)) => false
    | _ => true

/-- The rules that `resolve` and the lookups are about. -/
def KeybindingResolver.inEffect (F : LeafFamily L) (constantOf : L → Option Bool)
    (r : KeybindingResolver L A) : List (Rule L A) :=
  r.keybindings.filter (isInEffect F constantOf)

/-- Conditions that can be substituted in. -/
def WhenLevelled (rules : List (Rule L A)) : Prop :=
  ∀ k ∈ rules, ∀ e, k.1.when = some e → Levelled e

theorem substituteWhen_returns (F : LeafFamily L) (constantOf : L → Option Bool)
    {when : Option (ContextKeyExpression L)} (h : ∀ e, when = some e → Levelled e) :
    ∃ r, substituteWhen F constantOf when = some r := by
  cases when with
  | none => exact ⟨none, rfl⟩
  | some e =>
    obtain ⟨r, hr, -⟩ := substituteConstants_levelled F constantOf e (h e rfl)
    exact ⟨r, hr⟩

theorem isRemoved_returns (F : LeafFamily L) (constantOf : L → Option Bool)
    {rule : ResolvedKeybindingItem L A} (hrule : ∀ e, rule.when = some e → Levelled e)
    {removals : List (Rule L A)} (h : WhenLevelled removals) :
    ∃ b, isRemoved F constantOf rule removals = some b := by
  induction removals with
  | nil => exact ⟨false, rfl⟩
  | cons removal removals ih =>
    unfold WhenLevelled at h ih
    rw [List.forall_mem_cons] at h
    obtain ⟨b, hb⟩ := ih h.2
    have htargeted : ∃ t,
        isTargetedForRemoval F constantOf rule removal.1.chords removal.1.when = some t := by
      unfold isTargetedForRemoval
      split_ifs
      · split
        · exact ⟨true, rfl⟩
        · exact ⟨true, rfl⟩
        · next when _ hwhen =>
          split
          · exact ⟨false, rfl⟩
          · next defaultWhen hdefault =>
            obtain ⟨d, hd, -⟩ :=
              substituteConstants_levelled F constantOf defaultWhen (hrule _ hdefault)
            obtain ⟨w, hw, -⟩ := substituteConstants_levelled F constantOf when (h.1 _ hwhen)
            rw [hd, hw]
            exact ⟨_, rfl⟩
      · exact ⟨false, rfl⟩
    obtain ⟨t, ht⟩ := htargeted
    unfold isRemoved
    rw [ht]
    cases t with
    | true => exact ⟨true, rfl⟩
    | false => exact ⟨b, hb⟩

theorem keepNonRemoved_returns (F : LeafFamily L) (constantOf : L → Option Bool)
    (hrules : WhenLevelled rules) (hxs : WhenLevelled xs) :
    ∃ result, keepNonRemoved F constantOf rules xs = some result ∧ result.Sublist xs := by
  induction xs with
  | nil => exact ⟨[], rfl, .slnil⟩
  | cons rule xs ih =>
    unfold WhenLevelled at hxs ih
    rw [List.forall_mem_cons] at hxs
    obtain ⟨result, hresult, hsub⟩ := ih hxs.2
    unfold keepNonRemoved
    rw [hresult]
    dsimp only [Option.bind_eq_bind, Option.bind_some]
    split
    · exact ⟨_, rfl, hsub.cons_cons rule⟩
    · next command _ =>
      split_ifs
      · exact ⟨_, rfl, hsub.cons rule⟩
      · have hremovals : WhenLevelled (removals rules command) :=
          fun k hk => hrules k (List.mem_of_mem_filter hk)
        obtain ⟨b, hb⟩ := isRemoved_returns F constantOf hxs.1 hremovals
        rw [hb]
        cases b with
        | true => exact ⟨_, rfl, hsub.cons rule⟩
        | false => exact ⟨_, rfl, hsub.cons_cons rule⟩
      · exact ⟨_, rfl, hsub.cons_cons rule⟩

theorem handleRemovals_returns (F : LeafFamily L) (constantOf : L → Option Bool)
    (hrules : WhenLevelled rules) :
    ∃ result, handleRemovals F constantOf rules = some result ∧ result.Sublist rules := by
  unfold handleRemovals
  split_ifs
  · exact keepNonRemoved_returns F constantOf hrules hrules
  · exact ⟨rules, rfl, List.Sublist.refl rules⟩

theorem addKeybinding_holds (constantOf : L → Option Bool) {r : KeybindingResolver L A}
    (h : Holds F xs r) (hxs : Ordered xs)
    (hwhen : ∀ e, k.1.when = some e → Levelled e) :
    ∃ r', addKeybinding F constantOf r k = some r' ∧ r'.keybindings = r.keybindings ∧
      Holds F (xs ++ [k].filter (isInEffect F constantOf)) r' := by
  obtain ⟨w, hw⟩ := substituteWhen_returns F constantOf hwhen
  unfold addKeybinding
  cases hchords : k.1.chords with
  | nil => exact ⟨r, rfl, rfl, by simpa [isInEffect, hchords] using h⟩
  | cons chord chords =>
    dsimp only
    rw [hw]
    dsimp only [Option.bind_eq_bind, Option.bind_some]
    split
    · exact ⟨r, rfl, rfl, by simpa [isInEffect, hchords, hw] using h⟩
    · next hne =>
      have heffect : isInEffect F constantOf k = true := by
        unfold isInEffect
        rw [hchords, hw]
        split
        · next heq =>
          cases heq
          exact absurd rfl hne
        · simp
      refine ⟨_, rfl, ?_, ?_⟩
      · unfold addKeyPress
        split <;> rfl
      · rw [List.filter_cons_of_pos heffect]
        exact h.addKeyPress hxs (by simp [hchords])

theorem foldlM_holds (constantOf : L → Option Bool) {r : KeybindingResolver L A}
    (h : Holds F xs r) {ks : List (Rule L A)}
    (hks : Ordered (xs ++ ks)) (hwhen : WhenLevelled ks) :
    ∃ r', ks.foldlM (addKeybinding F constantOf) r = some r' ∧ r'.keybindings = r.keybindings ∧
      Holds F (xs ++ ks.filter (isInEffect F constantOf)) r' := by
  induction ks generalizing xs r with
  | nil => exact ⟨r, rfl, rfl, by simpa using h⟩
  | cons k ks ih =>
    unfold WhenLevelled at hwhen ih
    rw [List.forall_mem_cons] at hwhen
    have hsub : (xs ++ [k].filter (isInEffect F constantOf)).Sublist (xs ++ [k]) :=
      (List.Sublist.refl xs).append List.filter_sublist
    have hks' : Ordered ((xs ++ [k].filter (isInEffect F constantOf)) ++ ks) := by
      have hsub' := hsub.append (List.Sublist.refl ks)
      rw [List.append_assoc xs [k] ks] at hsub'
      exact List.Pairwise.sublist hsub' hks
    obtain ⟨r', hr', hkeys, hholds⟩ := addKeybinding_holds constantOf h
      (hks.sublist (List.sublist_append_left xs _)) hwhen.1
    obtain ⟨r'', hr'', hkeys', hholds'⟩ := ih hholds hks' hwhen.2
    refine ⟨r'', ?_, hkeys'.trans hkeys, ?_⟩
    · rw [List.foldlM_cons, hr']
      exact hr''
    · rw [List.append_assoc, ← List.filter_append] at hholds'
      exact hholds'

/-- The constructor returns, and its maps hold what is in effect. -/
theorem new_holds (F : LeafFamily L) (constantOf : L → Option Bool)
    {defaultKeybindings overrides : List (ResolvedKeybindingItem L A)}
    (hwhen : ∀ k ∈ defaultKeybindings ++ overrides, ∀ e, k.when = some e → Levelled e) :
    ∃ r, KeybindingResolver.new F constantOf defaultKeybindings overrides = some r ∧
      Ordered (r.inEffect F constantOf) ∧ Holds F (r.inEffect F constantOf) r := by
  have hlevel : WhenLevelled (defaultKeybindings ++ overrides).zipIdx := fun k hk =>
    hwhen k.1 (List.fst_mem_of_mem_zipIdx hk)
  have hordered : Ordered (defaultKeybindings ++ overrides).zipIdx := by
    have := List.pairwise_lt_range' (s := 0) (n := (defaultKeybindings ++ overrides).length)
    rw [← List.zipIdx_map_snd, List.pairwise_map] at this
    exact this
  obtain ⟨ks, hks, hsub⟩ := handleRemovals_returns F constantOf hlevel
  have hstart : Holds F [] (⟨ks, fun _ => none, fun _ => none⟩ : KeybindingResolver L A) :=
    ⟨fun _ => rfl, fun _ => rfl⟩
  obtain ⟨r, hr, hkeys, hholds⟩ := foldlM_holds constantOf hstart
    (hordered.sublist hsub) fun k hk => hlevel k (hsub.mem hk)
  dsimp only at hkeys
  rw [List.nil_append, ← hkeys] at hholds
  refine ⟨r, ?_, ?_, hholds⟩
  · unfold KeybindingResolver.new
    rw [hks]
    exact hr
  · unfold KeybindingResolver.inEffect
    rw [hkeys]
    exact (hordered.sublist hsub).sublist List.filter_sublist

end New

section Dispatch

variable {xs : List (Rule L A)} {r : KeybindingResolver L A} {context : L → Bool}
  {k s : Rule L A} {pressed : List Str}

/-- The condition of a rule holds in the context. -/
def Applies (context : L → Bool) (k : Rule L A) : Prop :=
  contextMatchesRules context k.1.when = true

theorem mem_after {ys zs : List (Rule L A)} (hxs : Ordered xs)
    (heq : xs = ys ++ k :: zs) (hs : s ∈ xs) (hlt : k.2 < s.2) : s ∈ zs := by
  subst heq
  obtain ⟨-, -, hbefore⟩ := List.pairwise_append.mp hxs
  rcases List.mem_append.mp hs with hs | hs
  · have := hbefore s hs k List.mem_cons_self
    omega
  · rcases List.mem_cons.mp hs with rfl | hs
    · omega
    · exact hs

theorem findCommand_some {l : List (Rule L A)} (hl : Ordered l)
    (h : findCommand context l = some k) :
    k ∈ l ∧ Applies context k ∧ ∀ t ∈ l, k.2 < t.2 → ¬ Applies context t := by
  unfold findCommand at h
  rw [List.find?_eq_some_iff_append] at h
  obtain ⟨hk, as, bs, heq, has⟩ := h
  have hl' : l = bs.reverse ++ k :: as.reverse := by
    rw [← List.reverse_reverse l, heq]
    simp
  subst hl'
  refine ⟨by simp, hk, fun t ht hlt => ?_⟩
  have hafter := mem_after hl rfl ht hlt
  simpa [Applies] using has t (List.mem_reverse.mp hafter)

theorem isPrefixOf_iff_tail {chord : Str} {rest chords : List Str} :
    (chord :: rest).isPrefixOf chords = true ↔
      chords.head? = some chord ∧ rest.isPrefixOf chords.tail = true := by
  cases chords with
  | nil => simp
  | cons c chords =>
    simp only [List.isPrefixOf, Bool.and_eq_true, beq_iff_eq, List.head?_cons, Option.some.injEq,
      List.tail_cons]
    exact and_congr_left' eq_comm

/-- What is fetched are the rules in effect that begin with the pressed chords. -/
theorem Holds.fetch (h : Holds F xs r) (hne : pressed ≠ []) :
    (r.fetch pressed).getD [] = xs.filter fun x => pressed.isPrefixOf x.1.chords := by
  obtain ⟨chord, rest, rfl⟩ := List.exists_cons_of_ne_nil hne
  have hmap := h.map chord
  have hlong : ((xs.filter fun x => x.1.chords.head? = some chord).filter fun candidate =>
      (chord :: rest).length ≤ candidate.1.chords.length && rest.isPrefixOf candidate.1.chords.tail) =
        xs.filter fun x => (chord :: rest).isPrefixOf x.1.chords := by
    rw [List.filter_filter]
    apply List.filter_congr
    intro x _
    rw [Bool.eq_iff_iff, isPrefixOf_iff_tail]
    simp only [Bool.and_eq_true, decide_eq_true_eq]
    constructor
    · rintro ⟨⟨-, hrest⟩, hhead⟩
      exact ⟨hhead, hrest⟩
    · rintro ⟨hhead, hrest⟩
      refine ⟨⟨?_, hrest⟩, hhead⟩
      have := (List.isPrefixOf_iff_prefix.mp (isPrefixOf_iff_tail.mpr ⟨hhead, hrest⟩)).length_le
      exact this
  unfold KeybindingResolver.fetch
  dsimp only
  cases hr : r.map chord with
  | none =>
    rw [hr] at hmap
    rw [← hlong, ← hmap]
    rfl
  | some kbCandidates =>
    rw [hr, Option.getD_some] at hmap
    rw [Option.map_some, Option.getD_some]
    split_ifs with hlen
    · rw [hmap]
      apply List.filter_congr
      intro x _
      obtain rfl : rest = [] := by
        rw [← List.length_eq_zero_iff]
        simpa using hlen
      rw [Bool.eq_iff_iff, isPrefixOf_iff_tail]
      simp
    · rw [hmap, hlong]

/-- The rule that `resolve` finds for the pressed chords. -/
def KeybindingResolver.found (r : KeybindingResolver L A) (context : L → Bool)
    (pressed : List Str) : Option (Rule L A) :=
  (r.fetch pressed).bind (findCommand context)

theorem resolve_eq (r : KeybindingResolver L A) (context : L → Bool) (currentChords : List Str)
    (keypress : Str) :
    r.resolve context currentChords keypress =
      match r.found context (currentChords ++ [keypress]) with
      | none => .noMatchingKb
      | some result =>
        if (currentChords ++ [keypress]).length < result.1.chords.length then .moreChordsNeeded
        else .kbFound result.1.command result.1.commandArgs result.1.bubble := by
  unfold resolve KeybindingResolver.found
  dsimp only
  cases r.fetch (currentChords ++ [keypress]) <;> rfl

/-- The last rule in effect that begins with the pressed chords and applies. -/
structure IsLast (xs : List (Rule L A)) (context : L → Bool) (pressed : List Str)
    (k : Rule L A) : Prop where
  mem : k ∈ xs
  beginsWith : pressed <+: k.1.chords
  applies : Applies context k
  last : ∀ t ∈ xs, pressed <+: t.1.chords → k.2 < t.2 → ¬ Applies context t

theorem Holds.found (h : Holds F xs r) (hxs : Ordered xs) (hne : pressed ≠ [])
    (hfound : r.found context pressed = some k) : IsLast xs context pressed k := by
  have hfetch := h.fetch hne
  unfold KeybindingResolver.found at hfound
  cases hr : r.fetch pressed with
  | none =>
    rw [hr] at hfound
    cases hfound
  | some l =>
    rw [hr, Option.getD_some] at hfetch
    rw [hr, Option.bind_some, hfetch] at hfound
    obtain ⟨hmem, happlies, hlast⟩ :=
      findCommand_some (List.Pairwise.sublist List.filter_sublist hxs) hfound
    obtain ⟨hmem, hpre⟩ := List.mem_filter.mp hmem
    refine ⟨hmem, List.isPrefixOf_iff_prefix.mp hpre, happlies, fun t ht htpre => ?_⟩
    exact hlast t (List.mem_filter.mpr ⟨ht, List.isPrefixOf_iff_prefix.mpr htpre⟩)

/-- While pressing, no rule that is complete and applies is followed by a longer one that begins
with the same chords and applies. -/
def NotOvertaken (xs : List (Rule L A)) (context : L → Bool) (pressed : List Str) : Prop :=
  ∀ s ∈ xs, ∀ t ∈ xs, s.1.chords = pressed → Applies context s → pressed <+: t.1.chords →
    Applies context t → s.2 < t.2 → t.1.chords = pressed

/-- At every chord of a sequence that was begun, more chords were needed. -/
theorem presses_begun (r : KeybindingResolver L A) (context : L → Bool) (N : List Str → Prop)
    {keys currentChords : List Str}
    (hall : ∀ p ∈ r.presses context currentChords keys, N (p.1 ++ [p.2]))
    (hbegun : ∀ a c b, currentChords = a ++ c :: b →
      r.resolve context a c = .moreChordsNeeded ∧ N (a ++ [c])) :
    ∀ p ∈ r.presses context currentChords keys, ∀ a c b, p.1 = a ++ c :: b →
      r.resolve context a c = .moreChordsNeeded ∧ N (a ++ [c]) := by
  induction keys generalizing currentChords with
  | nil => nofun
  | cons keypress keys ih =>
    unfold presses at hall ⊢
    rw [List.forall_mem_cons] at hall ⊢
    refine ⟨hbegun, ?_⟩
    obtain ⟨hfirst, hall⟩ := hall
    split at hall
    · next hmore =>
      apply ih hall
      intro a c b heq
      rcases List.eq_nil_or_concat b with rfl | ⟨b, d, rfl⟩
      · obtain ⟨rfl, hc⟩ := List.append_inj' heq rfl
        obtain rfl : keypress = c := (List.cons.inj hc).1
        exact ⟨hmore, hfirst⟩
      · rw [List.concat_eq_append] at heq
        have heq' : currentChords ++ [keypress] = (a ++ c :: b) ++ [d] := by simp [heq]
        exact hbegun a c b (List.append_inj' heq' rfl).1
    · exact ih hall (by simp)

theorem isShorterKbPrefix_iff {as bs : List Str} :
    isShorterKbPrefix as bs = true ↔ as <+: bs ∨ bs <+: as := by
  induction as generalizing bs with
  | nil => simp [isShorterKbPrefix]
  | cons a as ih =>
    cases bs with
    | nil => simp [isShorterKbPrefix]
    | cons b bs =>
      rw [isShorterKbPrefix, Bool.and_eq_true, decide_eq_true_eq, ih, List.cons_prefix_cons,
        List.cons_prefix_cons]
      constructor
      · rintro ⟨rfl, h | h⟩
        · exact .inl ⟨rfl, h⟩
        · exact .inr ⟨rfl, h⟩
      · rintro (⟨rfl, h⟩ | ⟨rfl, h⟩)
        · exact ⟨rfl, .inl h⟩
        · exact ⟨rfl, .inr h⟩

/-- Leaves on which equality and order are exact in a context. -/
structure Exact (F : LeafFamily L) (context : L → Bool) : Prop where
  respects : Respects F context
  orderedAlike : OrderedAlike F context
  equalOrdered : EqualOrdered F

theorem of_whenIsEntirelyIncluded {a : Option (ContextKeyExpression L)}
    {b : ContextKeyExpression L} (h : whenIsEntirelyIncluded F a (some b) = true) :
    b = .constant true ∨ ∃ e, a = some e ∧ implies F e b = true := by
  unfold whenIsEntirelyIncluded at h
  split at h
  · next heq => cases heq
  · next heq => exact .inl (Option.some.inj heq)
  · next heq =>
    cases heq
    split at h
    · cases h
    · cases h
    · exact .inr ⟨_, rfl, h⟩

theorem Exact.applies (h : Exact F context)
    (hincluded : whenIsEntirelyIncluded F k.1.when s.1.when = true) (hk : Applies context k) :
    Applies context s := by
  unfold Applies contextMatchesRules at hk ⊢
  cases hs : s.1.when with
  | none => rfl
  | some b =>
    rw [hs] at hincluded
    rcases of_whenIsEntirelyIncluded hincluded with rfl | ⟨e, he, himplies⟩
    · rfl
    · rw [he] at hk
      exact evaluate_of_implies h.orderedAlike h.equalOrdered e b himplies hk

/-- A rule that is complete and was found is not covered, if no rule was overtaken on the way. -/
theorem not_covers (hxs : Ordered xs) (hholds : Holds F xs r) (hexact : Exact F context)
    {currentChords : List Str} {keypress : Str}
    (hbegun : ∀ a c b, currentChords = a ++ c :: b →
      r.resolve context a c = .moreChordsNeeded ∧ NotOvertaken xs context (a ++ [c]))
    (hk : IsLast xs context (currentChords ++ [keypress]) k)
    (hlen : k.1.chords = currentChords ++ [keypress]) (hs : s ∈ xs) (hlt : k.2 < s.2) :
    covers F s k = false := by
  rw [Bool.eq_false_iff]
  intro hcovers
  unfold covers overwrites at hcovers
  simp only [Bool.and_eq_true, decide_eq_true_eq, isShorterKbPrefix_iff] at hcovers
  obtain ⟨hhead, -, hcomparable, hincluded⟩ := hcovers
  have happlies := hexact.applies hincluded hk.applies
  obtain ⟨chord, chords, hchords⟩ : ∃ chord chords, k.1.chords = chord :: chords := by
    apply List.exists_cons_of_ne_nil
    rw [hlen]
    simp
  obtain ⟨schords, hschords⟩ : ∃ schords, s.1.chords = chord :: schords := by
    rw [hchords, List.head?_cons] at hhead
    cases hsc : s.1.chords with
    | nil =>
      rw [hsc] at hhead
      cases hhead
    | cons c cs =>
      rw [hsc, List.head?_cons, Option.some.injEq] at hhead
      exact ⟨cs, by rw [hhead]⟩
  rw [hchords, hschords, List.tail_cons, List.tail_cons] at hcomparable
  rcases hcomparable with hcomparable | hcomparable
  · -- The later rule is as long at least, and would have been found.
    apply hk.last s hs _ hlt happlies
    rw [← hlen, hchords, hschords, List.cons_prefix_cons]
    exact ⟨rfl, hcomparable⟩
  · by_cases heq : schords = chords
    · apply hk.last s hs _ hlt happlies
      rw [← hlen, hchords, hschords, heq]
    · -- The later rule was complete before; what was found then is longer, and later still.
      obtain ⟨rest, hrest⟩ := hcomparable
      have hne : rest ≠ [] := by
        rintro rfl
        exact heq (by simpa using hrest)
      obtain ⟨b, d, hbd⟩ := (List.eq_nil_or_concat rest).resolve_left hne
      obtain ⟨a, c, hac⟩ : ∃ a c, s.1.chords = a ++ [c] := by
        rcases List.eq_nil_or_concat s.1.chords with hnil | ⟨a, c, hac⟩
        · rw [hschords] at hnil
          cases hnil
        · exact ⟨a, c, by rw [hac, List.concat_eq_append]⟩
      have hsplit : currentChords = a ++ c :: b := by
        have hfull : currentChords ++ [keypress] = (a ++ c :: b) ++ [d] := by
          rw [← hlen, hchords, ← hrest, hbd, List.concat_eq_append, ← List.cons_append,
            ← hschords, hac]
          simp
        exact (List.append_inj' hfull rfl).1
      obtain ⟨hmore, hnot⟩ := hbegun a c b hsplit
      rw [resolve_eq] at hmore
      cases hfound : r.found context (a ++ [c]) with
      | none =>
        rw [hfound] at hmore
        cases hmore
      | some t =>
        rw [hfound] at hmore
        dsimp only at hmore
        split_ifs at hmore with hlonger
        have ht := hholds.found hxs (by simp) hfound
        have hst : s.2 < t.2 := by
          have hle : ¬ t.2 < s.2 := fun hts =>
            ht.last s hs (by rw [hac]) hts happlies
          have hneq : s.2 ≠ t.2 := by
            intro hid
            obtain rfl := hxs.eq_of_place hs ht.mem hid
            rw [hac] at hlonger
            exact lt_irrefl _ hlonger
          omega
        have := hnot s hs t ht.mem hac happlies ht.beginsWith ht.applies hst
        rw [this] at hlonger
        exact lt_irrefl _ hlonger

/-- What the lookup holds for a command. -/
theorem Holds.mem_lookupKeybindings (h : Holds F xs r) {command : Str} :
    k ∈ r.lookupKeybindings command ↔ k ∈ survivors F xs ∧ k.1.boundCommand = some command := by
  unfold lookupKeybindings
  rw [List.mem_reverse, h.lookup, List.mem_filter, decide_eq_true_eq]

theorem boundCommand_eq {item : ResolvedKeybindingItem L A} {command : Str}
    (h : item.command = some command) (hne : command ≠ []) : item.boundCommand = some command := by
  obtain ⟨c, cs, rfl⟩ := List.exists_cons_of_ne_nil hne
  unfold ResolvedKeybindingItem.boundCommand
  rw [h]

theorem command_of_boundCommand {item : ResolvedKeybindingItem L A} {command : Str}
    (h : item.boundCommand = some command) : item.command = some command := by
  unfold ResolvedKeybindingItem.boundCommand at h
  split at h
  · next heq => rw [heq, h]
  · cases h

/-- A rule that is not covered by a later one with the same first chord is not overwritten. -/
theorem whenIsEntirelyIncluded_eq_false (hcovers : covers F s k = false)
    (hcommand : s.1.command ≠ k.1.command) (hk : k.1.chords ≠ []) (hs : s.1.chords ≠ [])
    (hcomparable : k.1.chords <+: s.1.chords ∨ s.1.chords <+: k.1.chords) :
    whenIsEntirelyIncluded F k.1.when s.1.when = false := by
  obtain ⟨a, as, ha⟩ := List.exists_cons_of_ne_nil hk
  obtain ⟨b, bs, hb⟩ := List.exists_cons_of_ne_nil hs
  unfold covers overwrites at hcovers
  rw [ha, hb] at hcovers hcomparable
  have hheads : b = a ∧ isShorterKbPrefix as bs = true := by
    rw [isShorterKbPrefix_iff]
    simp only [List.cons_prefix_cons] at hcomparable
    rcases hcomparable with ⟨rfl, h⟩ | ⟨rfl, h⟩
    · exact ⟨rfl, .inl h⟩
    · exact ⟨rfl, .inr h⟩
  simpa [hheads.1, hheads.2, hcommand.symm] using hcovers

end Dispatch

section Main

variable {context : L → Bool}

/-- Conditions as they are built. -/
def WhenBuilt (F : LeafFamily L) (items : List (ResolvedKeybindingItem L A)) : Prop :=
  ∀ k ∈ items, ∀ e, k.when = some e → ∃ f : Formula L, f.build F = some (some e)

/-- The rule that dispatch finds for a command is among the lookups of the command. -/
def FoundIsLookedUp (r : KeybindingResolver L A) (context : L → Bool)
    (presses : List (List Str × Str)) : Prop :=
  ∀ p ∈ presses, ∀ command args bubble, command ≠ [] →
    r.resolve context p.1 p.2 = .kbFound (some command) args bubble →
      ∃ k ∈ r.lookupKeybindings command, r.found context (p.1 ++ [p.2]) = some k ∧
        k.1.chords = p.1 ++ [p.2]

/-- No lookup is covered by a later rule in effect with another command. -/
def LookupsUncovered (F : LeafFamily L) (xs : List (Rule L A)) (r : KeybindingResolver L A) :
    Prop :=
  ∀ command, ∀ k ∈ r.lookupKeybindings command, k.1.command = some command ∧ k ∈ xs ∧
    ∀ s ∈ xs, k.2 < s.2 → s.1.command ≠ some command →
      (k.1.chords <+: s.1.chords ∨ s.1.chords <+: k.1.chords) →
        whenIsEntirelyIncluded F k.1.when s.1.when = false

theorem chords_of_mem_inEffect {constantOf : L → Option Bool} {r : KeybindingResolver L A}
    {k : Rule L A} (h : k ∈ r.inEffect F constantOf) : k.1.chords ≠ [] := by
  have := (List.mem_filter.mp h).2
  unfold isInEffect at this
  rw [Bool.and_eq_true, decide_eq_true_eq] at this
  exact this.1

/-- A default rule that always applies. -/
def unconditional (chords : List Str) (command : Str) : ResolvedKeybindingItem L Unit :=
  ⟨chords, false, some command, (), none, true⟩

theorem numberedKeys_exact (defined : ℕ → Bool) :
    Exact numberedKeys fun l => defined l.1 == l.2 where
  respects := numberedKeys_respects defined
  orderedAlike l m htype hcmp := by
    have hnumber : l.1 = m.1 := by
      have := sub_eq_zero.mp hcmp
      exact_mod_cast this
    have hdefined : l.2 = m.2 := by
      cases hl : l.2 <;> cases hm : m.2 <;> simp [numberedKeys, hl, hm] at htype ⊢
    simp only [hnumber, hdefined]
  equalOrdered l m h := by
    obtain rfl := eq_of_beq h
    exact ⟨rfl, sub_self _⟩

theorem whenBuilt_of_unconditional {items : List (ResolvedKeybindingItem L A)}
    (h : ∀ k ∈ items, k.when = none) : WhenBuilt F items := by
  intro k hk e he
  rw [h k hk] at he
  cases he

end Main

end NexgileIde.Keybinding
