import NexgileIde.Caches.LinkedMap

/-!
# Linked maps hold a list

Between the calls the links of a map and its two ends hold a list of items, and the inner map has
their keys. What a call does to this list is said once for each of them: an item is added at an end,
moved to an end or taken out, and a trim cuts one end off.
-/

namespace NexgileIde.Caches

open Library

variable {K V : Type} [DecidableEq K]

def LinkedMap.key (m : LinkedMap K V) (i : ℕ) : Option K := (m.items i).map Prod.fst

/-- The map holds the list of items. -/
structure Holds (m : LinkedMap K V) (xs : List ℕ) : Prop where
  chain : IsChain m.next m.previous m.head m.tail xs
  map : ∀ key i, m.map key = some i ↔ i ∈ xs ∧ m.key i = some key
  items : ∀ i ∈ xs, (m.key i).isSome
  size : m.size = xs.length
  fresh : ∀ i ∈ xs, i < m.nextItem

namespace Holds

variable {m : LinkedMap K V} {xs as bs : List ℕ} {i : ℕ}

omit [DecidableEq K] in
theorem key_of_mem (h : Holds m xs) (hi : i ∈ xs) :
    ∃ key value, m.items i = some (key, value) ∧ m.key i = some key ∧ m.map key = some i := by
  have hsome := h.items i hi
  unfold LinkedMap.key at hsome
  rw [Option.isSome_map, Option.isSome_iff_exists] at hsome
  obtain ⟨⟨key, value⟩, hitem⟩ := hsome
  have hkey : m.key i = some key := by
    unfold LinkedMap.key
    rw [hitem]
    rfl
  exact ⟨key, value, hitem, hkey, (h.map key i).mpr ⟨hi, hkey⟩⟩

omit [DecidableEq K] in
/-- The items have different keys. -/
theorem eq_of_key (h : Holds m xs) {j : ℕ} (hi : i ∈ xs) (hj : j ∈ xs) (hkey : m.key i = m.key j) :
    i = j := by
  obtain ⟨key, value, -, hk, hmap⟩ := h.key_of_mem hi
  have hmap' := (h.map key j).mpr ⟨hj, hkey ▸ hk⟩
  rw [hmap] at hmap'
  exact Option.some.inj hmap'

omit [DecidableEq K] in
theorem head_eq (h : Holds m (i :: xs)) : m.head = some i := h.chain.head

end Holds

omit [DecidableEq K] in
theorem holds_new : Holds (LinkedMap.new : LinkedMap K V) [] where
  chain := .nil _ _
  map key i := by simp [LinkedMap.new]
  items i hi := by cases hi
  size := rfl
  fresh i hi := by cases hi

omit [DecidableEq K] in
theorem holds_clear (m : LinkedMap K V) : Holds m.clear [] where
  chain := .nil _ _
  map key i := by simp [LinkedMap.clear]
  items i hi := by cases hi
  size := rfl
  fresh i hi := by cases hi

section Mirror

/-- The map with its links and ends exchanged -/
def LinkedMap.mirror (m : LinkedMap K V) : LinkedMap K V :=
  { m with head := m.tail, tail := m.head, next := m.previous, previous := m.next }

variable (m : LinkedMap K V) (i : ℕ)

omit [DecidableEq K] in
theorem addItemFirst_eq : m.addItemFirst i = (m.mirror.addItemLast i).map LinkedMap.mirror := by
  obtain ⟨map, head, tail, size, items, next, previous, nextItem⟩ := m
  cases head <;> cases tail <;> rfl

omit [DecidableEq K] in
theorem linkNeighbours_mirror :
    m.mirror.linkNeighbours i = (m.linkNeighbours i).map LinkedMap.mirror := by
  have hnext : m.mirror.next i = m.previous i := rfl
  have hprevious : m.mirror.previous i = m.next i := rfl
  unfold LinkedMap.linkNeighbours
  rw [hnext, hprevious]
  cases m.next i <;> cases m.previous i <;> rfl

omit [DecidableEq K] in
theorem unlinkHead_mirror : m.mirror.unlinkHead i = (m.unlinkTail i).map LinkedMap.mirror := by
  have hnext : m.mirror.next i = m.previous i := rfl
  unfold LinkedMap.unlinkHead LinkedMap.unlinkTail
  rw [hnext]
  cases m.previous i <;> rfl

omit [DecidableEq K] in
theorem touchAsOld_eq (head : ℕ) :
    m.touchAsOld i head = (m.mirror.touchAsNew i head).map LinkedMap.mirror := by
  unfold LinkedMap.touchAsOld LinkedMap.touchAsNew
  have hend : m.mirror.head = m.tail := rfl
  rw [hend, unlinkHead_mirror, linkNeighbours_mirror]
  split_ifs
  · rfl
  · cases m.unlinkTail i <;> rfl
  · cases m.linkNeighbours i <;> rfl

theorem trimNew_eq (newSize : ℤ) : m.trimNew newSize = (m.mirror.trimOld newSize).mirror := by
  unfold LinkedMap.trimNew LinkedMap.trimOld
  have hsize : m.mirror.size = m.size := rfl
  have hloop : LinkedMap.trimLoop m.mirror.items m.mirror.next (m.size - newSize).toNat m.mirror.head
      m.mirror.map = LinkedMap.trimLoop m.items m.previous (m.size - newSize).toNat m.tail m.map :=
    rfl
  rw [hsize]
  split_ifs
  · rfl
  · rfl
  · dsimp only
    rw [hloop]
    cases (LinkedMap.trimLoop m.items m.previous (m.size - newSize).toNat m.tail m.map).2.1 <;> rfl

variable {m} {xs : List ℕ}

omit [DecidableEq K] in
theorem Holds.mirror (h : Holds m xs) : Holds m.mirror xs.reverse where
  chain := h.chain.reverse
  map key i := by
    rw [List.mem_reverse]
    exact h.map key i
  items i hi := h.items i (List.mem_reverse.mp hi)
  size := by
    rw [List.length_reverse]
    exact h.size
  fresh i hi := h.fresh i (List.mem_reverse.mp hi)

end Mirror

section Links

variable {m m' m'' : LinkedMap K V} {xs ys as bs : List ℕ} {i : ℕ}

/-- A change of the links and the ends only, after which they hold a list -/
structure Relinked (m m' : LinkedMap K V) (xs : List ℕ) : Prop where
  chain : IsChain m'.next m'.previous m'.head m'.tail xs
  map : m'.map = m.map
  items : m'.items = m.items
  size : m'.size = m.size
  nextItem : m'.nextItem = m.nextItem

omit [DecidableEq K] in
theorem Relinked.mirror (h : Relinked m.mirror m' xs.reverse) : Relinked m m'.mirror xs where
  chain := h.chain.of_reverse
  map := h.map
  items := h.items
  size := h.size
  nextItem := h.nextItem

omit [DecidableEq K] in
/-- A list that is not empty has its old head with another item behind it. -/
theorem head_or {next previous : ℕ → Option ℕ} {head tail : Option ℕ} {init : List ℕ} {last : ℕ}
    (h : IsChain next previous head tail (init ++ [last])) : head.or (some i) = head := by
  rw [h.head]
  cases init <;> rfl

omit [DecidableEq K] in
theorem addItemLast_relinked (h : IsChain m.next m.previous m.head m.tail xs) (hi : i ∉ xs)
    (hnext : m.next i = none) (hprevious : m.previous i = none) :
    ∃ m', m.addItemLast i = some m' ∧ Relinked m m' (xs ++ [i]) := by
  unfold LinkedMap.addItemLast
  rcases List.eq_nil_or_concat xs with rfl | ⟨init, last, rfl⟩
  · have hhead : m.head = none := h.head
    have htail : m.tail = none := h.tail
    rw [hhead, htail]
    refine ⟨_, rfl, ?_, rfl, rfl, rfl, rfl⟩
    have hchain : IsChain m.next m.previous _ _ _ := h.append hi hnext
      (by rw [hprevious, htail]) (by simp) (by simp)
    rwa [hhead] at hchain
  · rw [List.concat_eq_append] at *
    have htail : m.tail = some last := by rw [h.tail, List.getLast?_concat]
    rw [htail]
    refine ⟨_, rfl, ?_, rfl, rfl, rfl, rfl⟩
    have hlast : i ≠ last := fun heq => hi (by simp [heq])
    have hchain : IsChain (Function.update m.next last (some i))
        (Function.update m.previous i (some last)) _ _ _ := h.append (i := i) hi
      (by rw [Function.update_of_ne hlast, hnext]) (by rw [Function.update_self, htail])
      (fun j hj => by rw [htail, Function.update_apply]; simp [eq_comm])
      (fun j hj => Function.update_of_ne (ne_of_mem_of_not_mem hj hi) _ _)
    rwa [head_or h] at hchain

omit [DecidableEq K] in
theorem unlinkHead_relinked (h : IsChain m.next m.previous m.head m.tail (i :: bs))
    (hbs : bs ≠ []) : ∃ m', m.unlinkHead i = some m' ∧ Relinked m m' bs := by
  obtain ⟨b, bs, rfl⟩ := List.exists_cons_of_ne_nil hbs
  unfold LinkedMap.unlinkHead
  rw [h.next [] i (b :: bs) rfl, List.head?_cons]
  refine ⟨_, rfl, ?_, rfl, rfl, rfl, rfl⟩
  have hsplit : IsChain m.next m.previous m.head m.tail ([i] ++ b :: bs) := h
  refine hsplit.drop (by simp) (fun j _ => rfl) fun j _ => ?_
  rw [List.head?_cons, LinkedMap.setPrevious]
  dsimp only
  rw [Function.update_apply]
  simp [eq_comm]

omit [DecidableEq K] in
theorem unlinkTail_relinked (h : IsChain m.next m.previous m.head m.tail (as ++ [i]))
    (has : as ≠ []) : ∃ m', m.unlinkTail i = some m' ∧ Relinked m m' as := by
  have hmirror : IsChain m.mirror.next m.mirror.previous m.mirror.head m.mirror.tail
      (i :: as.reverse) := by
    have := h.reverse
    rwa [List.reverse_append] at this
  obtain ⟨m', hm', hrelinked⟩ := unlinkHead_relinked hmirror (by simpa using has)
  rw [unlinkHead_mirror, Option.map_eq_some_iff] at hm'
  obtain ⟨m₁, hm₁, rfl⟩ := hm'
  exact ⟨m₁, hm₁, hrelinked.mirror⟩

omit [DecidableEq K] in
theorem linkNeighbours_relinked (h : IsChain m.next m.previous m.head m.tail (as ++ i :: bs))
    (has : as ≠ []) (hbs : bs ≠ []) :
    ∃ m', m.linkNeighbours i = some m' ∧ Relinked m m' (as ++ bs) := by
  obtain ⟨init, last, rfl⟩ := (List.eq_nil_or_concat as).resolve_left has
  obtain ⟨b, bs, rfl⟩ := List.exists_cons_of_ne_nil hbs
  rw [List.concat_eq_append] at *
  have hhead : (init ++ [last] ++ b :: bs).head? = m.head := by
    rw [h.head]
    cases init <;> rfl
  have htail : (init ++ [last] ++ b :: bs).getLast? = m.tail := by
    rw [h.tail]
    simp [List.getLast?_append]
  unfold LinkedMap.linkNeighbours
  rw [h.next _ i _ rfl, h.previous _ i _ rfl, List.head?_cons, List.getLast?_concat]
  refine ⟨_, rfl, ?_, rfl, rfl, rfl, rfl⟩
  have hchain : IsChain (Function.update m.next last (some b))
      (Function.update m.previous b (some last)) _ _ _ := h.remove
    (fun j _ => by rw [List.getLast?_concat, Function.update_apply]; simp [eq_comm])
    (fun j _ => by rw [List.head?_cons, Function.update_apply]; simp [eq_comm])
  rwa [hhead, htail] at hchain

omit [DecidableEq K] in
theorem relinked_links (h : Relinked m m' xs) (hi : i ∉ xs) (next previous : Option ℕ) :
    Relinked m ((m'.setNext i next).setPrevious i previous) xs where
  chain := h.chain.congr (fun _ hj => Function.update_of_ne (ne_of_mem_of_not_mem hj hi) _ _)
    (fun _ hj => Function.update_of_ne (ne_of_mem_of_not_mem hj hi) _ _)
  map := h.map
  items := h.items
  size := h.size
  nextItem := h.nextItem

omit [DecidableEq K] in
theorem notMem_of_nodup (h : (as ++ i :: bs).Nodup) : i ∉ as ++ bs := by
  have := List.nodup_middle.mp h
  exact (List.nodup_cons.mp this).1

omit [DecidableEq K] in
theorem removeItem_relinked (h : IsChain m.next m.previous m.head m.tail (as ++ i :: bs)) :
    ∃ m', m.removeItem i = some m' ∧ Relinked m m' (as ++ bs) := by
  have hi := notMem_of_nodup h.nodup
  unfold LinkedMap.removeItem
  cases has : as with
  | nil =>
    subst has
    have hhead : m.head = some i := h.head
    cases hbs : bs with
    | nil =>
      subst hbs
      have htail : m.tail = some i := h.tail
      have hnone : Relinked m { m with head := none, tail := none } [] :=
        ⟨.nil _ _, rfl, rfl, rfl, rfl⟩
      rw [if_pos ⟨hhead, htail⟩]
      exact ⟨_, rfl, relinked_links hnone List.not_mem_nil none none⟩
    | cons b bs' =>
      have hne : bs ≠ [] := by simp [hbs]
      have htail : m.tail ≠ some i := by
        rw [h.tail]
        exact IsChain.getLast?_ne_of_split h.nodup hne
      rw [if_neg (fun hboth => htail hboth.2), if_pos hhead, ← hbs]
      obtain ⟨m₁, hm₁, hrelinked⟩ := unlinkHead_relinked h hne
      rw [hm₁]
      exact ⟨_, rfl, relinked_links hrelinked hi none none⟩
  | cons a as' =>
    have hne : as ≠ [] := by simp [has]
    have hhead : m.head ≠ some i := by
      rw [h.head, has, List.cons_append, List.head?_cons]
      rintro heq
      cases heq
      exact hi (by simp [has])
    rw [if_neg (fun hboth => hhead hboth.1), if_neg hhead, ← has]
    cases hbs : bs with
    | nil =>
      subst hbs
      have htail : m.tail = some i := by rw [h.tail, List.getLast?_concat]
      rw [if_pos htail]
      obtain ⟨m₁, hm₁, hrelinked⟩ := unlinkTail_relinked h hne
      rw [hm₁]
      refine ⟨_, rfl, ?_⟩
      rw [List.append_nil]
      exact relinked_links hrelinked (by simpa using hi) none none
    | cons b bs' =>
      have hne' : bs ≠ [] := by simp [hbs]
      have htail : m.tail ≠ some i := by
        rw [h.tail]
        exact IsChain.getLast?_ne_of_split h.nodup hne'
      rw [if_neg htail, ← hbs]
      obtain ⟨m₁, hm₁, hrelinked⟩ := linkNeighbours_relinked h hne hne'
      rw [hm₁]
      exact ⟨_, rfl, relinked_links hrelinked hi none none⟩

omit [DecidableEq K] in
theorem touchAsNew_relinked {tail : ℕ}
    (h : IsChain m.next m.previous m.head m.tail (as ++ i :: bs)) (htail : m.tail = some tail) :
    ∃ m', m.touchAsNew i tail = some m' ∧ Relinked m m' (as ++ bs ++ [i]) := by
  have hi := notMem_of_nodup h.nodup
  unfold LinkedMap.touchAsNew
  rcases List.eq_nil_or_concat bs with rfl | ⟨init, last, rfl⟩
  · rw [h.tail, List.getLast?_concat, Option.some.injEq] at htail
    rw [if_pos htail]
    refine ⟨m, rfl, ?_, rfl, rfl, rfl, rfl⟩
    rwa [List.append_nil]
  · rw [List.concat_eq_append] at *
    have hlast : m.tail = some last := by
      rw [h.tail, ← List.cons_append, ← List.append_assoc, List.getLast?_concat]
    obtain rfl : last = tail := Option.some.inj (hlast.symm.trans htail)
    have hne : i ≠ last := fun heq => hi (by simp [heq])
    have hunlinked : ∃ m₁, (if m.head = some i then m.unlinkHead i else m.linkNeighbours i) =
        some m₁ ∧ Relinked m m₁ (as ++ (init ++ [last])) := by
      cases has : as with
      | nil =>
        subst has
        have hhead : m.head = some i := h.head
        rw [if_pos hhead]
        exact unlinkHead_relinked h (by simp)
      | cons a as' =>
        have hhead : m.head ≠ some i := by
          rw [h.head, has, List.cons_append, List.head?_cons]
          rintro heq
          cases heq
          exact hi (by simp [has])
        rw [if_neg hhead, ← has]
        exact linkNeighbours_relinked h (by simp [has]) (by simp)
    obtain ⟨m₁, hm₁, hrelinked⟩ := hunlinked
    rw [if_neg hne]
    dsimp only
    rw [hm₁]
    refine ⟨_, rfl, ?_, hrelinked.map, hrelinked.items, hrelinked.size, hrelinked.nextItem⟩
    have hchain := hrelinked.chain
    rw [← List.append_assoc] at hchain hi ⊢
    have htail₁ : m₁.tail = some last := by rw [hchain.tail, List.getLast?_concat]
    have hend : IsChain (Function.update (Function.update m₁.next i none) last (some i))
        (Function.update m₁.previous i (some last)) _ _ _ := hchain.append (i := i) hi
      (by rw [Function.update_of_ne hne, Function.update_self])
      (by rw [Function.update_self, htail₁])
      (fun j hj => by
        rw [htail₁, Function.update_apply,
          Function.update_of_ne (ne_of_mem_of_not_mem hj hi)]
        simp [eq_comm])
      (fun _ hj => Function.update_of_ne (ne_of_mem_of_not_mem hj hi) _ _)
    rwa [head_or hchain] at hend

/-- The list after a touch -/
def touched (xs : List ℕ) (i : ℕ) : Touch → List ℕ
  | .none => xs
  | .asOld => i :: xs.erase i
  | .asNew => xs.erase i ++ [i]

theorem touched_perm {xs : List ℕ} (hi : i ∈ xs) (touch : Touch) : (touched xs i touch).Perm xs := by
  cases touch with
  | none => exact .refl xs
  | asOld => exact (List.perm_cons_erase hi).symm
  | asNew => exact List.perm_append_comm.trans (List.perm_cons_erase hi).symm

omit [DecidableEq K] in
theorem touch_relinked (h : IsChain m.next m.previous m.head m.tail xs) (hi : i ∈ xs)
    (touch : Touch) :
    ∃ m', m.touch i touch = some m' ∧ Relinked m m' (touched xs i touch) := by
  obtain ⟨as, bs, rfl⟩ := List.append_of_mem hi
  have hnot := notMem_of_nodup h.nodup
  have hhead : m.head ≠ none := by simp [h.head_eq_none]
  have htail : m.tail ≠ none := by simp [h.tail_eq_none]
  obtain ⟨head, hhead⟩ := Option.ne_none_iff_exists'.mp hhead
  obtain ⟨tail, htail⟩ := Option.ne_none_iff_exists'.mp htail
  have herase : (as ++ i :: bs).erase i = as ++ bs := by
    rw [List.erase_append_right _ (fun hmem => hnot (by simp [hmem])), List.erase_cons_head]
  unfold LinkedMap.touch touched
  rw [hhead, htail, herase]
  cases touch with
  | none => exact ⟨m, rfl, h, rfl, rfl, rfl, rfl⟩
  | asNew => exact touchAsNew_relinked h htail
  | asOld =>
    have hmirror : IsChain m.mirror.next m.mirror.previous m.mirror.head m.mirror.tail
        (bs.reverse ++ i :: as.reverse) := by
      have := h.reverse
      rwa [List.reverse_append, List.reverse_cons, List.append_assoc] at this
    obtain ⟨m₁, hm₁, hrelinked⟩ := touchAsNew_relinked hmirror hhead
    dsimp only
    rw [touchAsOld_eq, hm₁]
    refine ⟨_, rfl, Relinked.mirror ?_⟩
    rwa [List.reverse_cons, List.reverse_append]

end Links

section Calls

variable {m m' : LinkedMap K V} {xs ys : List ℕ} {i : ℕ} {key : K}

omit [DecidableEq K] in
theorem Holds.relinked (h : Holds m xs) (hr : Relinked m m' ys) (hperm : ys.Perm xs) :
    Holds m' ys where
  chain := hr.chain
  map key i := by
    rw [hr.map, h.map, hperm.mem_iff]
    unfold LinkedMap.key
    rw [hr.items]
  items i hi := by
    unfold LinkedMap.key
    rw [hr.items]
    exact h.items i (hperm.mem_iff.mp hi)
  size := by rw [hr.size, h.size, hperm.length_eq]
  fresh i hi := by
    rw [hr.nextItem]
    exact h.fresh i (hperm.mem_iff.mp hi)

omit [DecidableEq K] in
theorem touch_holds (h : Holds m xs) (hi : i ∈ xs) (touch : Touch) :
    ∃ m', m.touch i touch = some m' ∧ Relinked m m' (touched xs i touch) ∧
      Holds m' (touched xs i touch) := by
  obtain ⟨m', hm', hr⟩ := touch_relinked h.chain hi touch
  exact ⟨m', hm', hr, h.relinked hr (touched_perm hi touch)⟩

omit [DecidableEq K] in
/-- `get` touches the item of a key that is there. -/
theorem get_holds (h : Holds m xs) (key : K) (touch : Touch) :
    ∃ value m', m.get key touch = some (value, m') ∧ m'.items = m.items ∧
      Holds m' ((m.map key).elim xs fun i => touched xs i touch) := by
  unfold LinkedMap.get
  cases hmap : m.map key with
  | none => exact ⟨none, m, rfl, rfl, h⟩
  | some i =>
    have hi := ((h.map key i).mp hmap).1
    obtain ⟨key', value, hitem, -, -⟩ := h.key_of_mem hi
    obtain ⟨m', hm', hr, hm⟩ := touch_holds h hi touch
    dsimp only [Option.elim]
    rw [hitem, Option.bind_eq_bind, Option.bind_some]
    split_ifs with htouch
    · subst htouch
      exact ⟨some value, m, rfl, rfl, h⟩
    · rw [hm']
      exact ⟨some value, m', rfl, hr.items, hm⟩

/-- The list after a value is set: a new item is added, and one that is there is touched. -/
def placed (m : LinkedMap K V) (xs : List ℕ) (key : K) (touch : Touch) : List ℕ :=
  match m.map key with
  | some i => touched xs i touch
  | none => if touch = .asOld then m.nextItem :: xs else xs ++ [m.nextItem]

/-- The item that has a key after its value is set. -/
def itemFor (m : LinkedMap K V) (key : K) : ℕ := (m.map key).getD m.nextItem

omit [DecidableEq K] in
theorem key_update (m : LinkedMap K V) (value : V) (j : ℕ) :
    ((Function.update m.items i (some (key, value)) j).map Prod.fst : Option K) =
      if j = i then some key else m.key j := by
  rw [Function.update_apply]
  split_ifs <;> rfl

theorem holds_of_added (h : Holds m xs) (hmap : m.map key = none) {value : V}
    (hr : Relinked { m with
      items := Function.update m.items m.nextItem (some (key, value))
      next := Function.update m.next m.nextItem none
      previous := Function.update m.previous m.nextItem none
      nextItem := m.nextItem + 1 } m' ys) (hperm : ys.Perm (m.nextItem :: xs)) :
    Holds { m' with map := Function.update m'.map key (some m.nextItem), size := m'.size + 1 } ys := by
  have hkey : ∀ j, m'.key j = if j = m.nextItem then some key else m.key j := by
    intro j
    unfold LinkedMap.key
    rw [hr.items]
    exact key_update m value j
  have hfresh : m.nextItem ∉ xs := fun hmem => (h.fresh _ hmem).false
  have hmem : ∀ j, j ∈ ys ↔ j = m.nextItem ∨ j ∈ xs := by
    intro j
    rw [hperm.mem_iff, List.mem_cons]
  refine ⟨hr.chain, fun k j => ?_, fun j hj => ?_, ?_, fun j hj => ?_⟩
  · change Function.update m'.map key (some m.nextItem) k = some j ↔ j ∈ ys ∧ m'.key j = some k
    rw [hr.map, Function.update_apply, hmem, hkey]
    split_ifs with hk hj hj
    · subst hk hj
      simp
    · subst hk
      constructor
      · intro heq
        exact absurd (Option.some.inj heq).symm hj
      · rintro ⟨hmem | hmem, hkey⟩
        · exact absurd hmem hj
        · have := (h.map k j).mpr ⟨hmem, hkey⟩
          rw [hmap] at this
          cases this
    · subst hj
      constructor
      · intro heq
        exact absurd ((h.map k _).mp heq).1 hfresh
      · rintro ⟨-, heq⟩
        exact absurd (Option.some.inj heq).symm hk
    · rw [h.map]
      simp [hj]
  · change (m'.key j).isSome
    rw [hkey]
    rcases (hmem j).mp hj with rfl | hj
    · simp
    · split_ifs
      · rfl
      · exact h.items j hj
  · change m'.size + 1 = _
    rw [hr.size, h.size, hperm.length_eq]
    rfl
  · change j < m'.nextItem
    rw [hr.nextItem]
    rcases (hmem j).mp hj with rfl | hj
    · exact Nat.lt_succ_self _
    · exact (h.fresh j hj).trans (Nat.lt_succ_self _)

/-- `set` adds an item or touches the one that is there. -/
theorem set_holds (h : Holds m xs) (key : K) (value : V) (touch : Touch) :
    ∃ m', m.set key value touch = some m' ∧ Holds m' (placed m xs key touch) ∧
      m'.items = Function.update m.items (itemFor m key) (some (key, value)) := by
  unfold LinkedMap.set placed itemFor
  cases hmap : m.map key with
  | some i =>
    obtain ⟨hi, hkeyi⟩ := (h.map key i).mp hmap
    have hsame : Holds { m with items := Function.update m.items i (some (key, value)) } xs := by
      have hkey : ∀ j, LinkedMap.key
          { m with items := Function.update m.items i (some (key, value)) } j = m.key j := by
        intro j
        refine (key_update m value j).trans ?_
        split_ifs with hj
        · rw [hj, hkeyi]
        · rfl
      refine ⟨h.chain, fun k j => ?_, fun j hj => ?_, h.size, h.fresh⟩
      · rw [hkey]
        exact h.map k j
      · rw [hkey]
        exact h.items j hj
    obtain ⟨m', hm', hr, hm⟩ := touch_holds hsame hi touch
    dsimp only [Option.getD_some]
    split_ifs with htouch
    · subst htouch
      exact ⟨_, rfl, hsame, rfl⟩
    · exact ⟨m', hm', hm, hr.items⟩
  | none =>
    have hfresh : m.nextItem ∉ xs := fun hmem => (h.fresh _ hmem).false
    have hchain : IsChain (Function.update m.next m.nextItem none)
        (Function.update m.previous m.nextItem none) m.head m.tail xs :=
      h.chain.congr (fun _ hj => Function.update_of_ne (ne_of_mem_of_not_mem hj hfresh) _ _)
        (fun _ hj => Function.update_of_ne (ne_of_mem_of_not_mem hj hfresh) _ _)
    dsimp only [Option.getD_none]
    split_ifs with htouch
    · obtain ⟨m', hm', hr⟩ := addItemLast_relinked (m := LinkedMap.mirror { m with
        items := Function.update m.items m.nextItem (some (key, value))
        next := Function.update m.next m.nextItem none
        previous := Function.update m.previous m.nextItem none
        nextItem := m.nextItem + 1 }) (i := m.nextItem) hchain.reverse
        (by simpa using hfresh) (Function.update_self ..) (Function.update_self ..)
      rw [← List.reverse_cons] at hr
      rw [addItemFirst_eq, hm']
      exact ⟨_, rfl, holds_of_added h hmap hr.mirror (.refl _), hr.items⟩
    · obtain ⟨m', hm', hr⟩ := addItemLast_relinked (m := { m with
        items := Function.update m.items m.nextItem (some (key, value))
        next := Function.update m.next m.nextItem none
        previous := Function.update m.previous m.nextItem none
        nextItem := m.nextItem + 1 }) (i := m.nextItem) hchain hfresh
        (Function.update_self ..) (Function.update_self ..)
      rw [hm']
      exact ⟨_, rfl, holds_of_added h hmap hr (List.perm_append_singleton _ _), hr.items⟩

/-- The inner map without the key of an item -/
theorem erase_map (h : Holds m xs) (hi : i ∈ xs) (hkey : m.key i = some key) (k : K) (j : ℕ) :
    Function.update m.map key none k = some j ↔ j ∈ xs.erase i ∧ m.key j = some k := by
  rw [Function.update_apply, h.chain.nodup.mem_erase_iff]
  split_ifs with hk
  · subst hk
    constructor
    · nofun
    · rintro ⟨⟨hne, hj⟩, hkeyj⟩
      exact absurd (h.eq_of_key hj hi (hkeyj.trans hkey.symm)) hne
  · rw [h.map]
    constructor
    · rintro ⟨hj, hkeyj⟩
      refine ⟨⟨?_, hj⟩, hkeyj⟩
      rintro rfl
      exact hk (Option.some.inj (hkeyj.symm.trans hkey))
    · rintro ⟨⟨-, hj⟩, hkeyj⟩
      exact ⟨hj, hkeyj⟩

theorem removeItem_holds (h : Holds m xs) (hi : i ∈ xs) (hkey : m.key i = some key) :
    ∃ m', LinkedMap.removeItem { m with map := Function.update m.map key none } i = some m' ∧
      m'.items = m.items ∧ Holds { m' with size := m'.size - 1 } (xs.erase i) := by
  obtain ⟨as, bs, rfl⟩ := List.append_of_mem hi
  have hnot := notMem_of_nodup h.chain.nodup
  have herase : (as ++ i :: bs).erase i = as ++ bs := by
    rw [List.erase_append_right _ (fun hmem => hnot (by simp [hmem])), List.erase_cons_head]
  obtain ⟨m', hm', hr⟩ := removeItem_relinked
    (m := { m with map := Function.update m.map key none }) h.chain
  have hkey' : ∀ j, m'.key j = m.key j := by
    intro j
    unfold LinkedMap.key
    rw [hr.items]
  refine ⟨m', hm', hr.items, ?_⟩
  rw [herase]
  refine ⟨hr.chain, fun k j => ?_, fun j hj => ?_, ?_, fun j hj => ?_⟩
  · change m'.map k = some j ↔ j ∈ as ++ bs ∧ m'.key j = some k
    rw [hr.map, hkey', ← herase]
    exact erase_map h hi hkey k j
  · change (m'.key j).isSome
    rw [hkey']
    exact h.items j (List.mem_of_mem_erase (herase ▸ hj : j ∈ (as ++ i :: bs).erase i))
  · change m'.size - 1 = _
    rw [hr.size]
    change m.size - 1 = _
    rw [h.size]
    simp only [List.length_append, List.length_cons]
    push_cast
    ring
  · change j < m'.nextItem
    rw [hr.nextItem]
    exact h.fresh j (List.mem_of_mem_erase (herase ▸ hj : j ∈ (as ++ i :: bs).erase i))

/-- `remove` takes the item of a key out. -/
theorem remove_holds (h : Holds m xs) (key : K) :
    ∃ value m', m.remove key = some (value, m') ∧ m'.items = m.items ∧
      Holds m' ((m.map key).elim xs fun i => xs.erase i) := by
  unfold LinkedMap.remove
  cases hmap : m.map key with
  | none => exact ⟨none, m, rfl, rfl, h⟩
  | some i =>
    obtain ⟨hi, hkey⟩ := (h.map key i).mp hmap
    obtain ⟨key', value, hitem, -, -⟩ := h.key_of_mem hi
    obtain ⟨m', hm', hitems, hm⟩ := removeItem_holds h hi hkey
    dsimp only [Option.elim]
    rw [hitem, Option.bind_eq_bind, Option.bind_some, hm']
    exact ⟨some value, _, rfl, hitems, hm⟩

/-- `shift` takes the first item out. -/
theorem shift_holds (h : Holds m xs) :
    ∃ value m', m.shift = some (value, m') ∧ m'.items = m.items ∧ Holds m' xs.tail := by
  unfold LinkedMap.shift
  cases hxs : xs with
  | nil =>
    subst hxs
    have hhead : m.head = none := h.chain.head
    have htail : m.tail = none := h.chain.tail
    rw [hhead, htail]
    exact ⟨none, m, rfl, rfl, h⟩
  | cons i bs =>
    subst hxs
    have htail : m.tail ≠ none := by simp [h.chain.tail_eq_none]
    obtain ⟨tail, htail⟩ := Option.ne_none_iff_exists'.mp htail
    obtain ⟨key, value, hitem, hkey, -⟩ := h.key_of_mem (i := i) (by simp)
    obtain ⟨m', hm', hitems, hm⟩ := removeItem_holds h (by simp) hkey
    rw [List.erase_cons_head] at hm
    split
    · rename_i hnone _
      rw [h.head_eq] at hnone
      cases hnone
    · rename_i head last hhead _
      rw [h.head_eq] at hhead
      cases hhead
      rw [hitem, Option.bind_eq_bind, Option.bind_some, hm']
      exact ⟨some value, _, rfl, hitems, hm⟩
    · rename_i hnone
      exact (hnone i tail h.head_eq htail).elim

end Calls

section Trim

variable {m : LinkedMap K V} {xs : List ℕ}

/-- Following a link, the loop passes the first items and takes their keys out of the map. -/
theorem trimLoop_spec {link : ℕ → Option ℕ} {current : Option ℕ} {map : K → Option ℕ}
    (hfollows : Follows link current xs) (hnodup : xs.Nodup) (hitems : ∀ i ∈ xs, (m.key i).isSome)
    (hmap : ∀ k j, map k = some j ↔ j ∈ xs ∧ m.key j = some k) {count : ℕ}
    (hcount : count ≤ xs.length) :
    (∀ k j, (LinkedMap.trimLoop m.items link count current map).1 k = some j ↔
        j ∈ xs.drop count ∧ m.key j = some k) ∧
      (LinkedMap.trimLoop m.items link count current map).2 = ((xs.drop count).head?, count) := by
  induction count generalizing xs current map with
  | zero =>
    refine ⟨hmap, ?_⟩
    cases hfollows <;> rfl
  | succ count ih =>
    cases hfollows with
    | done => simp at hcount
    | @step i xs hrest =>
      have hsome := hitems i (by simp)
      unfold LinkedMap.key at hsome
      rw [Option.isSome_map, Option.isSome_iff_exists] at hsome
      obtain ⟨⟨key, value⟩, hitem⟩ := hsome
      have hkey : m.key i = some key := by
        unfold LinkedMap.key
        rw [hitem]
        rfl
      obtain ⟨hi, hnodup'⟩ := List.nodup_cons.mp hnodup
      have hmap' : ∀ k j, Function.update map key none k = some j ↔
          j ∈ xs ∧ m.key j = some k := by
        intro k j
        rw [Function.update_apply]
        split_ifs with hk
        · subst hk
          constructor
          · nofun
          · rintro ⟨hj, hkeyj⟩
            have hjmap := (hmap k j).mpr ⟨List.mem_cons_of_mem i hj, hkeyj⟩
            rw [(hmap k i).mpr ⟨List.mem_cons_self, hkey⟩] at hjmap
            cases hjmap
            exact absurd hj hi
        · rw [hmap, List.mem_cons]
          constructor
          · rintro ⟨rfl | hj, hkeyj⟩
            · exact absurd (Option.some.inj (hkeyj.symm.trans hkey)) hk
            · exact ⟨hj, hkeyj⟩
          · exact fun hj => ⟨.inr hj.1, hj.2⟩
      obtain ⟨hmap'', hstop⟩ := ih hrest hnodup' (fun j hj => hitems j (List.mem_cons_of_mem i hj))
        hmap' (by simpa using hcount)
      rw [LinkedMap.trimLoop, hitem]
      dsimp only
      refine ⟨hmap'', ?_⟩
      rw [hstop]
      rfl

/-- A trim to a size that is not negative leaves the newest items. -/
theorem trimOld_holds (h : Holds m xs) {newSize : ℤ} (hsize : 0 ≤ newSize) :
    Holds (m.trimOld newSize) (xs.drop (xs.length - newSize.toNat)) ∧
      (m.trimOld newSize).items = m.items := by
  unfold LinkedMap.trimOld
  have hlength := h.size
  split_ifs with hlarge hzero
  · rw [show xs.length - newSize.toNat = 0 by omega, List.drop_zero]
    exact ⟨h, rfl⟩
  · subst hzero
    rw [Int.toNat_zero, Nat.sub_zero, List.drop_length]
    exact ⟨holds_clear m, rfl⟩
  · have hcount : (m.size - newSize).toNat = xs.length - newSize.toNat := by omega
    obtain ⟨hmap, hstop⟩ := trimLoop_spec h.chain.follows_next h.chain.nodup h.items h.map
      (show xs.length - newSize.toNat ≤ xs.length by omega)
    rw [hcount]
    generalize LinkedMap.trimLoop m.items m.next (xs.length - newSize.toNat) m.head m.map = r
      at hmap hstop ⊢
    obtain ⟨map, current, removed⟩ := r
    rw [Prod.mk.injEq] at hstop
    obtain ⟨rfl, rfl⟩ := hstop
    have hsplit := h.chain
    rw [← List.take_append_drop (xs.length - newSize.toNat) xs] at hsplit
    have hne : xs.drop (xs.length - newSize.toNat) ≠ [] := by
      rw [ne_eq, List.drop_eq_nil_iff]
      omega
    obtain ⟨i, bs, hbs⟩ := List.exists_cons_of_ne_nil hne
    have hlength' : (xs.drop (xs.length - newSize.toNat)).length =
        xs.length - (xs.length - newSize.toNat) := List.length_drop
    have hchain : IsChain m.next (Function.update m.previous i none) _ _ _ := hsplit.drop hne
      (fun j _ => rfl) (fun j _ => by
        rw [hbs, List.head?_cons, Function.update_apply]
        simp [eq_comm])
    have hmem : ∀ j ∈ xs.drop (xs.length - newSize.toNat), j ∈ xs := fun j hj =>
      List.mem_of_mem_drop hj
    rw [hbs] at hchain hmap hlength' hmem ⊢
    refine ⟨⟨hchain, hmap, fun j hj => h.items j (hmem j hj), ?_, fun j hj =>
      h.fresh j (hmem j hj)⟩, rfl⟩
    change m.size - ((xs.length - newSize.toNat : ℕ) : ℤ) = _
    rw [hlength']
    omega

/-- A trim to a size that is not negative leaves the oldest items. -/
theorem trimNew_holds (h : Holds m xs) {newSize : ℤ} (hsize : 0 ≤ newSize) :
    Holds (m.trimNew newSize) (xs.take newSize.toNat) ∧ (m.trimNew newSize).items = m.items := by
  obtain ⟨hm, hitems⟩ := trimOld_holds h.mirror hsize
  rw [trimNew_eq]
  have htake : (xs.reverse.drop (xs.reverse.length - newSize.toNat)).reverse =
      xs.take newSize.toNat := by
    rw [List.reverse_drop, List.reverse_reverse, List.length_reverse]
    rcases le_or_gt newSize.toNat xs.length with hle | hlt
    · rw [Nat.sub_sub_self hle]
    · rw [Nat.sub_eq_zero_of_le hlt.le, Nat.sub_zero, List.take_length, List.take_of_length_le hlt.le]
  have hmirror := hm.mirror
  rw [htake] at hmirror
  exact ⟨hmirror, hitems⟩

end Trim

end NexgileIde.Caches
