import NexgileIde.SearchTree.SearchTreeRun

/-!
# Trees of URIs

The iterator over a URI puts the components that are there into one sequence of segments.
Comparisons depend on the component, so a tree of URIs need not be ordered; what it finds
was still stored by a key that the same segments compare equal to.
-/

namespace NexgileIde.SearchTree

open TernarySearchTreeNode TernarySearchTree Text

/-- scheme, must be set -/
structure URI where
  scheme : Str
  authority : Str
  path : Str
  query : Str
  fragment : Str
  scheme_set : scheme ≠ []
  deriving DecidableEq, Repr

inductive UriIteratorState
  | Scheme
  | Authority
  | Path
  | Query
  | Fragment
  deriving DecidableEq, Repr

structure UriState where
  value : URI
  pathIterator : SegmentState
  states : List UriIteratorState
  stateIdx : ℕ

namespace UriIterator

/-- `_states` -/
def states (ignoreQueryAndFragment : URI → Bool) (key : URI) : List UriIteratorState :=
  (if key.scheme.isEmpty then [] else [.Scheme]) ++
    (if key.authority.isEmpty then [] else [.Authority]) ++
    (if key.path.isEmpty || (PathIterator.reset false key.path).segment.isEmpty then []
      else [.Path]) ++
    if ignoreQueryAndFragment key then []
    else (if key.query.isEmpty then [] else [.Query]) ++
      if key.fragment.isEmpty then [] else [.Fragment]

def inPath (s : UriState) : Bool :=
  s.states[s.stateIdx]? == some .Path && s.pathIterator.hasNext

def next (s : UriState) : UriState :=
  if inPath s then { s with pathIterator := s.pathIterator.next (isPathSeparator false) }
  else { s with stateIdx := s.stateIdx + 1 }

/-- Without a state `cmp` throws; with a scheme there is one at every position. -/
def cmp (toLowerCase : Str → Str) (ignorePathCasing : URI → Bool) (s : UriState) (a : Str) : ℤ :=
  match s.states[s.stateIdx]? with
  | some .Scheme => compareIgnoreCase toLowerCase a s.value.scheme
  | some .Authority => compareIgnoreCase toLowerCase a s.value.authority
  | some .Path => s.pathIterator.cmp toLowerCase (!ignorePathCasing s.value) a
  | some .Query => compare a s.value.query
  | some .Fragment => compare a s.value.fragment
  | none => compare a []

def value (s : UriState) : Str :=
  match s.states[s.stateIdx]? with
  | some .Scheme => s.value.scheme
  | some .Authority => s.value.authority
  | some .Path => s.pathIterator.segment
  | some .Query => s.value.query
  | some .Fragment => s.value.fragment
  | none => []

end UriIterator

def UriIterator (toLowerCase : Str → Str) (ignorePathCasing ignoreQueryAndFragment : URI → Bool) :
    KeyIterator URI Str where
  State := UriState
  reset key :=
    ⟨key, PathIterator.reset false key.path, UriIterator.states ignoreQueryAndFragment key, 0⟩
  next := UriIterator.next
  hasNext s := UriIterator.inPath s || s.stateIdx + 1 < s.states.length
  cmp := UriIterator.cmp toLowerCase ignorePathCasing
  value := UriIterator.value
  truthy _ := true
  remaining s := s.states.length - s.stateIdx + (s.pathIterator.len - s.pathIterator.stop)
  remaining_next s h := by
    unfold UriIterator.next
    split_ifs with hpath
    · have hnext : s.pathIterator.hasNext = true := by
        simp only [UriIterator.inPath, Bool.and_eq_true] at hpath
        exact hpath.2
      have hlen : (s.pathIterator.next (isPathSeparator false)).len = s.pathIterator.len := rfl
      have hstop := SegmentState.stop_next (isPathSeparator false) hnext
      simp only [SegmentState.hasNext, decide_eq_true_eq] at hnext
      dsimp only
      omega
    · simp only [hpath, Bool.false_or, decide_eq_true_eq] at h
      dsimp only
      omega

/-- `forUris`, with casing of paths, queries and fragments significant -/
def forUris (toLowerCase : Str → Str) : KeyIterator URI Str :=
  UriIterator toLowerCase (fun _ => false) fun _ => false

section Matching

variable {K S V : Type}

/-- Every position compares equal to the segment at its place. -/
def Matches (positions : List (Position S)) (as : List S) : Prop :=
  List.Forall₂ (fun q a => q.cmp a = 0) positions as

theorem pathEntries_updateHeight (t : Node K S V) : pathEntries t.updateHeight = pathEntries t := by
  cases t <;> rfl

theorem pathEntries_rotateRight {t t' : Node K S V} (ht : t.rotateRight = some t') :
    pathEntries t' = pathEntries t := by
  rcases t with _ | ⟨h, s, v, k, _ | ⟨h', s', v', k', l', m', r'⟩, m, r⟩
  · cases ht
  · cases ht
  · cases ht
    simp [TernarySearchTreeNode.updateHeight, pathEntries]

theorem pathEntries_rotateLeft {t t' : Node K S V} (ht : t.rotateLeft = some t') :
    pathEntries t' = pathEntries t := by
  rcases t with _ | ⟨h, s, v, k, l, m, _ | ⟨h', s', v', k', l', m', r'⟩⟩
  · cases ht
  · cases ht
  · cases ht
    simp [TernarySearchTreeNode.updateHeight, pathEntries]

theorem pathEntries_setChild_left (t child : Node K S V) (h : pathEntries child = pathEntries t.left) :
    pathEntries (t.setChild .left child) = pathEntries t := by
  cases t with
  | empty => rfl
  | node => simp only [setChild, pathEntries, h, left]

theorem pathEntries_setChild_right (t child : Node K S V)
    (h : pathEntries child = pathEntries t.right) :
    pathEntries (t.setChild .right child) = pathEntries t := by
  cases t with
  | empty => rfl
  | node => simp only [setChild, pathEntries, h, right]

theorem pathEntries_balanceNode {d1 : Dir} {d2 : Option Dir} {t t' : Node K S V}
    (ht : balanceNode d1 d2 t = some t') : pathEntries t' = pathEntries t := by
  rw [← pathEntries_updateHeight t]
  unfold balanceNode at ht
  dsimp only at ht
  generalize t.updateHeight = n at ht ⊢
  split_ifs at ht
  · split at ht
    · exact pathEntries_rotateLeft ht
    · exact pathEntries_rotateRight ht
    · simp only [rotateRightLeft, Option.bind_eq_bind, Option.bind_eq_some_iff] at ht
      obtain ⟨child, hchild, ht⟩ := ht
      rw [pathEntries_rotateLeft ht]
      exact pathEntries_setChild_right n child (pathEntries_rotateRight hchild)
    · simp only [rotateLeftRight, Option.bind_eq_bind, Option.bind_eq_some_iff] at ht
      obtain ⟨child, hchild, ht⟩ := ht
      rw [pathEntries_rotateRight ht]
      exact pathEntries_setChild_left n child (pathEntries_rotateLeft hchild)
    · cases ht
  · cases ht
    rfl

/-- Every entry was in the old tree, or is the new element at segments that the positions of
its key compare equal to. -/
def Grows (t t' : Node K S V) (positions : List (Position S)) (key : K) (element : V) : Prop :=
  ∀ as e, (as, e) ∈ pathEntries t' →
    (as, e) ∈ pathEntries t ∨ e = (some key, element) ∧ Matches positions as

variable {key : K} {element : V}

theorem insertNew_grows {p : Position S} {rest : List (Position S)} {t' : Node K S V}
    {d : Option Dir} (ht : insertNew key element p rest = some (t', d)) :
    Grows empty t' (p :: rest) key element := by
  induction rest generalizing p t' d with
  | nil =>
    rw [insertNew] at ht
    split_ifs at ht with hcmp
    cases ht
    intro as e he
    replace he := mem_pathEntries_node.mp he
    rcases he with he | ⟨rfl, he⟩ | ⟨bs, rfl, he⟩ | he
    · cases he
    · cases he
      exact .inr ⟨rfl, .cons (not_not.mp hcmp) .nil⟩
    · cases he
    · cases he
  | cons q rest ih =>
    rw [insertNew] at ht
    split_ifs at ht with hcmp
    simp only [Option.bind_eq_bind, Option.bind_eq_some_iff, Option.some.injEq] at ht
    obtain ⟨⟨child, d2⟩, hc, n, hn, ht⟩ := ht
    cases ht
    intro as e he
    rw [pathEntries_balanceNode hn] at he
    replace he := mem_pathEntries_node.mp he
    rcases he with he | ⟨-, he⟩ | ⟨bs, rfl, he⟩ | he
    · cases he
    · cases he
    · rcases ih hc bs e he with h | ⟨rfl, hm⟩
      · cases h
      · exact .inr ⟨rfl, .cons (not_not.mp hcmp) hm⟩
    · cases he

theorem insert_grows {t t' : Node K S V} {p : Position S} {rest : List (Position S)}
    {d : Option Dir} (ht : insert key element t p rest = some (t', d)) :
    Grows t t' (p :: rest) key element := by
  induction t generalizing p rest t' d with
  | empty => exact insertNew_grows ht
  | node h s v k l m r ihl ihm ihr =>
    unfold insert at ht
    split_ifs at ht with h1 h2
    · simp only [Option.bind_eq_bind, Option.bind_eq_some_iff, Option.some.injEq] at ht
      obtain ⟨⟨child, d2⟩, hc, n, hn, ht⟩ := ht
      cases ht
      intro as e he
      rw [pathEntries_balanceNode hn, mem_pathEntries_node] at he
      rw [mem_pathEntries_node]
      rcases he with he | he
      · exact (ihl hc as e he).imp_left .inl
      · exact .inl (.inr he)
    · simp only [Option.bind_eq_bind, Option.bind_eq_some_iff, Option.some.injEq] at ht
      obtain ⟨⟨child, d2⟩, hc, n, hn, ht⟩ := ht
      cases ht
      intro as e he
      rw [pathEntries_balanceNode hn, mem_pathEntries_node] at he
      rw [mem_pathEntries_node]
      rcases he with he | he | he | he
      · exact .inl (.inl he)
      · exact .inl (.inr (.inl he))
      · exact .inl (.inr (.inr (.inl he)))
      · exact (ihr hc as e he).imp_left fun h => .inr (.inr (.inr h))
    · have hcmp : p.cmp s = 0 := by omega
      cases rest with
      | nil =>
        cases ht
        intro as e he
        rw [mem_pathEntries_node] at he ⊢
        rcases he with he | ⟨rfl, he⟩ | he
        · exact .inl (.inl he)
        · cases he
          exact .inr ⟨rfl, .cons hcmp .nil⟩
        · exact .inl (.inr (.inr he))
      | cons q rest =>
        simp only [Option.bind_eq_bind, Option.bind_eq_some_iff, Option.some.injEq] at ht
        obtain ⟨⟨child, d2⟩, hc, n, hn, ht⟩ := ht
        cases ht
        intro as e he
        rw [pathEntries_balanceNode hn, mem_pathEntries_node] at he
        rw [mem_pathEntries_node]
        rcases he with he | he | ⟨bs, rfl, he⟩ | he
        · exact .inl (.inl he)
        · exact .inl (.inr (.inl he))
        · rcases ihm hc bs e he with h | ⟨rfl, hm⟩
          · exact .inl (.inr (.inr (.inl ⟨bs, rfl, h⟩)))
          · exact .inr ⟨rfl, .cons hcmp hm⟩
        · exact .inl (.inr (.inr (.inr he)))

/-- A value that is found is an entry at segments the positions compare equal to. -/
theorem getNode_matches {t : Node K S V} {p : Position S} {rest : List (Position S)} {v : V}
    (hv : TernarySearchTree.get t p rest = some v) :
    ∃ as k, (as, k, v) ∈ pathEntries t ∧ Matches (p :: rest) as := by
  unfold TernarySearchTree.get at hv
  induction t generalizing p rest with
  | empty => cases hv
  | node h s v' k l m r ihl ihm ihr =>
    simp only [mem_pathEntries_node]
    unfold getNode at hv
    dsimp only at hv
    split_ifs at hv with h1 h2
    · obtain ⟨as, k', he, hm⟩ := ihl hv
      exact ⟨as, k', .inl he, hm⟩
    · obtain ⟨as, k', he, hm⟩ := ihr hv
      exact ⟨as, k', .inr (.inr (.inr he)), hm⟩
    · have hcmp : p.cmp s = 0 := by omega
      cases rest with
      | nil =>
        have hv' : v' = some v := hv
        exact ⟨[s], k, .inr (.inl ⟨rfl, by rw [hv', Option.map_some]⟩), .cons hcmp .nil⟩
      | cons q rest =>
        obtain ⟨as, k', he, hm⟩ := ihm hv
        exact ⟨s :: as, k', .inr (.inr (.inl ⟨as, rfl, he⟩)), .cons hcmp hm⟩

end Matching

namespace KeyIterator

variable {K S : Type} (iter : KeyIterator K S)

/-- The position at `s` and those after it. -/
def positionsFrom (s : iter.State) : List (Position S) :=
  iter.position s :: iter.positionsAfter (iter.remaining s) s

theorem positionsFrom_eq (s : iter.State) :
    iter.positionsFrom s =
      iter.position s :: if iter.hasNext s then iter.positionsFrom (iter.next s) else [] := by
  rw [positionsFrom, positionsAfter_remaining]
  rfl

/-- The positions of a key, in one list. -/
def all (key : K) : List (Position S) := iter.positionsFrom (iter.reset key)

end KeyIterator

/-- One sequence of segments compares equal to both keys. -/
def Confusable {K S : Type} (iter : KeyIterator K S) (key key' : K) : Prop :=
  ∃ as, Matches (iter.all key) as ∧ Matches (iter.all key') as

section Sets

variable {K S V : Type} (iter : KeyIterator K S)

/-- `set` for each of the pairs. -/
def setAll (sets : List (K × V)) : Option (Node K S V) :=
  iter.run (sets.map fun e => .set e.1 e.2)

/-- Whatever order the comparisons follow, a tree that was filled by `set` is there, and its
values were set by keys that the key of `get` is confusable with. -/
theorem setAll_confusable (hself : ∀ key, ∀ q ∈ iter.all key, q.cmp q.value = 0)
    (sets : List (K × V)) :
    ∃ t, setAll iter sets = some t ∧
      ∀ u v, iter.get t u = some v → ∃ key, (key, v) ∈ sets ∧ Confusable iter key u := by
  have hrun : ∃ t, setAll iter sets = some t ∧ Balanced t ∧
      ∀ as k v, (as, k, v) ∈ pathEntries t →
        ∃ key, (key, v) ∈ sets ∧ Matches (iter.all key) as := by
    induction sets using List.reverseRecOn with
    | nil => exact ⟨.empty, rfl, trivial, by rintro as k v ⟨⟩⟩
    | append_singleton sets e ih =>
      obtain ⟨t, ht, hb, hentries⟩ := ih
      have hcmp : ∀ q ∈ (iter.positions e.1).1 :: (iter.positions e.1).2, q.cmp q.value = 0 :=
        hself e.1
      obtain ⟨t', d, hinsert, hi⟩ := insert_balanced e.1 e.2 hb hcmp
      refine ⟨t', ?_, hi.balanced, ?_⟩
      · have hset := set_eq e.1 e.2 t (iter.positions e.1).1 (iter.positions e.1).2
        rw [hinsert] at hset
        unfold setAll at ht ⊢
        rw [List.map_append, List.map_singleton, run_append_singleton, ht]
        exact hset
      · intro as k v he
        rcases insert_grows hinsert as (k, v) he with he | ⟨heq, hm⟩
        · obtain ⟨key, hmem, hm⟩ := hentries as k v he
          exact ⟨key, List.mem_append_left _ hmem, hm⟩
        · cases heq
          exact ⟨e.1, by simp, hm⟩
  obtain ⟨t, ht, -, hentries⟩ := hrun
  refine ⟨t, ht, ?_⟩
  intro u v hv
  obtain ⟨as, k, he, hu⟩ := getNode_matches hv
  obtain ⟨key, hmem, hkey⟩ := hentries as k v he
  exact ⟨key, hmem, as, hkey, hu⟩

end Sets

section Components

variable (toLowerCase : Str → Str) (key : URI)

/-- The positions of a path, from one state of its iterator on. -/
def pathPositionsFrom (s : SegmentState) : List (Position Str) :=
  (PathIterator toLowerCase false true).positionsFrom s

/-- The positions of one component. -/
def componentPositions : UriIteratorState → List (Position Str)
  | .Scheme => [⟨key.scheme, fun a => compareIgnoreCase toLowerCase a key.scheme⟩]
  | .Authority => [⟨key.authority, fun a => compareIgnoreCase toLowerCase a key.authority⟩]
  | .Path => pathPositionsFrom toLowerCase (PathIterator.reset false key.path)
  | .Query => [⟨key.query, fun a => compare a key.query⟩]
  | .Fragment => [⟨key.fragment, fun a => compare a key.fragment⟩]

/-- The positions of a URI, from one state of its iterator on. -/
def uriPositionsFrom (s : UriState) : List (Position Str) :=
  (forUris toLowerCase).positionsFrom s

/-- The positions at one component, in any state of the path's iterator. -/
def positionsAt (pathIterator : SegmentState) : UriIteratorState → List (Position Str)
  | .Path => pathPositionsFrom toLowerCase pathIterator
  | state => componentPositions toLowerCase key state

variable {toLowerCase key}

theorem uriPositionsFrom_eq (s : UriState) :
    uriPositionsFrom toLowerCase s =
      ⟨UriIterator.value s, UriIterator.cmp toLowerCase (fun _ => false) s⟩ ::
        if UriIterator.inPath s || s.stateIdx + 1 < s.states.length then
          uriPositionsFrom toLowerCase (UriIterator.next s)
        else [] :=
  (forUris toLowerCase).positionsFrom_eq s

theorem pathPositionsFrom_eq (s : SegmentState) :
    pathPositionsFrom toLowerCase s =
      ⟨s.segment, s.cmp toLowerCase true⟩ ::
        if s.hasNext then
          pathPositionsFrom toLowerCase (s.next (isPathSeparator false))
        else [] :=
  (PathIterator toLowerCase false true).positionsFrom_eq s

section At

variable {s : UriState}

theorem uriPositionsFrom_segment (h : UriIterator.inPath s = true) :
    uriPositionsFrom toLowerCase s =
      ⟨s.pathIterator.segment, s.pathIterator.cmp toLowerCase true⟩ ::
        uriPositionsFrom toLowerCase
          { s with pathIterator := s.pathIterator.next (isPathSeparator false) } := by
  have hstate : s.states[s.stateIdx]? = some .Path := by
    simp only [UriIterator.inPath, Bool.and_eq_true, beq_iff_eq] at h
    exact h.1
  have hcmp : UriIterator.cmp toLowerCase (fun _ => false) s =
      s.pathIterator.cmp toLowerCase true := by
    funext a
    simp [UriIterator.cmp, hstate]
  rw [uriPositionsFrom_eq, if_pos (by simp [h]), hcmp, UriIterator.next, if_pos h]
  simp [UriIterator.value, hstate]

theorem uriPositionsFrom_component {state : UriIteratorState} (h : UriIterator.inPath s = false)
    (hstate : s.states[s.stateIdx]? = some state) :
    uriPositionsFrom toLowerCase s =
      positionsAt toLowerCase s.value s.pathIterator state ++
        if s.stateIdx + 1 < s.states.length then
          uriPositionsFrom toLowerCase { s with stateIdx := s.stateIdx + 1 }
        else [] := by
  have hat : positionsAt toLowerCase s.value s.pathIterator state =
      [⟨UriIterator.value s, UriIterator.cmp toLowerCase (fun _ => false) s⟩] := by
    unfold UriIterator.value UriIterator.cmp
    rw [hstate]
    cases state with
    | Path =>
      have hnext : s.pathIterator.hasNext = false := by
        simpa [UriIterator.inPath, hstate] using h
      rw [positionsAt, pathPositionsFrom_eq, hnext]
      rfl
    | _ => rfl
  rw [uriPositionsFrom_eq, hat, UriIterator.next, h]
  simp

end At

/-- The positions of the current component, when those after it are known. -/
theorem uriPositionsFrom_state (before after : List UriIteratorState) (state : UriIteratorState)
    (s : SegmentState) (rest : List (Position Str))
    (hrest : ∀ s', (state ≠ .Path → s' = s) →
      (if before.length + 1 < (before ++ state :: after).length then
        uriPositionsFrom toLowerCase ⟨key, s', before ++ state :: after, before.length + 1⟩
      else []) = rest) :
    uriPositionsFrom toLowerCase ⟨key, s, before ++ state :: after, before.length⟩ =
      positionsAt toLowerCase key s state ++ rest := by
  have hhere : (before ++ state :: after)[before.length]? = some state := by simp
  induction hn : s.len - s.stop using Nat.strong_induction_on generalizing s with
  | _ n ih =>
    subst hn
    cases h : UriIterator.inPath ⟨key, s, before ++ state :: after, before.length⟩ with
    | false =>
      rw [uriPositionsFrom_component h hhere, hrest s fun _ => rfl]
    | true =>
      obtain ⟨rfl, hnext⟩ : state = .Path ∧ s.hasNext = true := by
        simpa [UriIterator.inPath, hhere] using h
      have hstop := SegmentState.stop_next (isPathSeparator false) hnext
      have hlen : (s.next (isPathSeparator false)).len = s.len := rfl
      have hlt := ih _ (by rw [hlen]; omega) (s.next (isPathSeparator false))
        (fun s' _ => hrest s' nofun) rfl
      rw [uriPositionsFrom_segment h, hlt, positionsAt, positionsAt, pathPositionsFrom_eq s,
        if_pos hnext, List.cons_append]

/-- Component by component. -/
theorem uriPositionsFrom_append (before : List UriIteratorState) (state : UriIteratorState)
    (after : List UriIteratorState) (pathIterator : SegmentState)
    (hpath : .Path ∈ after → state ≠ .Path ∧ pathIterator = PathIterator.reset false key.path)
    (hnodup : after.Nodup) :
    uriPositionsFrom toLowerCase ⟨key, pathIterator, before ++ state :: after, before.length⟩ =
      positionsAt toLowerCase key pathIterator state ++
        after.flatMap (componentPositions toLowerCase key) := by
  induction after generalizing before state pathIterator with
  | nil =>
    apply uriPositionsFrom_state
    intro s _
    simp
  | cons state' after ih =>
    obtain ⟨hstate', hnodup⟩ := List.nodup_cons.mp hnodup
    apply uriPositionsFrom_state
    intro s hs
    have hreset : state' = .Path → s = PathIterator.reset false key.path := by
      rintro rfl
      obtain ⟨hne, rfl⟩ := hpath (by simp)
      exact hs hne
    have hat : positionsAt toLowerCase key s state' = componentPositions toLowerCase key state' := by
      cases state' with
      | Path => rw [hreset rfl, positionsAt, componentPositions]
      | _ => rfl
    have hrest := ih (before ++ [state]) state' s ?_ hnodup
    · rw [hat] at hrest
      simpa [List.flatMap_cons] using hrest
    · intro hmem
      obtain ⟨hne, rfl⟩ := hpath (List.mem_cons_of_mem _ hmem)
      refine ⟨?_, hs hne⟩
      rintro rfl
      exact hstate' hmem

end Components

section Path

/-- Repeated slashes are one slash, trailing ones are none. -/
def collapseSlashes (path : Str) : Str :=
  path.foldr (fun c rest =>
    if c = Slash ∧ (rest = [] ∨ rest.head? = some Slash) then rest else c :: rest) []

/-- The path from its segments. -/
def joinSegments (segments : List Str) : Str := [Slash].intercalate segments

def leadingSlash (path : Str) : Str := if path.head? = some Slash then [Slash] else []

theorem joinSegments_cons (a b : Str) (segments : List Str) :
    joinSegments (a :: b :: segments) = a ++ Slash :: joinSegments (b :: segments) := by
  simp [joinSegments, List.intercalate, List.intersperse]

theorem collapseSlashes_append {a : Str} (ha : ∀ c ∈ a, c ≠ Slash) (b : Str) :
    collapseSlashes (a ++ b) = a ++ collapseSlashes b := by
  induction a with
  | nil => rfl
  | cons c a ih =>
    rw [List.forall_mem_cons] at ha
    simp only [collapseSlashes, List.cons_append, List.foldr_cons, ha.1, false_and, if_false]
    exact congrArg _ (ih ha.2)

theorem collapseSlashes_slashes {a : Str} (ha : ∀ c ∈ a, c = Slash) {b : Str}
    (hb : (collapseSlashes b).head? ≠ some Slash) (hne : collapseSlashes b ≠ []) :
    collapseSlashes (a ++ b) = (if a = [] then [] else [Slash]) ++ collapseSlashes b := by
  induction a with
  | nil => rfl
  | cons c a ih =>
    rw [List.forall_mem_cons] at ha
    have hc := ih ha.2
    obtain ⟨rfl, -⟩ := ha
    unfold collapseSlashes at hc hb hne ⊢
    rw [List.cons_append, List.foldr_cons, hc]
    by_cases ha : a = []
    · subst ha
      rw [if_pos rfl, List.nil_append, if_neg (by tauto)]
      rfl
    · simp [ha]

theorem collapseSlashes_trailing {a b : Str} (hb : ∀ c ∈ b, c = Slash) :
    collapseSlashes (a ++ b) = collapseSlashes a := by
  have hnil : collapseSlashes b = [] := by
    induction b with
    | nil => rfl
    | cons c b ih =>
      rw [List.forall_mem_cons] at hb
      unfold collapseSlashes at ih ⊢
      rw [List.foldr_cons, ih hb.2, if_pos ⟨hb.1, .inl rfl⟩]
  unfold collapseSlashes at hnil ⊢
  rw [List.foldr_append, hnil]

/-- The slashes before the next segment, the segment, and what comes after it. -/
theorem scanSegment_eq (isSeparator : CodeUnit → Bool) {value xs : Str} {stop : ℕ} {ys : Str}
    (hxs : value.drop stop = xs ++ ys) :
    (∀ start, scanSegment isSeparator value xs.length start stop false =
      (start, stop + (xs.takeWhile fun c => !isSeparator c).length)) ∧
    scanSegment isSeparator value xs.length stop stop true =
      (stop + (xs.takeWhile isSeparator).length,
        stop + (xs.takeWhile isSeparator).length +
          ((xs.dropWhile isSeparator).takeWhile fun c => !isSeparator c).length) := by
  induction xs generalizing stop with
  | nil => simp [scanSegment]
  | cons x xs ih =>
    have hx : charCodeAt value stop = x := by
      have : value[stop]? = some x := by
        rw [← List.head?_drop, hxs]
        rfl
      simp [charCodeAt, List.getD, this]
    have htail : value.drop (stop + 1) = xs ++ ys := by
      rw [← List.tail_drop, hxs]
      rfl
    obtain ⟨hfalse, htrue⟩ := ih htail
    rw [List.length_cons]
    cases hsep : isSeparator x with
    | true =>
      constructor
      · intro start
        simp [scanSegment, hx, hsep]
      · rw [scanSegment, hx, hsep, if_pos rfl, if_pos rfl, htrue]
        simp [hsep]
        omega
    | false =>
      constructor
      · intro start
        rw [scanSegment, hx, hsep, if_neg (by simp), hfalse]
        simp [hsep]
        omega
      · rw [scanSegment, hx, hsep, if_neg (by simp), hfalse]
        simp [hsep]
        omega

/-- The iterator has `unread` before it. -/
structure Unread (s : SegmentState) (unread rest : Str) : Prop where
  drop : s.value.drop s.stop = unread ++ rest
  len : s.len = s.stop + unread.length

theorem Unread.next {s : SegmentState} {a b c rest : Str} (isSeparator : CodeUnit → Bool)
    (h : Unread s (a ++ (b ++ c)) rest) (ha : ∀ x ∈ a, isSeparator x = true)
    (hb : ∀ x ∈ b, isSeparator x = false) (hne : b ≠ [])
    (hc : ∀ x, c.head? = some x → isSeparator x = true) :
    (s.next isSeparator).segment = b ∧ Unread (s.next isSeparator) c rest := by
  have hscan := (scanSegment_eq isSeparator h.drop).2
  have hbc : (b ++ c).takeWhile isSeparator = [] ∧ (b ++ c).dropWhile isSeparator = b ++ c := by
    obtain ⟨x, b, rfl⟩ := List.exists_cons_of_ne_nil hne
    simp [hb x (by simp)]
  have hcs : (c.takeWhile fun x => !isSeparator x) = [] := by
    cases c with
    | nil => rfl
    | cons x c => simp [hc x rfl]
  have hlen : s.len - s.stop = (a ++ (b ++ c)).length := by
    rw [h.len]
    omega
  rw [List.takeWhile_append_of_pos ha, List.dropWhile_append_of_pos ha, hbc.1, hbc.2,
    List.takeWhile_append_of_pos (by simpa using hb), hcs, ← hlen] at hscan
  have hnext : s.next isSeparator =
      { s with start := s.stop + a.length, stop := s.stop + a.length + b.length } := by
    unfold SegmentState.next
    rw [hscan]
    simp
  have hdrop : s.value.drop (s.stop + a.length) = b ++ (c ++ rest) := by
    rw [← List.drop_drop, h.drop]
    simp
  rw [hnext]
  refine ⟨?_, ?_, ?_⟩
  · unfold SegmentState.segment
    dsimp only
    rw [substring_of_le _ (by omega), hdrop]
    simp
  · dsimp only
    rw [← List.drop_drop, hdrop]
    simp
  · dsimp only
    have := h.len
    simp only [List.length_append] at this
    omega

theorem isPathSeparator_iff {c : CodeUnit} : isPathSeparator false c = true ↔ c = Slash := by
  simp [isPathSeparator]

/-- Slashes, a segment, and what begins with a slash again. -/
theorem exists_segment {xs : Str} (hlast : xs.getLast? ≠ some Slash) (hne : xs ≠ []) :
    ∃ a b c, xs = a ++ (b ++ c) ∧ (∀ x ∈ a, x = Slash) ∧ (∀ x ∈ b, x ≠ Slash) ∧ b ≠ [] ∧
      ∀ x, c.head? = some x → x = Slash := by
  have hrest : xs.dropWhile (· == Slash) ≠ [] := by
    intro hnil
    rw [List.dropWhile_eq_nil_iff] at hnil
    obtain ⟨y, hy⟩ := List.getLast?_isSome.mpr hne |> Option.isSome_iff_exists.mp
    have := hnil y (List.mem_of_getLast? hy)
    simp only [beq_iff_eq] at this
    exact hlast (this ▸ hy)
  refine ⟨xs.takeWhile (· == Slash), (xs.dropWhile (· == Slash)).takeWhile (· != Slash),
    (xs.dropWhile (· == Slash)).dropWhile (· != Slash), ?_, ?_, ?_, ?_, ?_⟩
  · rw [List.takeWhile_append_dropWhile, List.takeWhile_append_dropWhile]
  · intro x hx
    simpa using List.mem_takeWhile_imp hx
  · intro x hx
    simpa using List.mem_takeWhile_imp hx
  · have hhead := List.head_dropWhile_not (· == Slash) hrest
    intro hnil
    rw [List.takeWhile_eq_nil_iff] at hnil
    have := hnil (List.length_pos_iff.mpr hrest)
    simp only [List.get_eq_getElem, ← List.head_eq_getElem hrest] at this
    simp_all
  · intro x hx
    have := List.head?_dropWhile_not (· != Slash) (xs.dropWhile (· == Slash))
    rw [hx] at this
    simpa using this

theorem collapseSlashes_eq {toLowerCase : Str → Str} {s : SegmentState} {unread rest : Str}
    (h : Unread s unread rest) (hlast : unread.getLast? ≠ some Slash) (hne : unread ≠ []) :
    collapseSlashes unread = leadingSlash unread ++
      joinSegments ((pathPositionsFrom toLowerCase
        (s.next (isPathSeparator false))).map Position.value) := by
  induction hn : unread.length using Nat.strong_induction_on generalizing s unread with
  | _ n ih =>
    subst hn
    obtain ⟨a, b, c, rfl, ha, hb, hbne, hc⟩ := exists_segment hlast hne
    obtain ⟨hsegment, hunread⟩ := h.next (isPathSeparator false)
      (by simpa [isPathSeparator_iff] using ha)
      (by simpa [← Bool.not_eq_true, isPathSeparator_iff] using hb) hbne
      (by simpa [isPathSeparator_iff] using hc)
    have hleading : leadingSlash (a ++ (b ++ c)) = if a = [] then [] else [Slash] := by
      obtain ⟨x, b, rfl⟩ := List.exists_cons_of_ne_nil hbne
      cases a with
      | nil => simp [leadingSlash, hb x (by simp)]
      | cons y a => simp [leadingSlash, ha y (by simp)]
    have hcollapse : collapseSlashes (a ++ (b ++ c)) =
        (if a = [] then [] else [Slash]) ++ (b ++ collapseSlashes c) := by
      rw [← collapseSlashes_append hb]
      obtain ⟨x, b, rfl⟩ := List.exists_cons_of_ne_nil hbne
      apply collapseSlashes_slashes ha <;> rw [collapseSlashes_append hb]
      · simpa using hb x (by simp)
      · simp
    rw [hleading, hcollapse, pathPositionsFrom_eq, List.map_cons, hsegment]
    congr 1
    by_cases hcne : c = []
    · subst hcne
      have hend : (s.next (isPathSeparator false)).hasNext = false := by
        have := hunread.len
        simp [SegmentState.hasNext, this]
      simp [hend, joinSegments, collapseSlashes]
    · have hnext : (s.next (isPathSeparator false)).hasNext = true := by
        have := hunread.len
        have hpos := List.length_pos_iff.mpr hcne
        simp only [SegmentState.hasNext, decide_eq_true_eq]
        omega
      have hshort : c.length < (a ++ (b ++ c)).length := by
        have hpos := List.length_pos_iff.mpr hbne
        simp only [List.length_append]
        omega
      have hlast' : c.getLast? ≠ some Slash := by
        rwa [List.getLast?_append_of_ne_nil _ (by simp [hcne]),
          List.getLast?_append_of_ne_nil _ hcne] at hlast
      have hlead : leadingSlash c = [Slash] := by
        obtain ⟨x, c, rfl⟩ := List.exists_cons_of_ne_nil hcne
        simp [leadingSlash, hc x rfl]
      have hrec := ih c.length hshort hunread hlast' hcne rfl
      rw [if_pos hnext, hrec, hlead, pathPositionsFrom_eq, List.map_cons, joinSegments_cons]
      rfl

/-- `reset` reads up to the slashes at the end. -/
theorem exists_trimmed (path : Str) :
    ∃ trimmed trailing, path = trimmed ++ trailing ∧ (∀ c ∈ trailing, c = Slash) ∧
      trimmed.getLast? ≠ some Slash ∧
      PathIterator.reset false path =
        SegmentState.next (isPathSeparator false) ⟨path, trimmed.length, 0, 0⟩ := by
  refine ⟨(path.reverse.dropWhile (isPathSeparator false)).reverse,
    (path.reverse.takeWhile (isPathSeparator false)).reverse, ?_, ?_, ?_, ?_⟩
  · rw [← List.reverse_append, List.takeWhile_append_dropWhile, List.reverse_reverse]
  · intro c hc
    rw [List.mem_reverse] at hc
    simpa [isPathSeparator_iff] using List.mem_takeWhile_imp hc
  · rw [List.getLast?_reverse]
    intro hx
    have := List.head?_dropWhile_not (isPathSeparator false) path.reverse
    rw [hx] at this
    simp [isPathSeparator] at this
  · rw [List.length_reverse]
    rfl

/-- A path is known, up to repeated and trailing slashes, by its segments and by whether it
begins with a slash; one without a first segment has slashes only. -/
theorem collapseSlashes_path (toLowerCase : Str → Str) (path : Str) :
    collapseSlashes path =
      if (PathIterator.reset false path).segment = [] then []
      else leadingSlash path ++
        joinSegments ((pathPositionsFrom toLowerCase
          (PathIterator.reset false path)).map Position.value) := by
  obtain ⟨trimmed, trailing, rfl, htrailing, hlast, hreset⟩ := exists_trimmed path
  rw [collapseSlashes_trailing htrailing, hreset]
  have hunread : Unread ⟨trimmed ++ trailing, trimmed.length, 0, 0⟩ trimmed trailing :=
    ⟨rfl, (Nat.zero_add _).symm⟩
  by_cases hne : trimmed = []
  · subst hne
    have hnone : (SegmentState.next (isPathSeparator false)
        ⟨[] ++ trailing, ([] : Str).length, 0, 0⟩).segment = [] := substring_self _ 0
    rw [if_pos hnone]
    rfl
  · obtain ⟨a, b, c, rfl, ha, hb, hbne, hc⟩ := exists_segment hlast hne
    obtain ⟨hsegment, -⟩ := hunread.next (isPathSeparator false)
      (by simpa [isPathSeparator_iff] using ha)
      (by simpa [← Bool.not_eq_true, isPathSeparator_iff] using hb) hbne
      (by simpa [isPathSeparator_iff] using hc)
    rw [if_neg (by rwa [hsegment]), collapseSlashes_eq hunread hlast hne]
    congr 1
    obtain ⟨x, xs, hx⟩ := List.exists_cons_of_ne_nil hne
    rw [hx]
    rfl

end Path

section Uris

variable (toLowerCase : Str → Str)

/-- Both are, ignoring case, one string. -/
def SameIgnoringCase (a b : Str) : Prop :=
  ∃ c, compareIgnoreCase toLowerCase c a = 0 ∧ compareIgnoreCase toLowerCase c b = 0

/-- What a tree of URIs should tell apart. -/
structure SameComponents (k u : URI) : Prop where
  scheme : SameIgnoringCase toLowerCase k.scheme u.scheme
  authority : SameIgnoringCase toLowerCase k.authority u.authority
  path : collapseSlashes k.path = collapseSlashes u.path
  query : k.query = u.query
  fragment : k.fragment = u.fragment

/-- The components that give segments. -/
def components (key : URI) : List UriIteratorState := UriIterator.states (fun _ => false) key

/-- The same components are there, and the paths begin alike. -/
def SameKinds (k u : URI) : Prop :=
  components k = components u ∧
    (.Path ∈ components k → leadingSlash k.path = leadingSlash u.path)

instance (k u : URI) : Decidable (SameKinds k u) := by
  unfold SameKinds
  infer_instance

theorem nodup_components (key : URI) : (components key).Nodup := by
  unfold components UriIterator.states
  split_ifs <;> simp

theorem forUris_all (key : URI) :
    (forUris toLowerCase).all key =
      (components key).flatMap (componentPositions toLowerCase key) := by
  have hnodup := nodup_components key
  obtain ⟨rest, hrest⟩ : ∃ rest, components key = .Scheme :: rest := by
    unfold components UriIterator.states
    rw [if_neg (by simpa using key.scheme_set)]
    exact ⟨_, rfl⟩
  have hall : (forUris toLowerCase).all key = uriPositionsFrom toLowerCase
      ⟨key, PathIterator.reset false key.path, components key, 0⟩ := rfl
  rw [hrest] at hnodup
  rw [hall, hrest, List.flatMap_cons]
  exact uriPositionsFrom_append [] .Scheme rest (PathIterator.reset false key.path)
    (fun _ => ⟨nofun, rfl⟩) (List.nodup_cons.mp hnodup).2

/-- One segment compares equal to both positions. -/
def Meet (p q : Position Str) : Prop := ∃ a, p.cmp a = 0 ∧ q.cmp a = 0

theorem matches_meet {ps qs : List (Position Str)} {as : List Str} (hp : Matches ps as)
    (hq : Matches qs as) : List.Forall₂ Meet ps qs := by
  unfold Matches at hp hq
  induction hp generalizing qs with
  | nil =>
    cases hq
    exact .nil
  | cons h hs ih =>
    cases hq with
    | cons h' hs' => exact .cons ⟨_, h, h'⟩ (ih hs')

theorem length_componentPositions {key : URI} {state : UriIteratorState} (h : state ≠ .Path) :
    (componentPositions toLowerCase key state).length = 1 := by
  cases state with
  | Path => exact absurd rfl h
  | _ => rfl

/-- Apart from the path every component has one position. -/
theorem length_flatMap_components {key : URI} {states : List UriIteratorState}
    (h : .Path ∉ states) :
    (states.flatMap (componentPositions toLowerCase key)).length = states.length := by
  induction states with
  | nil => rfl
  | cons state states ih =>
    rw [List.mem_cons, not_or] at h
    rw [List.flatMap_cons, List.length_append, ih h.2,
      length_componentPositions toLowerCase (Ne.symm h.1), List.length_cons]
    omega

/-- Positions that meet one by one meet component by component. -/
theorem meet_components {k u : URI} {states : List UriIteratorState} (hnodup : states.Nodup)
    (h : List.Forall₂ Meet (states.flatMap (componentPositions toLowerCase k))
      (states.flatMap (componentPositions toLowerCase u))) :
    ∀ state ∈ states, List.Forall₂ Meet (componentPositions toLowerCase k state)
      (componentPositions toLowerCase u state) := by
  induction states with
  | nil => nofun
  | cons state states ih =>
    obtain ⟨hmem, hnodup⟩ := List.nodup_cons.mp hnodup
    have hlen : (componentPositions toLowerCase k state).length =
        (componentPositions toLowerCase u state).length := by
      by_cases hpath : state = .Path
      · subst hpath
        have := h.length_eq
        simp only [List.flatMap_cons, List.length_append,
          length_flatMap_components toLowerCase hmem] at this
        omega
      · rw [length_componentPositions toLowerCase hpath, length_componentPositions toLowerCase hpath]
    rw [List.flatMap_cons, List.flatMap_cons] at h
    have hhead := List.forall₂_take_append _ _ _ h
    have htail := List.forall₂_drop_append _ _ _ h
    rw [← hlen, List.take_left] at hhead
    rw [← hlen, List.drop_left] at htail
    rw [List.forall_mem_cons]
    exact ⟨hhead, ih hnodup htail⟩

theorem eq_of_compare_eq_zero {a b : Str} (h : compare a b = 0) : a = b := by
  rcases lt_trichotomy a b with hlt | heq | hlt
  · simp [compare, hlt] at h
  · exact heq
  · simp [compare, hlt, hlt.not_gt] at h

theorem map_value_eq {ps qs : List (Position Str)} (h : List.Forall₂ Meet ps qs)
    (hp : ∀ p ∈ ps, p.Exact) (hq : ∀ q ∈ qs, q.Exact) :
    ps.map Position.value = qs.map Position.value := by
  induction h with
  | nil => rfl
  | cons hmeet _ ih =>
    rw [List.forall_mem_cons] at hp hq
    obtain ⟨a, ha, ha'⟩ := hmeet
    have heq := cmp_eq_of_not hp.1 (s := a) (by omega) (by omega)
    have heq' := cmp_eq_of_not hq.1 (s := a) (by omega) (by omega)
    rw [List.map_cons, List.map_cons, heq, heq', ih hp.2 hq.2]

theorem exact_pathPositionsFrom (s : SegmentState) :
    ∀ q ∈ pathPositionsFrom toLowerCase s, q.Exact := by
  have hexact : (PathIterator toLowerCase false true).Exact := exact_of_caseSensitive toLowerCase
  unfold pathPositionsFrom KeyIterator.positionsFrom
  rw [List.forall_mem_cons]
  exact ⟨hexact s, exact_positionsAfter hexact _ s⟩

theorem cmp_value_self (key : URI) :
    ∀ q ∈ (forUris toLowerCase).all key, q.cmp q.value = 0 := by
  intro q hq
  rw [forUris_all, List.mem_flatMap] at hq
  obtain ⟨state, -, hq⟩ := hq
  cases state with
  | Path => exact (exact_pathPositionsFrom toLowerCase _ q hq).cmp_self
  | Scheme | Authority =>
    cases List.mem_singleton.mp hq
    exact compareIgnoreCase_self toLowerCase _
  | Query | Fragment =>
    cases List.mem_singleton.mp hq
    exact compare_self _

section Present

variable {key : URI}

theorem mem_components_scheme : .Scheme ∈ components key := by
  simp [components, UriIterator.states, key.scheme_set]

theorem mem_components_authority : .Authority ∈ components key ↔ key.authority ≠ [] := by
  simp [components, UriIterator.states]

theorem mem_components_path :
    .Path ∈ components key ↔ (PathIterator.reset false key.path).segment ≠ [] := by
  have hnil : (PathIterator.reset false []).segment = [] := rfl
  simp only [components, UriIterator.states]
  by_cases hpath : key.path = [] <;> simp [hpath, hnil]

theorem mem_components_query : .Query ∈ components key ↔ key.query ≠ [] := by
  simp [components, UriIterator.states]

theorem mem_components_fragment : .Fragment ∈ components key ↔ key.fragment ≠ [] := by
  simp [components, UriIterator.states]

end Present

theorem sameComponents_of_confusable {k u : URI} (hkinds : SameKinds k u)
    (h : Confusable (forUris toLowerCase) k u) : SameComponents toLowerCase k u := by
  obtain ⟨as, hk, hu⟩ := h
  rw [forUris_all] at hk hu
  rw [← hkinds.1] at hu
  have hmeet := meet_components toLowerCase (nodup_components k) (matches_meet hk hu)
  have hmem : ∀ state, state ∈ components k ↔ state ∈ components u := by
    intro state
    rw [hkinds.1]
  constructor
  · cases hmeet .Scheme mem_components_scheme with
    | cons h => exact h
  · by_cases hauthority : .Authority ∈ components k
    · cases hmeet .Authority hauthority with
      | cons h => exact h
    · have hu := (hmem .Authority).not.mp hauthority
      rw [mem_components_authority, not_not] at hauthority hu
      rw [hauthority, hu]
      exact ⟨[], rfl, rfl⟩
  · by_cases hpath : .Path ∈ components k
    · have hvalues := map_value_eq (hmeet .Path hpath)
        (exact_pathPositionsFrom toLowerCase _) (exact_pathPositionsFrom toLowerCase _)
      have hu := (hmem .Path).mp hpath
      unfold componentPositions at hvalues
      rw [collapseSlashes_path toLowerCase k.path, collapseSlashes_path toLowerCase u.path,
        if_neg (mem_components_path.mp hpath), if_neg (mem_components_path.mp hu),
        hkinds.2 hpath, hvalues]
    · have hu := (hmem .Path).not.mp hpath
      rw [mem_components_path, not_not] at hpath hu
      rw [collapseSlashes_path toLowerCase k.path, collapseSlashes_path toLowerCase u.path,
        if_pos hpath, if_pos hu]
  · by_cases hquery : .Query ∈ components k
    · cases hmeet .Query hquery with
      | cons h =>
        obtain ⟨a, ha, ha'⟩ := h
        exact (eq_of_compare_eq_zero ha).symm.trans (eq_of_compare_eq_zero ha')
    · have hu := (hmem .Query).not.mp hquery
      rw [mem_components_query, not_not] at hquery hu
      rw [hquery, hu]
  · by_cases hfragment : .Fragment ∈ components k
    · cases hmeet .Fragment hfragment with
      | cons h =>
        obtain ⟨a, ha, ha'⟩ := h
        exact (eq_of_compare_eq_zero ha).symm.trans (eq_of_compare_eq_zero ha')
    · have hu := (hmem .Fragment).not.mp hfragment
      rw [mem_components_fragment, not_not] at hfragment hu
      rw [hfragment, hu]

/-- `foo:/a?x` -/
def withQuery : URI := ⟨[102, 111, 111], [], [47, 97], [120], [], by simp⟩

/-- `foo:/a#x` -/
def withFragment : URI := ⟨[102, 111, 111], [], [47, 97], [], [120], by simp⟩

/-- `foo://b` -/
def withAuthority : URI := ⟨[102, 111, 111], [98], [], [], [], by simp⟩

end Uris

end NexgileIde.SearchTree
