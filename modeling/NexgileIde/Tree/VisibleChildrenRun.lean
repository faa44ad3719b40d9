import NexgileIde.Tree.ModelSteps
import NexgileIde.Tree.VisibleChildren

/-!
# Visible children over runs

Smart and simple splices and refilters count and number the visible children as they should as long
as every simple splice that shows a new node is made at a place that fits.
-/

namespace NexgileIde.Tree

open Library RoseTree

variable {T : Type} {O : IndexTreeModelOptions T}
  {computeDiff : List String → List String → DiffResult}

section Commands

/-- A command that splices or filters -/
def Command.isUpdate : Command T → Bool
  | .splice _ _ _ | .refilter | .delayedRefilter => true
  | _ => false

/-- A splice shows no new node, or is made at a place that fits. -/
def Command.NumbersFit (O : IndexTreeModelOptions T) (m : IndexTreeModel T) : Command T → Prop
  | .splice location deleteCount toInsert => ∀ p, getTreeNode location.dropLast m.root = some p →
    showsAny O m.clock (if p.label.visible then .visible else .hidden) toInsert = false ∨
      FitsAt (location.getLastD 0) deleteCount.toNat p.children
  | _ => True

variable {m : IndexTreeModel T}

theorem getParentNodeWithListIndex_some {location : List ℕ} {root : IndexTreeNode T}
    {listIndex : ℤ} {revealed visible : Bool} {info : ParentInfo T}
    (h : getParentNodeWithListIndex location root listIndex revealed visible = some info) :
    getTreeNode location.dropLast root = some info.parentNode ∧
      location.getLastD 0 ≤ info.parentNode.children.length := by
  induction location generalizing root listIndex revealed visible with
  | nil => simp [getParentNodeWithListIndex] at h
  | cons index rest ih =>
    obtain ⟨d, children⟩ := root
    cases rest with
    | nil =>
      rw [getParentNodeWithListIndex] at h
      split_ifs at h with hlength
      cases h
      exact ⟨rfl, not_lt.mp hlength⟩
    | cons index' rest =>
      rw [getParentNodeWithListIndex_cons (by simp), Option.bind_eq_some_iff] at h
      obtain ⟨child, hchild, h⟩ := h
      obtain ⟨hget, hlast⟩ := ih h
      refine ⟨?_, by simpa using hlast⟩
      unfold getTreeNode at hget ⊢
      rw [List.dropLast_cons_cons, get?_cons, hchild, Option.bind_some, hget]

theorem spliceChildren_numbered {p : IndexTreeNode T} {created : Created T} {i n : ℕ}
    (h : Numbered p) (hi : i ≤ p.children.length)
    (hfrom : NumberedFrom (IndexTreeModel.visibleChildStartIndex i p.children) created.nodes)
    (hcount : created.visibleChildrenCount = visibleCount created.nodes)
    (hnodes : ∀ t ∈ created.nodes, Numbered t)
    (hfit : visibleCount created.nodes = 0 ∨ FitsAt i n p.children) :
    Numbered (IndexTreeModel.spliceChildren i n created p) := by
  have hplace := (spliceChildren_numbered_iff (h [] p (by simp [getTreeNode])) hi hfrom hcount).mpr
    hfit
  have hchildren := spliceChildren_forall p i n created (fun index t ht => ht.numbered index)
    (numbered_iff.mp h).2.2 hnodes
  generalize IndexTreeModel.spliceChildren i n created p = p' at hplace hchildren ⊢
  obtain ⟨d, ts⟩ := p'
  exact numbered_node_iff.mpr ⟨hplace, hchildren⟩

theorem spliceSimple_numbered (h : Numbered m.root) {location : List ℕ} {deleteCount : ℤ}
    {toInsert : List (TreeElement T)} {m' : IndexTreeModel T} {events : List SpliceEvent}
    (hfit : (Command.splice location deleteCount toInsert).NumbersFit O m)
    (hsplice : m.spliceSimple O location deleteCount toInsert = some (m', events)) :
    Numbered m'.root := by
  unfold IndexTreeModel.spliceSimple at hsplice
  rw [Option.bind_eq_bind, Option.bind_eq_some_iff] at hsplice
  obtain ⟨info, hinfo, hsplice⟩ := hsplice
  obtain ⟨hparent, hlast⟩ := getParentNodeWithListIndex_some hinfo
  have hfits := hfit _ hparent
  dsimp only at hsplice
  generalize hparentVisibility : (if info.parentNode.label.visible then TreeVisibility.visible
    else .hidden) = parentVisibility at hfits hsplice
  obtain ⟨hfrom, hcount, hnodes⟩ := createTreeNodes_numbered O toInsert info.parentNode.label.depth
    parentVisibility info.revealed [] m.clock
    (IndexTreeModel.visibleChildStartIndex (location.getLastD 0) info.parentNode.children)
  obtain ⟨hshows, -⟩ := createTreeNodes_visible O toInsert info.parentNode.label.depth
    parentVisibility info.revealed [] m.clock
    (IndexTreeModel.visibleChildStartIndex (location.getLastD 0) info.parentNode.children)
  generalize createTreeNodes O info.parentNode.label.depth parentVisibility info.revealed [] m.clock
    (IndexTreeModel.visibleChildStartIndex (location.getLastD 0) info.parentNode.children)
    toInsert = created at hfrom hcount hnodes hshows hsplice
  have hnone : showsAny O m.clock parentVisibility toInsert = false →
      visibleCount created.nodes = 0 := by
    intro hfalse
    have hnonneg := visibleCount_nonneg created.nodes
    rw [← hshows, hcount, decide_eq_false_iff_not] at hfalse
    omega
  have hchildren : Numbered (IndexTreeModel.spliceChildren (location.getLastD 0) deleteCount.toNat
      created info.parentNode) :=
    spliceChildren_numbered (h.get? hparent) hlast hfrom hcount hnodes (hfits.imp_left hnone)
  have halike := (spliceChildren_alike info.parentNode (location.getLastD 0) deleteCount.toNat
    created).1
  have hindex : (IndexTreeModel.spliceChildren (location.getLastD 0) deleteCount.toNat created
      info.parentNode).label.visibleChildIndex = info.parentNode.label.visibleChildIndex := by
    cases info.parentNode
    rfl
  have hroot := (h.replaceAt hparent halike.visible hindex hchildren).1
  split_ifs at hsplice
  · cases hsplice
    dsimp only
    rw [updateAncestorsRenderNodeCount_eq]
    exact (numbered_mapPath hroot _ _).1
  · cases hsplice
    exact hroot

theorem step_numbered (h : Numbered m.root) {c : Command T} (hc : c.isUpdate = true)
    (hfit : c.NumbersFit O m) {m' : IndexTreeModel T} {events : List SpliceEvent}
    (hstep : m.step O c = some (m', events)) : Numbered m'.root := by
  cases c with
  | splice location deleteCount toInsert => exact spliceSimple_numbered h hfit hstep
  | refilter =>
    cases hstep
    exact refilter_numbered O h
  | delayedRefilter =>
    unfold IndexTreeModel.step at hstep
    rw [Option.some.injEq] at hstep
    split_ifs at hstep
    · cases hstep
      exact refilter_numbered O h
    · cases hstep
      exact h
  | setCollapsed | setCollapsible | expandTo => cases hc

theorem run_cons {c : Command T} {cs : List (Command T)} {r : IndexTreeModel T × List SpliceEvent} :
    m.run O (c :: cs) = some r ↔ ∃ m₁ events more, m.step O c = some (m₁, events) ∧
      m₁.run O cs = some (r.1, more) ∧ r.2 = events ++ more := by
  rw [IndexTreeModel.run]
  simp only [Option.bind_eq_bind, Option.bind_eq_some_iff, Option.some.injEq, Prod.exists]
  constructor
  · rintro ⟨m₁, events, hstep, m₂, more, hrun, rfl⟩
    exact ⟨m₁, events, more, hstep, hrun, rfl⟩
  · rintro ⟨m₁, events, more, hstep, hrun, hr⟩
    exact ⟨m₁, events, hstep, r.1, more, hrun, by rw [← hr]⟩

theorem run_append {cs cs' : List (Command T)} {m₁ m₂ : IndexTreeModel T}
    {events events' : List SpliceEvent} (h : m.run O cs = some (m₁, events))
    (h' : m₁.run O cs' = some (m₂, events')) :
    m.run O (cs ++ cs') = some (m₂, events ++ events') := by
  induction cs generalizing m events with
  | nil =>
    cases h
    exact h'
  | cons c cs ih =>
    obtain ⟨m₀, first, more, hstep, hrun, rfl⟩ := run_cons.mp h
    rw [List.cons_append, run_cons]
    exact ⟨m₀, first, more ++ events', hstep, ih hrun, List.append_assoc ..⟩

theorem run_numbered (h : Numbered m.root) {commands : List (Command T)}
    (hupdates : ∀ c ∈ commands, c.isUpdate = true)
    (hfit : ∀ before c after, commands = before ++ c :: after → ∀ m' events,
      m.run O before = some (m', events) → c.NumbersFit O m')
    {m' : IndexTreeModel T} {events : List SpliceEvent}
    (hrun : m.run O commands = some (m', events)) : Numbered m'.root := by
  induction commands generalizing m events with
  | nil =>
    cases hrun
    exact h
  | cons c commands ih =>
    obtain ⟨m₁, first, more, hstep, hrest, -⟩ := run_cons.mp hrun
    rw [List.forall_mem_cons] at hupdates
    have h₁ := step_numbered h hupdates.1 (hfit [] c commands rfl m [] rfl) hstep
    apply ih h₁ hupdates.2 _ hrest
    rintro before c' after rfl m'' events' hbefore
    exact hfit (c :: before) c' after rfl m'' (first ++ events')
      (run_cons.mpr ⟨m₁, first, events', hstep, hbefore, rfl⟩)

end Commands

section Smart

/-- The model that a splice leaves is that of the simple splices that it made. -/
structure Made.Follows (O : IndexTreeModelOptions T) (m : SmartModel T) (r : Made T) : Prop where
  run : ∃ events, m.model.run O r.commands = some (r.model.model, events)
  updates : ∀ c ∈ r.commands, c.isUpdate = true

variable {m : SmartModel T}

theorem follows_nil {m' : SmartModel T} (h : m'.model = m.model) (threw : Bool) :
    Made.Follows O m ⟨[], m', threw⟩ := by
  refine ⟨⟨[], ?_⟩, nofun⟩
  rw [IndexTreeModel.run, h]

theorem Made.Follows.andThen {r : Made T} {next : SmartModel T → Made T} (h : r.Follows O m)
    (hnext : ∀ m', (next m').Follows O m') : (r.andThen next).Follows O m := by
  unfold Made.andThen
  split_ifs
  · exact h
  · obtain ⟨events, hrun⟩ := h.run
    obtain ⟨more, hrest⟩ := (hnext r.model).run
    refine ⟨⟨events ++ more, run_append hrun hrest⟩, ?_⟩
    intro c hc
    rcases List.mem_append.mp hc with hc | hc
    · exact h.updates c hc
    · exact (hnext r.model).updates c hc

theorem spliceSimple_follows (getId : Option (T → String)) (location : List ℕ) (deleteCount : ℤ)
    (toInsert : List (TreeElement T)) :
    (spliceSimple O getId location deleteCount toInsert m).Follows O m := by
  unfold spliceSimple
  split
  · rename_i model events hparent hsplice
    refine ⟨⟨events, ?_⟩, by simp [Command.isUpdate]⟩
    rw [run_cons]
    exact ⟨model, events, [], hsplice, rfl, (List.append_nil events).symm⟩
  · exact follows_nil rfl true

/-- The smart splices of some children do only what simple splices do. -/
def Follow (O : IndexTreeModelOptions T) (childSplices : List (ChildSplice T)) : Prop :=
  ∀ childSplice ∈ childSplices, ∀ levels location m, (childSplice levels location m).Follows O m

variable {splices : List (ChildSplice T)}

theorem recurseSplice_follows (h : Follow O splices) (levels : Option ℕ)
    (locationPrefix : List ℕ) (count fromOriginal : ℕ) (fromModified : ℤ) :
    (recurseSplice levels locationPrefix splices count fromOriginal fromModified m).Follows O m := by
  induction count generalizing fromOriginal fromModified m with
  | zero => exact follows_nil rfl false
  | succ count ih =>
    rw [recurseSplice]
    split_ifs
    · exact follows_nil rfl false
    · exact follows_nil rfl true
    · split
      · exact follows_nil rfl true
      · rename_i childSplice hget
        exact (h childSplice (List.mem_of_getElem? hget) _ _ m).andThen fun m' => ih _ _

theorem spliceChanges_follows (h : Follow O splices) (options : DiffIdentityOptions T)
    (levels : Option ℕ) (locationPrefix : List ℕ) (index : ℕ) (toInsert : List (TreeElement T))
    (changes : List DiffChange) (lastStartO : ℕ) (lastStartM : ℤ) :
    (spliceChanges O options levels locationPrefix index toInsert splices changes lastStartO
      lastStartM m).Follows O m := by
  induction changes generalizing lastStartO lastStartM m with
  | nil => exact recurseSplice_follows h _ _ _ _ _
  | cons change changes ih =>
    rw [spliceChanges]
    exact ((recurseSplice_follows h _ _ _ _ _).andThen fun m' =>
      spliceSimple_follows _ _ _ _).andThen fun m' => ih _ _

theorem spliceSmartWith_follows (h : Follow O splices) (options : DiffIdentityOptions T)
    (levels : Option ℕ) (location : List ℕ) (deleteCount : ℕ) (toInsert : List (TreeElement T)) :
    (spliceSmartWith O computeDiff options levels location deleteCount toInsert splices
      m).Follows O m := by
  unfold spliceSmartWith
  split
  · exact follows_nil rfl true
  · rename_i info hinfo
    dsimp only
    split
    · exact spliceSimple_follows _ _ _ _
    · split_ifs
      · have hsimple := spliceSimple_follows (O := O) (some options.getId) location deleteCount
          toInsert (m := m.setLastDiffIds info.parentNode.label.id none)
        exact ⟨hsimple.run, hsimple.updates⟩
      · exact spliceChanges_follows h _ _ _ _ _ _ _ _

mutual

theorem childSplice_follows (options : DiffIdentityOptions T) :
    ∀ (el : TreeElement T) (levels : Option ℕ) (location : List ℕ) (m : SmartModel T),
      (childSplice O computeDiff options el levels location m).Follows O m
  | .mk _ children _ _, levels, location, _ =>
    spliceSmartWith_follows (childSplices_follow options children) options levels location
      maxSafeInteger children

theorem childSplices_follow (options : DiffIdentityOptions T) :
    ∀ els : List (TreeElement T), Follow O (childSplices O computeDiff options els)
  | [] => nofun
  | el :: els => by
    rw [childSplices]
    intro r hr
    rcases List.mem_cons.mp hr with rfl | hr
    · exact childSplice_follows options el
    · exact childSplices_follow options els r hr

end

theorem update_follows (update : TreeUpdate T) : (m.update O computeDiff update).Follows O m := by
  cases update with
  | splice location deleteCount toInsert options =>
    unfold SmartModel.update
    dsimp only
    unfold splice
    split_ifs
    · exact follows_nil rfl true
    · cases options with
      | none => exact spliceSimple_follows _ _ _ _
      | some options => exact spliceSmartWith_follows (childSplices_follow options toInsert) _ _ _ _ _
  | refilter =>
    refine ⟨⟨(m.model.refilter O).2, ?_⟩, by simp [SmartModel.update, Command.isUpdate]⟩
    exact run_cons.mpr ⟨_, _, [], rfl, rfl, (List.append_nil _).symm⟩
  | delayedRefilter =>
    unfold SmartModel.update
    dsimp only
    refine ⟨?_, by simp [Command.isUpdate]⟩
    split_ifs with hdelayed
    · refine ⟨(m.model.refilter O).2, run_cons.mpr ⟨_, _, [], ?_, rfl, (List.append_nil _).symm⟩⟩
      rw [IndexTreeModel.step, if_pos hdelayed]
      rfl
    · refine ⟨[], run_cons.mpr ⟨_, [], [], ?_, rfl, rfl⟩⟩
      rw [IndexTreeModel.step, if_neg hdelayed]

theorem run_follows (computeDiff : List String → List String → DiffResult)
    (updates : List (TreeUpdate T)) :
    (∃ events, m.model.run O (m.run O computeDiff updates).1 =
        some ((m.run O computeDiff updates).2.model, events)) ∧
      ∀ c ∈ (m.run O computeDiff updates).1, c.isUpdate = true := by
  induction updates generalizing m with
  | nil => exact ⟨⟨[], rfl⟩, nofun⟩
  | cons update updates ih =>
    have hfirst : (m.update O computeDiff update).Follows O m := update_follows update
    obtain ⟨events, hrun⟩ := hfirst.run
    obtain ⟨⟨more, hrest⟩, hupdates⟩ := ih (m := (m.update O computeDiff update).model)
    rw [SmartModel.run]
    refine ⟨⟨events ++ more, run_append hrun hrest⟩, ?_⟩
    intro c hc
    rcases List.mem_append.mp hc with hc | hc
    · exact hfirst.updates c hc
    · exact hupdates c hc

theorem numbered_new (rootElement : T) : Numbered (IndexTreeModel.new rootElement).root :=
  numbered_node_iff.mpr ⟨childrenNumbered_iff.mpr ⟨rfl, trivial⟩, nofun⟩

end Smart

section Main

/-- In every run whose simple splices, those that smart splices make included, show no new node or
are made at places that fit, every node counts its visible children and their numbers are their
ranks, after every one of these splices. -/
theorem visibleChildren_numbered (O : IndexTreeModelOptions T)
    (computeDiff : List String → List String → DiffResult) (rootElement : T)
    (updates : List (TreeUpdate T))
    (hfit : ∀ before c after,
      ((SmartModel.new rootElement).run O computeDiff updates).1 = before ++ c :: after →
      ∀ m events, (IndexTreeModel.new rootElement).run O before = some (m, events) →
        c.NumbersFit O m) :
    Numbered ((SmartModel.new rootElement).run O computeDiff updates).2.model.root ∧
      ∀ before after,
        ((SmartModel.new rootElement).run O computeDiff updates).1 = before ++ after →
        ∀ m events, (IndexTreeModel.new rootElement).run O before = some (m, events) →
          Numbered m.root := by
  have hfollows := run_follows (O := O) (m := SmartModel.new rootElement) computeDiff updates
  obtain ⟨⟨events, hrun⟩, hupdates⟩ := hfollows
  refine ⟨run_numbered (numbered_new rootElement) hupdates hfit hrun, ?_⟩
  intro before after hsplit m events hbefore
  apply run_numbered (numbered_new rootElement) _ _ hbefore
  · exact fun c hc => hupdates c (hsplit ▸ List.mem_append_left after hc)
  · rintro before' c after' rfl
    exact hfit before' c (after' ++ after) (by rw [hsplit, List.append_assoc, List.cons_append])

/-- A comparison that always gives up -/
def quits : List String → List String → DiffResult := fun _ _ => ⟨[], true⟩

/-- Two visible nodes in an empty tree with a hidden one between them -/
theorem visibleChildren_numbered_three :
    Numbered ((SmartModel.new 0).run hideOnes quits
        [.splice [0] 0 [nested 2 false [], nested 1 false [], nested 3 false []] none]).2.model.root ∧
      ∀ before after, ((SmartModel.new 0).run hideOnes quits
        [.splice [0] 0 [nested 2 false [], nested 1 false [], nested 3 false []] none]).1 =
          before ++ after → ∀ m events,
        (IndexTreeModel.new 0).run hideOnes before = some (m, events) → Numbered m.root := by
  apply visibleChildren_numbered
  intro before c after hsplit m events hrun
  match before, hsplit with
  | [], hsplit =>
    cases hsplit
    cases hrun
    intro p hp
    cases hp
    exact .inr ⟨rfl, .inr rfl⟩
  | _ :: before, hsplit =>
    have hlength : 1 = (_ :: before ++ c :: after).length := congrArg List.length hsplit
    simp at hlength

/-- A second node is appended: both have the number zero. -/
theorem visibleChildren_not_numbered :
    ¬ ∀ (T : Type) (O : IndexTreeModelOptions T)
      (computeDiff : List String → List String → DiffResult) (rootElement : T)
      (updates : List (TreeUpdate T)),
      Numbered ((SmartModel.new rootElement).run O computeDiff updates).2.model.root := by
  intro h
  have hroot := h ℕ hideOnes quits 0
    [.splice [0] 0 [nested 2 false []] none, .splice [1] 0 [nested 3 false []] none] [] _ rfl
  have hrank := hroot.rank 1 _ rfl rfl
  exact absurd hrank (by decide +kernel)

end Main

end NexgileIde.Tree
