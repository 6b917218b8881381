import ComponentView.Proofs.Ownership.Retire

/-! # New instances are in order

Building an instance makes new instances only: the instance itself, which ends up in hand, and its
nested children, which end up in its stash (`Run.build_orderly`). This needs that definitions refer to
earlier ones (`Library.Ranked`). -/

namespace ComponentView

/-- The definition of a nested child. -/
def ChildSource.refers (d : Definition) : ChildSource → Option DefinitionId
  | .definition id => some id
  | .stub name => d.stubs.get? name

/-- The definition that an entry of the stash refers to. -/
def StashPlan.refers (d : Definition) : StashPlan → Option DefinitionId
  | .tracker _ => none
  | .child _ source _ => source.refers d
  | .sequential definition _ _ => some definition
  | .keyed definition _ _ _ => some definition

/-- Every definition refers to earlier ones only. -/
def Library.Ranked (lib : Library) : Prop :=
  ∀ (id : DefinitionId) (d : Definition), lib[id]? = some d →
    ∀ plan ∈ d.template.stash, ∀ k ∈ plan.refers d, k < id

instance (lib : Library) : Decidable lib.Ranked :=
  decidable_of_iff (∀ e ∈ lib.zipIdx, ∀ plan ∈ e.1.template.stash, ∀ k ∈ plan.refers e.1, k < e.2)
    ⟨fun h id d hd => h (d, id) (List.mem_zipIdx_iff_getElem?.mpr hd),
      fun h e he => h e.2 e.1 (List.mem_zipIdx_iff_getElem?.mp he)⟩

/-- The instance is of a definition and has been rendered, or is yet to be, with these props and this
controller. -/
def World.Shows (w : World) (i : InstanceId) (id : DefinitionId) (props : Value)
    (controller : Controller) : Prop :=
  ∃ inst, w.instances[i]? = some inst ∧ inst.definition = id ∧ inst.props = props ∧
    inst.controller = controller

/-- What shows an instance of a definition knows it for one. -/
theorem World.Shows.definition? {w : World} {i : InstanceId} {id : DefinitionId} {props : Value}
    {controller : Controller} (h : w.Shows i id props controller) :
    w.definition? i = some id := by
  obtain ⟨inst, hi, rfl, -⟩ := h
  exact definition?_of_get hi

namespace Build

variable {frame : Frame} {busy hand : List InstanceId} {id : DefinitionId} {lib : Library}

/-- Building a child keeps the order, and the child is in hand. -/
def Keeps (lib : Library) (build : DefinitionId → Run InstanceId) : Prop :=
  ∀ (frame : Frame) (busy hand : List InstanceId) (k : DefinitionId), frame.library = lib →
    Ends (World.Orderly frame busy hand) (build k)
      (fun i w => w.Orderly frame busy (i :: hand) ∧ w.definition? i = some k ∧ ¬ frame.still i)
      (Failing (World.Orderly frame busy hand))

variable {build : DefinitionId → Run InstanceId} (keeps : Keeps lib build) {d : Definition}

include keeps

/-- One more entry of the stash is made. -/
theorem entry_orderly (hl : frame.library = lib) (elements : List NodeId) {plan : StashPlan}
    (hplan : ∀ k ∈ plan.refers d, k < id) {made : List StashItem} :
    Ends (World.Stocks frame busy hand id made) (entry build d elements plan)
      (fun r w => w.Stocks frame busy hand id (made ++ [r.1]))
      (Failing (World.Stocks frame busy hand id made)) := by
  -- An entry that holds nothing yet.
  have empty {item : StashItem} (hr : ∀ w, item.Ranks w id) (hh : item.held = []) (w : World)
      (h : w.Stocks frame busy hand id made) : w.Stocks frame busy hand id (made ++ [item]) := by
    have held : (made ++ [item]).flatMap StashItem.held = made.flatMap StashItem.held := by
      simp [hh]
    refine ⟨held ▸ h.orderly, fun item' hm => ?_, held ▸ h.aside⟩
    rcases List.mem_append.mp hm with hm | hm
    · exact h.ranks item' hm
    · exact List.mem_singleton.mp hm ▸ hr w
  cases plan with
  | tracker detached => exact .pure (empty (fun _ => trivial) rfl)
  | sequential definition share anchors =>
    exact .pure (empty (fun _ => ⟨hplan _ rfl, List.forall_mem_nil _⟩) rfl)
  | keyed definition path share anchors =>
    exact .pure (empty (fun _ => ⟨hplan _ rfl, List.forall_mem_nil _, List.nodup_nil⟩) rfl)
  | child slot source startsDetached =>
    refine Ends.bind (Q := fun k w => source.refers d = some k ∧
      w.Stocks frame busy hand id made) ?_ fun k => .assume fun hk => ?_
    · cases source with
      | definition k => exact .pure fun _ h => ⟨rfl, h⟩
      | stub name =>
        simp only [sourceOf]
        split
        · next k hk => exact .pure fun _ h => ⟨hk, h⟩
        · exact .fail
    refine Ends.bind (P := World.Stocks frame busy hand id made)
      (Q := fun i w => w.Stocks frame busy hand id (made ++ [.child i])) ?_ fun i => ?_
    · intro w h
      refine ((keeps (frame.widen w []) busy _ k hl).mono (fun _ h => h) (fun i w' h' => ?_)
        fun stop w' h' => h'.mono fun h' => ?_) w (h.orderly.widen (List.nil_subset _))
      · obtain ⟨orderly, since⟩ := h.orderly.narrow h'.1
        refine ⟨orderly.perm ?_, fun item hm => ?_, fun j hj => ?_⟩
        · simp [StashItem.held]
        · rcases List.mem_append.mp hm with hm | hm
          · exact (h.ranks item hm).grows since.grown
          · obtain rfl := List.mem_singleton.mp hm
            exact ⟨k, hplan k hk, h'.2.1⟩
        · rw [List.flatMap_append, List.mem_append] at hj
          rcases hj with hj | hj
          · exact h.aside j hj
          · obtain rfl : j = i := by simpa [StashItem.held] using hj
            exact fun hs => h'.2.2 (Or.inl hs)
      · obtain ⟨orderly, since⟩ := h.orderly.narrow h'
        exact h.after orderly since
    · refine Ends.bind (Q := fun _ w => w.Stocks frame busy hand id (made ++ [.child i])) ?_
        fun _ => .pure fun _ h => h
      unfold takePlace
      refine (Ends.rootOf (fun _ _ => .of_abort) fun _ _ => .of_abort).bind fun root => ?_
      split
      · exact .giveUp
      · next placeholder _ =>
        have kept : Ends (World.Stocks frame busy hand id (made ++ [.child i]))
            (do Run.onDocument (·.release placeholder); return elements.set slot root)
            (fun _ => World.Stocks frame busy hand id (made ++ [.child i]))
            (Failing (World.Stocks frame busy hand id made)) :=
          World.Stocks.onDocument.bind fun _ => .pure fun _ h => h
        split
        · exact kept.pre fun _ h => h.2.2
        · exact (World.Stocks.onDocument.pre fun _ h => h.2.2).bind fun _ => kept

/-- A stash is made entry by entry. If an entry cannot be made, those made so far are put out of
use. -/
theorem entries_orderly (hl : frame.library = lib) (root : NodeId) {plans : List StashPlan}
    (hplans : ∀ plan ∈ plans, ∀ k ∈ plan.refers d, k < id) (made : List StashItem)
    (elements : List NodeId) :
    Ends (World.Stocks frame busy hand id made) (entries build d root made elements plans)
      (fun r => World.Stocks frame busy hand id r.1) (Failing (World.Orderly frame busy hand)) := by
  induction plans generalizing made elements with
  | nil => exact .pure fun _ h => h
  | cons plan plans ih =>
    rw [List.forall_mem_cons] at hplans
    refine Ends.bind ((entry_orderly keeps hl elements hplans.1).attempt.mono (fun _ h => h)
      (fun _ _ h => h) fun stop w h => h.mono fun h => ?_) fun r => ?_
    · exact h.orderly.shrink (List.sublist_append_right _ _).subperm
    · cases r with
      | ok a => exact (ih hplans.2 (made ++ [a.1]) a.2).pre fun w h => h.1 a rfl
      | error fault =>
        intro w h
        have stocks := h.2 fault rfl fault rfl
        have retired : Ends (World.Orderly frame busy (made.flatMap StashItem.held ++ hand))
            ((made.filterMap StashItem.child?).forM (Run.retire .destroy))
            (fun _ => World.Orderly frame busy (made.flatMap StashItem.held ++ hand))
            (Failing (World.Orderly frame busy hand)) := by
          refine .forM fun i hi => (Run.retire_orderly .destroy i (stocks.aside i ?_)).failing
          obtain ⟨item, hm, hi⟩ := List.mem_filterMap.mp hi
          refine List.mem_flatMap.mpr ⟨item, hm, ?_⟩
          cases item <;> simp_all [StashItem.child?, StashItem.held]
        refine (retired.bind fun _ => Ends.bind (Q := fun _ => World.Orderly frame busy hand) ?_
          fun _ => .fail) w stocks.orderly
        refine .modify fun w h => ?_
        exact (h.shrink (List.sublist_append_right _ _).subperm).congr rfl rfl rfl

omit keeps in
/-- A new instance is taken up. -/
theorem register_orderly (t : Template) {inst : Instance}
    (hs : ∀ j ∈ inst.held, ¬ frame.still j) :
    Ends (fun w => w.Orderly frame busy (inst.held ++ hand) ∧ inst.Sound frame.library w)
      (register t inst)
      (fun i w => w.Orderly frame busy (i :: hand) ∧ w.instances[i]? = some inst ∧
        ¬ frame.still i) (Failing (World.Orderly frame busy hand)) := by
  unfold register
  refine Ends.bind (Q := fun i w => w.Orderly frame busy (i :: hand) ∧
    w.instances[i]? = some inst ∧ ¬ frame.still i) (.modifyGet fun w h => ?_) fun i => ?_
  · obtain ⟨orderly, still⟩ := h.1.enter h.2 hs
    exact ⟨orderly, by simp, still⟩
  · refine (Ends.forM fun l _ => ?_).bind fun _ => .pure fun _ h => h
    split
    · exact .modify fun _ h => ⟨h.1.congr rfl rfl rfl, h.2⟩
    · exact .pure fun _ h => h

/-- A new instance of a definition, with its nested children. -/
theorem assemble_orderly (hl : frame.library = lib) (ranked : lib.Ranked) (id : DefinitionId)
    (props : Value) (controller : Controller) :
    Ends (World.Orderly frame busy hand) (assemble lib build id props controller)
      (fun i w => w.Orderly frame busy (i :: hand) ∧ w.Shows i id props controller ∧
        ¬ frame.still i) (Failing (World.Orderly frame busy hand)) := by
  have onDocument {f : Document Listener → Document Listener} {E : Stop → World → Prop} :
      Ends (World.Orderly frame busy hand) (Run.onDocument f)
        (fun _ => World.Orderly frame busy hand) E := .modify fun _ h => h.congr rfl rfl rfl
  unfold assemble
  refine (Ends.definition fun _ _ => .of_abort).bind fun d => .assume fun hd => ?_
  refine Ends.bind (P := World.Orderly frame busy hand)
    (Q := fun _ => World.Orderly frame busy hand)
    (.modifyGet fun w h => h.congr rfl rfl rfl) fun root => ?_
  refine Ends.get.bind fun w => ?_
  split
  · exact Ends.bind (onDocument.pre fun _ h => h.2) fun _ => .fail
  · next elements he =>
    have made : Ends (World.Stocks frame busy hand id [])
        (entries build d root [] elements d.template.stash)
        (fun r w => w.Stocks frame busy hand id r.1 ∧
          r.1.map StashItem.kind = d.template.stash.map StashPlan.kind ∧
          r.2.length = d.template.slots.length) (Failing (World.Orderly frame busy hand)) := by
      have fits := entries_ends build d root [] elements d.template.stash
      refine ((entries_orderly keeps hl root (ranked id d hd) [] elements).and fits).mono
        (fun _ h => ⟨h, trivial⟩) (fun r w h => ⟨h.1, by simpa using h.2.1, ?_⟩) fun _ _ h => h.1
      rw [h.2.2, length_bindFrom he]
    refine Ends.bind (made.pre fun w h => ⟨h.2, List.forall_mem_nil _, List.forall_mem_nil _⟩)
      fun r => ?_
    obtain ⟨stash, elements'⟩ := r
    intro w h
    obtain ⟨stocks, kinds, length⟩ := h
    refine ((register_orderly d.template ?_).post fun i w h => ⟨h.1, ?_, h.2.2⟩) w
      ⟨stocks.orderly, stocks.ranks, d, hl ▸ hd, ⟨length, kinds⟩, ?_⟩
    · exact stocks.aside
    · exact ⟨_, h.2.1, rfl, rfl, rfl⟩
    · simp [Cache.empty, Function.comp_def]

end Build

namespace Run

variable {frame : Frame} {busy hand : List InstanceId} {lib : Library}

/-- Building an instance keeps the order, whatever the depth. -/
theorem buildWithin_orderly (ranked : lib.Ranked) (hl : frame.library = lib) (depth : Nat)
    (id : DefinitionId) (props : Value) (controller : Controller) :
    Ends (World.Orderly frame busy hand) (buildWithin lib depth id props controller)
      (fun i w => w.Orderly frame busy (i :: hand) ∧ w.Shows i id props controller ∧
        ¬ frame.still i) (Failing (World.Orderly frame busy hand)) := by
  induction depth generalizing frame busy hand id props controller with
  | zero => exact .giveUp
  | succ depth ih =>
    refine Build.assemble_orderly (fun frame busy hand k hl => ?_) hl ranked id props controller
    exact (ih hl k .null none).post fun i w h => ⟨h.1, h.2.1.definition?, h.2.2⟩

/-- Building an instance keeps the order, and the instance is in hand. -/
theorem build_orderly (ranked : lib.Ranked) (hl : frame.library = lib) (id : DefinitionId)
    (props : Value) (controller : Controller) :
    Ends (World.Orderly frame busy hand) (build lib id props controller)
      (fun i w => w.Orderly frame busy (i :: hand) ∧ w.Shows i id props controller ∧
        ¬ frame.still i) (Failing (World.Orderly frame busy hand)) :=
  buildWithin_orderly ranked hl (id + 1) id props controller

end Run

end ComponentView
