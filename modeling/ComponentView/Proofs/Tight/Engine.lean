import ComponentView.Proofs.Tight.Update

/-! # All that an engine does is safe

A new instance follows its template: its stash is made entry by entry from the plans, its nodes are
those of the slots, and its cache has the shape of the callbacks (`Run.build_safe`). Events and
observables only hold instances, and what they do with them is safe. So whatever is asked of the
engine of a library of tight templates is done safely, at every depth (`Engine.nested_safe`). -/

namespace ComponentView

variable {lib : Library}

/-! ## New instances -/

namespace Build

variable {build : DefinitionId → Run InstanceId} (safe : ∀ id, Run.Safe lib (build id))
  {d : Definition}

/-- A child takes the place of a slot that is there. -/
theorem takePlace_safe {slot : Nat} {elements : List NodeId} (h : slot < elements.length)
    (startsDetached : Bool) (child : InstanceId) (busy : List InstanceId) :
    Ends (World.Tight lib busy) (takePlace slot startsDetached child elements)
      (fun elements' w => elements'.length = elements.length ∧ w.Tight lib busy)
      (Safely (World.Tight lib busy)) := by
  unfold takePlace
  refine Ends.bind (Run.Safe.rootOf child busy) fun root => ?_
  rw [List.getElem?_eq_getElem h]
  have kept : Ends (World.Tight lib busy)
      (do Run.onDocument (·.release elements[slot]); return elements.set slot root)
      (fun elements' w => elements'.length = elements.length ∧ w.Tight lib busy)
      (Safely (World.Tight lib busy)) :=
    Ends.bind (Run.Safe.onDocument _ busy) fun _ => .pure fun _ h => ⟨List.length_set, h⟩
  dsimp only
  split
  · exact kept
  · exact Ends.bind (Run.Safe.onDocument _ busy) fun _ => kept

/-- Finding the source of a child is safe. -/
theorem sourceOf_safe (source : ChildSource) : Run.Safe lib (sourceOf d source) := by
  cases source with
  | definition id => exact .pure id
  | stub name =>
    simp only [sourceOf]
    split
    · exact .pure _
    · exact .fail (by exact fun h => h)

include safe

/-- What is made for a plan suits it. -/
theorem entry_safe {elements : List NodeId} (length : elements.length = d.template.slots.length)
    {plan : StashPlan} (hp : plan.Tight d.template) (busy : List InstanceId) :
    Ends (World.Tight lib busy) (entry build d elements plan)
      (fun r w => (r.1.Suits plan ∧ r.2.length = elements.length) ∧ w.Tight lib busy)
      (Safely (World.Tight lib busy)) := by
  cases plan with
  | tracker => exact .pure fun _ h => ⟨⟨⟨rfl, rfl, trivial⟩, rfl⟩, h⟩
  | sequential => exact .pure fun _ h => ⟨⟨⟨rfl, rfl, Nat.zero_le _⟩, rfl⟩, h⟩
  | keyed =>
    exact .pure fun _ h => ⟨⟨⟨rfl, rfl, List.nodup_nil, List.nodup_nil, fun _ => Iff.rfl⟩, rfl⟩, h⟩
  | child slot source startsDetached =>
    have hp : slot < d.template.slots.length := hp
    refine Ends.bind (sourceOf_safe source busy) fun id => Ends.bind (safe id busy) fun child => ?_
    exact (takePlace_safe (length ▸ hp) startsDetached child busy).bind fun _ =>
      .pure fun _ h => ⟨⟨⟨rfl, rfl, trivial⟩, h.1⟩, h.2⟩

/-- The stash that is made suits the plans. -/
theorem entries_safe (root : NodeId) {made : List StashItem} {elements : List NodeId}
    {plans before : List StashPlan} (length : elements.length = d.template.slots.length)
    (hps : ∀ plan ∈ plans, plan.Tight d.template) (suits : List.Forall₂ StashItem.Suits made before)
    (busy : List InstanceId) :
    Ends (World.Tight lib busy) (entries build d root made elements plans)
      (fun r w => (List.Forall₂ StashItem.Suits r.1 (before ++ plans) ∧
        r.2.length = d.template.slots.length) ∧ w.Tight lib busy)
      (Safely (World.Tight lib busy)) := by
  induction plans generalizing made elements before with
  | nil => exact .pure fun _ h => ⟨⟨by rwa [List.append_nil], length⟩, h⟩
  | cons plan plans ih =>
    rw [List.forall_mem_cons] at hps
    refine (entry_safe safe length hps.1 busy).attempt.bind fun r => ?_
    cases r with
    | ok a =>
      refine Ends.pre (.assume fun h => ?_) fun w h => h.1 a rfl
      have := ih (h.2.trans length) hps.2 (List.rel_append suits (.cons h.1 .nil))
      rwa [List.append_assoc] at this
    | error fault =>
      refine Ends.pre (.assume fun h => ?_) fun w h =>
        ⟨(h.2 fault rfl).1, (h.2 fault rfl).2 fault rfl⟩
      have removed : Run.Safe lib ((made.filterMap StashItem.child?).forM (Run.retire .destroy)) :=
        Run.Sure.safe (.forM fun i _ => Run.Sure.retire .destroy i)
      exact Ends.bind (removed busy) fun _ => Ends.bind (Run.Safe.onDocument _ busy) fun _ =>
        .throw fun _ hw => ⟨h, fun _ _ => hw⟩

omit safe in
/-- A new instance that follows its template is taken up. -/
theorem register_safe (t : Template) {inst : Instance} (follows : inst.Follows lib) :
    Run.Safe lib (register t inst) := by
  refine Preserves.bind (.modifyGet fun _ w h => h.push follows) fun i =>
    Preserves.bind (.forM fun l _ => ?_) fun _ => .pure _
  split
  · exact Run.Safe.onDocument _
  · exact .pure _

/-- A new instance of a tight template follows it. -/
theorem assemble_safe (tight : lib.Tight) (id : DefinitionId) (props : Value)
    (controller : Controller) : Run.Safe lib (assemble lib build id props controller) := by
  intro busy
  unfold assemble
  refine (Ends.definition fun _ _ => ⟨fun h => h, .of_abort⟩).bind fun d => .assume fun hd => ?_
  refine Ends.bind (Run.Safe.modifyGet (by exact fun _ => ⟨rfl, rfl, rfl⟩) busy) fun root =>
    Ends.bind (Q := fun _ => World.Tight lib busy) (fun _ h => h) fun w => ?_
  split
  · exact Ends.bind (Run.Safe.onDocument _ busy) fun _ => Run.Safe.fail (by exact fun h => h) busy
  · next elements he =>
    refine Ends.bind (entries_safe safe root (length_bindFrom he) (tight hd).stash .nil busy)
      fun r => .assume fun h => ?_
    refine register_safe _ ⟨d, hd, h.2, ?_, h.1⟩ busy
    simp [Cache.empty, Function.comp_def]

end Build

namespace Run.Safe

/-- Building an instance is safe, whatever the depth. -/
theorem buildWithin (tight : lib.Tight) (depth : Nat) (id : DefinitionId) (props : Value)
    (controller : Controller) : Safe lib (buildWithin lib depth id props controller) := by
  induction depth generalizing id props controller with
  | zero => exact .giveUp fun h => h
  | succ depth ih => exact Build.assemble_safe (fun child => ih child _ _) tight id props controller

variable {engine : Engine} (safe : engine.Safe lib) (tight : lib.Tight)

include safe tight

/-- Constructing an instance is safe. -/
theorem construct (id : DefinitionId) (props : Value) (controller : Controller) :
    Safe lib (construct engine id props controller) := by
  have built : Safe lib (Run.build engine.library id props controller) :=
    safe.library.symm ▸ buildWithin tight (id + 1) id props controller
  exact built.bind fun i => attempt_bind (hold (Instance.update_safe safe tight))
    (fun _ => Preserves.bind (hold (.change fun _ h => h)) fun _ => .pure _)
    fun _ allowed => (Run.Sure.retire .destroy i).safe.bind fun _ => fail allowed

/-- Acquiring an instance is safe. -/
theorem acquire (id : DefinitionId) (share : Bool) (props : Value) (controller : Controller) :
    Safe lib (acquire engine id share props controller) := by
  unfold Run.acquire
  refine (definition _ id).bind fun d => ?_
  have reused (line : String) (i : InstanceId) : Safe lib (do
      Run.log .debug line
      let _ ← Run.hold i (Instance.render engine props controller)
      return i) :=
    (log _ _).bind fun _ => (hold (Instance.render_safe safe tight props controller)).bind
      fun _ => .pure _
  have fresh (line : String) : Safe lib (do
      Run.log .debug line
      Run.construct engine id props controller) :=
    (log _ _).bind fun _ => construct safe tight id props controller
  dsimp only
  split
  · refine (popPool id).bind fun spare => ?_
    cases spare with
    | some i => exact reused _ i
    | none => exact fresh _
  · exact fresh _

end Run.Safe

/-! ## Events -/

namespace Handler

variable {engine : Engine}

/-- Writing to the state is safe. -/
theorem writeState_safe (path : Path) (value : Value) :
    Holding.Safe lib (Instance.Follows lib) (writeState path value) :=
  Holding.Safe.held_bind fun _ follows =>
    Preserves.bind (Holding.Safe.change fun _ _ => follows) fun _ => .pure _

/-- A handler of an instance that follows its template is safe. -/
theorem run_safe (safe : engine.Safe lib) (tight : lib.Tight) (event : Event) (h : Handler) :
    Holding.Safe lib (Instance.Follows lib) (h.run engine event) := by
  have updated : Holding.Safe lib (Instance.Follows lib) (do let _ ← Instance.update engine) :=
    (Instance.update_safe safe tight).bind fun _ => .pure _
  cases h with
  | record tag => exact .outside (.record _)
  | fail message => exact .outside (.fail (by exact id))
  | write path =>
    exact (writeState_safe path event.value).bind fun _ => Holding.Safe.outside (.record _)
  | increment path =>
    exact Holding.Safe.held.bind fun _ => (writeState_safe path _).bind fun _ => updated
  | setState =>
    unfold run
    exact .change fun _ follows => follows
  | update => exact updated
  | render controller =>
    exact (Instance.render_safe safe tight event.value controller).bind fun _ => .pure _
  | updatePart name => exact (Instance.updatePart_safe safe tight name).bind fun _ => .pure _
  | dispatch name =>
    exact .outside ((safe.dispatch event.target name event.value).bind fun _ => Run.Safe.record _)
  | publish name value => exact .outside ((safe.publish name value).bind fun _ => Run.Safe.record _)
  | dismount =>
    exact fun busy => (Retire.inPlace_sure Run.Sure.retire .dismount busy).mono (fun _ h => h)
      (fun _ _ h => h) fun _ _ => Safely.of_waived
  | bind path => exact (writeState_safe path event.value).bind fun _ => updated

end Handler

namespace Run.Safe

variable {engine : Engine} (safe : engine.Safe lib)

include safe

/-- A listener is safe: an instance that fails over an event only fails over what is its own. -/
theorem hear (tight : lib.Tight) (event : Event) (l : Listener) :
    Safe lib (l.hear engine event) := by
  cases l with
  | probe tag => exact record _
  | bound owner handler =>
    show Safe lib (Run.handle engine event owner handler)
    unfold Run.handle
    refine Preserves.get.bind fun w => ?_
    split
    · split
      · exact log _ _
      · exact attempt_bind (hold (handler.run_safe safe tight event)) (fun _ => .pure _)
          fun _ _ => (look owner).bind fun _ => (definition _ _).bind fun _ => log _ _
    · exact .pure _

/-- Dispatching an event is safe. -/
theorem dispatch (tight : lib.Tight) (target : NodeId) (name : String) (value : Value) :
    Safe lib (Run.dispatch engine target name value) :=
  Preserves.get.bind fun _ => (Preserves.forM fun l _ => hear safe tight _ l).bind fun _ => .pure _

/-! ## Mounts and observables -/

/-- Rendering an instance from an observable is safe. -/
theorem renderFrom (i : InstanceId) (source : Observable) :
    Safe lib (Run.renderFrom engine i source) := by
  unfold Run.renderFrom
  refine Preserves.get.bind fun w => ?_
  split
  · exact log _ _
  · exact (look i).bind fun inst => attempt_bind (safe.render i _ _) (fun _ => .pure _)
      fun _ _ => (definition _ _).bind fun _ => log _ _

/-- Running a mount is safe. -/
theorem runMount (id : MountId) : Safe lib (Run.runMount engine id) := by
  unfold Run.runMount
  refine Preserves.get.bind fun w => ?_
  split
  · exact .pure _
  · split
    · exact (modify (by exact fun _ => ⟨rfl, rfl, rfl⟩)).bind fun _ =>
        (renderFrom safe _ _).bind fun _ => modify (by exact fun _ => ⟨rfl, rfl, rfl⟩)
    · exact .pure _

/-- Running the mounts that are due, for some rounds, is safe. -/
theorem runRounds (rounds : Nat) : Safe lib (Run.runRounds engine rounds) := by
  induction rounds with
  | zero => exact giveUp fun h => h
  | succ rounds ih =>
    unfold Run.runRounds
    refine Preserves.get.bind fun w => ?_
    split
    · exact .pure _
    · exact (modify (by exact fun _ => ⟨rfl, rfl, rfl⟩)).bind fun _ =>
        (Preserves.forM fun id _ => runMount safe id).bind fun _ => ih

/-- Scheduling a mount is safe. -/
theorem schedule (id : MountId) : Safe lib (Run.schedule engine id) := by
  unfold Run.schedule
  refine (modify (by exact fun _ => ⟨rfl, rfl, rfl⟩)).bind fun _ => Preserves.get.bind fun w => ?_
  split
  · exact .pure _
  · exact (modify (by exact fun _ => ⟨rfl, rfl, rfl⟩)).bind fun _ => (runRounds safe _).bind fun _ =>
      modify (by exact fun _ => ⟨rfl, rfl, rfl⟩)

/-- Mounting an instance is safe. -/
theorem mount (component : InstanceId) (source : Observable) :
    Safe lib (Run.mount engine component source) := by
  unfold Run.mount
  refine Preserves.get.bind fun w => ?_
  split
  · exact (modifyGet (by exact fun _ => ⟨rfl, rfl, rfl⟩)).bind fun id =>
      (schedule safe id).bind fun _ => .pure _
  · exact (log _ _).bind fun _ => (renderFrom safe component source).bind fun _ => .pure _

/-- Telling the followers of a cell is safe. -/
theorem notify (cell : Nat) : Safe lib (Run.notify engine cell) := by
  -- Marking mounts changes neither instances nor pools.
  have due (ids : List MountId) (w : World) :
      (ids.foldl (World.setDue · true) w).instances = w.instances ∧
        (ids.foldl (World.setDue · true) w).pools = w.pools ∧
        (ids.foldl (World.setDue · true) w).busy = w.busy := by
    induction ids generalizing w with
    | nil => exact ⟨rfl, rfl, rfl⟩
    | cons id ids ih => exact ih (w.setDue true id)
  intro busy
  unfold Run.notify
  refine Ends.get.bind fun w => .pointwise fun v hv => ?_
  obtain ⟨rfl, hw⟩ := hv
  refine Ends.bind (Q := fun _ => World.Tight lib busy) (fun _ _ => ?_) fun _ =>
    Preserves.forM (fun id _ => schedule safe id) busy
  exact hw.congr (due _ _).1 (congrArg Array.size (due _ _).2.1) (due _ _).2.2

/-- A change to an observable is safe. -/
theorem alter {α : Type} (o : Observable) (f : Value → Value × Option α) :
    Safe lib (o.alter engine f) := by
  unfold Observable.alter
  refine Preserves.get.bind fun w => ?_
  split
  · exact .pure _
  · refine (modify (by exact fun _ => ⟨rfl, rfl, rfl⟩)).bind fun _ => ?_
    split
    · exact .pure _
    · exact (notify safe _).bind fun _ => .pure _

/-- Publishing an event is safe. -/
theorem publish (name : String) (value : Value) : Safe lib (Run.publish engine name value) := by
  unfold Run.publish
  refine Preserves.get.bind fun w => ?_
  split
  · exact .pure _
  · exact Preserves.bind ((alter safe _ _).bind fun _ => .pure _) fun _ => .pure _

end Run.Safe

/-! ## Engines -/

namespace Engine

/-- Every engine of a library of tight templates is safe. -/
theorem nested_safe (tight : lib.Tight) (depth : Nat) : (nested lib depth).Safe lib := by
  induction depth with
  | zero => exact ⟨rfl, fun _ _ _ => .giveUp fun h => h, fun _ _ _ _ => .giveUp fun h => h,
      fun _ _ _ => .giveUp fun h => h, fun _ _ => .giveUp fun h => h⟩
  | succ depth ih =>
    exact ⟨rfl, fun _ props controller => .hold (Instance.render_safe ih tight props controller),
      fun id share => Run.Safe.acquire ih @tight id share, Run.Safe.dispatch ih @tight,
      Run.Safe.publish ih⟩

end Engine

end ComponentView
