import ComponentView.Proofs.Ownership.Effects

/-! # Events and observables keep the order

Events and observables reach instances from outside, whatever is going on. As long as no instance has
to stay as it is, all that they set off keeps the order (`Engine.nested_orderly`). -/

namespace ComponentView

section Events

variable {engine : Engine} (orderly : engine.Orderly)

/-! ## Handlers -/

namespace Instance

variable {frame : Frame} {busy hand : List InstanceId} {i : InstanceId}

/-- Writing the state keeps the order. -/
theorem writeState_orderly (path : Path) (value : Value) {E : Stop → Focus Instance → Prop} :
    Ends (Housed frame busy hand i) (Handler.writeState path value)
      (fun _ => Housed frame busy hand i) E := by
  unfold Handler.writeState
  refine Ends.held.bind fun inst => .pointwise fun f hf => ?_
  obtain ⟨rfl, housed⟩ := hf
  refine Ends.bind (Q := fun _ => Housed frame busy hand i) (.change ?_) fun _ => .pure fun _ h => h
  rintro _ _ rfl
  exact housed.congr rfl rfl rfl rfl

end Instance

namespace Handler

variable {frame : Frame} {busy hand : List InstanceId} {i : InstanceId}

include orderly

/-- A handler keeps its instance in order. -/
theorem run_orderly (hl : frame.library = engine.library) (hs : ∀ i, ¬ frame.still i)
    (event : Event) (h : Handler) :
    Ends (Instance.Housed frame busy hand i) (h.run engine event)
      (fun _ => Instance.Housed frame busy hand i)
      (Failing (Instance.Housed frame busy hand i)) := by
  have updated : Ends (Instance.Housed frame busy hand i)
      (do let _ ← Instance.update engine) (fun _ => Instance.Housed frame busy hand i)
      (Failing (Instance.Housed frame busy hand i)) :=
    (Instance.update_orderly orderly hl hs).bind fun _ => .pure fun _ h => h
  cases h with
  | record tag => exact Instance.Housed.outside (Run.Keeps.record _) hs
  | fail message => exact Instance.Housed.outside Run.Keeps.fail hs
  | write path =>
    exact (Instance.writeState_orderly path event.value).bind fun _ =>
      Instance.Housed.outside (Run.Keeps.record _) hs
  | increment path =>
    exact (Ends.held.post fun _ _ h => h.2).bind fun inst =>
      (Instance.writeState_orderly path _).bind fun _ => updated
  | setState =>
    unfold run
    exact .change fun inst w housed =>
      Instance.Housed.congr (f := ⟨inst, w⟩) housed rfl rfl rfl rfl
  | update => exact updated
  | render controller =>
    exact (Instance.render_orderly orderly hl hs event.value controller).bind fun _ =>
      .pure fun _ h => h
  | updatePart name =>
    exact (Instance.updatePart_orderly orderly hl hs name).bind fun _ => .pure fun _ h => h
  | dispatch name =>
    exact Instance.Housed.outside ((hl ▸ orderly.dispatch event.target name event.value).bind
      fun _ => Run.Keeps.record _) hs
  | publish name value =>
    exact Instance.Housed.outside ((hl ▸ orderly.publish name value).bind
      fun _ => Run.Keeps.record _) hs
  | dismount =>
    exact (Retire.inPlace_orderly Run.retire_orderly .dismount).failing
  | bind path => exact (Instance.writeState_orderly path event.value).bind fun _ => updated

end Handler

/-! ## Events -/

namespace Run.Keeps

include orderly

/-- A listener keeps the order. -/
theorem hear (event : Event) (l : Listener) : Keeps engine.library (l.hear engine event) := by
  cases l with
  | probe tag => exact record _
  | bound owner handler =>
    show Keeps engine.library (Run.handle engine event owner handler)
    unfold Run.handle
    refine Preserves.get.bind fun w => ?_
    split
    · split
      · exact log _ _
      · refine Preserves.bind (attempt (hold fun frame busy hand hl hs => ?_)) fun r => ?_
        · exact handler.run_orderly orderly hl hs event
        · cases r with
          | ok _ => exact .pure _
          | error fault =>
            exact (look owner).bind fun inst => (definition _ inst.definition).bind fun d => log _ _
    · exact .pure _

/-- Raising an event keeps the order. -/
theorem dispatch (target : NodeId) (name : String) (value : Value) :
    Keeps engine.library (Run.dispatch engine target name value) := by
  unfold Run.dispatch
  exact Preserves.get.bind fun w => (Preserves.forM fun l _ => hear orderly _ l).bind fun _ => .pure _

end Run.Keeps

/-! ## Mounts and observables -/

namespace Run.Keeps

include orderly

/-- Rendering an instance from an observable keeps the order. -/
theorem renderFrom (i : InstanceId) (source : Observable) :
    Keeps engine.library (Run.renderFrom engine i source) := by
  unfold Run.renderFrom
  refine Preserves.get.bind fun w => ?_
  split
  · exact log _ _
  · refine (look i).bind fun inst => Preserves.bind (orderly.render i _ _).attempt fun r => ?_
    cases r with
    | ok _ => exact .pure _
    | error fault => exact (definition _ inst.definition).bind fun d => log _ _

/-- Running a mount keeps the order. -/
theorem runMount (id : MountId) : Keeps engine.library (Run.runMount engine id) := by
  unfold Run.runMount
  refine Preserves.get.bind fun w => ?_
  split
  · exact .pure _
  · split
    · exact (modify (by exact fun _ => ⟨rfl, rfl, rfl⟩)).bind fun _ =>
        (renderFrom orderly _ _).bind fun _ => modify (by exact fun _ => ⟨rfl, rfl, rfl⟩)
    · exact .pure _

/-- The waiting mounts keep the order, round after round. -/
theorem runRounds (rounds : Nat) : Keeps engine.library (Run.runRounds engine rounds) := by
  induction rounds with
  | zero => exact giveUp
  | succ rounds ih =>
    unfold Run.runRounds
    refine Preserves.get.bind fun w => ?_
    split
    · exact .pure _
    · exact (modify (by exact fun _ => ⟨rfl, rfl, rfl⟩)).bind fun _ =>
        (Preserves.forM fun id _ => runMount orderly id).bind fun _ => ih

/-- Scheduling a mount keeps the order. -/
theorem schedule (id : MountId) : Keeps engine.library (Run.schedule engine id) := by
  unfold Run.schedule
  refine (modify (by exact fun _ => ⟨rfl, rfl, rfl⟩)).bind fun _ => Preserves.get.bind fun w => ?_
  split
  · exact .pure _
  · exact (modify (by exact fun _ => ⟨rfl, rfl, rfl⟩)).bind fun _ => (runRounds orderly _).bind fun _ =>
      modify (by exact fun _ => ⟨rfl, rfl, rfl⟩)

/-- Mounting an instance keeps the order. -/
theorem mount (component : InstanceId) (source : Observable) :
    Keeps engine.library (Run.mount engine component source) := by
  unfold Run.mount
  refine Preserves.get.bind fun w => ?_
  split
  · exact (modifyGet (by exact fun _ => ⟨rfl, rfl, rfl⟩)).bind fun id => (schedule orderly id).bind fun _ =>
      .pure _
  · exact (log _ _).bind fun _ => (renderFrom orderly component source).bind fun _ => .pure _

/-- Telling the followers of a cell keeps the order. -/
theorem notify (cell : Nat) : Keeps engine.library (Run.notify engine cell) := by
  -- Marking mounts changes neither instances nor pools.
  have due (ids : List MountId) (w : World) :
      (ids.foldl (World.setDue · true) w).instances = w.instances ∧
        (ids.foldl (World.setDue · true) w).pools = w.pools ∧
        (ids.foldl (World.setDue · true) w).busy = w.busy := by
    induction ids generalizing w with
    | nil => exact ⟨rfl, rfl, rfl⟩
    | cons id ids ih => exact ih (w.setDue true id)
  unfold Run.notify
  intro k
  refine Ends.get.bind fun w => .pointwise fun v hv => ?_
  obtain ⟨rfl, hw⟩ := hv
  refine Ends.bind (Q := fun _ => World.OrderlyIn k) (fun _ _ => ?_) fun _ =>
    Preserves.forM (fun id _ => schedule orderly id) k
  exact World.Orderly.congr hw (due _ _).1 (due _ _).2.1 (due _ _).2.2

/-- A change to an observable keeps the order. -/
theorem alter {α : Type} (o : Observable) (f : Value → Value × Option α) :
    Keeps engine.library (o.alter engine f) := by
  unfold Observable.alter
  refine Preserves.get.bind fun w => ?_
  split
  · exact .pure _
  · refine (modify (by exact fun _ => ⟨rfl, rfl, rfl⟩)).bind fun _ => ?_
    split
    · exact .pure _
    · exact (notify orderly _).bind fun _ => .pure _

/-- Publishing an event keeps the order. -/
theorem publish (name : String) (value : Value) :
    Keeps engine.library (Run.publish engine name value) := by
  unfold Run.publish
  refine Preserves.get.bind fun w => ?_
  split
  · exact .pure _
  · exact Preserves.bind ((alter orderly _ _).bind fun _ => .pure _) fun _ => .pure _

end Run.Keeps

end Events

namespace Engine

/-- The engine above one that is orderly is so, too. -/
theorem above_orderly {below : Unit → Engine} {lib : Library} (orderly : (below ()).Orderly)
    (hb : (below ()).library = lib) (ranked : lib.Ranked) : (above below lib).Orderly := by
  have render (i : InstanceId) (props : Value) (controller : Controller) :
      Run.Keeps (below ()).library (Run.hold i (Instance.render (below ()) props controller)) :=
    .hold fun _ _ _ hl hs => Instance.render_orderly orderly hl hs props controller
  have acquire := Run.acquire_brings orderly (hb.symm ▸ ranked)
  have dispatch := Run.Keeps.dispatch orderly
  have publish := Run.Keeps.publish orderly
  rw [hb] at render acquire dispatch publish
  exact ⟨render, acquire, dispatch, publish⟩

/-- Every engine of a library is orderly, whatever its components do. -/
theorem nested_orderly {lib : Library} (ranked : lib.Ranked) (depth : Nat) :
    (nested lib depth).Orderly ∧ (nested lib depth).library = lib := by
  induction depth with
  | zero =>
    exact ⟨⟨fun _ _ _ => .giveUp, fun _ _ _ _ _ _ _ _ _ => .giveUp, fun _ _ _ => .giveUp,
      fun _ _ => .giveUp⟩, rfl⟩
  | succ depth ih => exact ⟨above_orderly ih.1 ih.2 ranked, rfl⟩

end Engine

end ComponentView
