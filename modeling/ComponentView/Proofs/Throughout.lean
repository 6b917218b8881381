import ComponentView.Proofs.Document.Reached
import ComponentView.Proofs.Runs
import ComponentView.Session.Perform

/-! # What holds throughout a step

Most of what a step does is the same whatever is to be shown of it: it follows names and ways to nodes,
looks at instances, changes the document, and leaves the rest to the engine. Properties of a session that
allow all this (`Work.Permits`), and what the engine does for instances as well (`Work.Engages`), hold
throughout every step on instances, nodes and trackers, and on the document as a whole. -/

namespace ComponentView

/-- Nobody comes to be listened to when a node is moved. -/
theorem Tracker.apply_hushed {L : Type} (t : Tracker) (d : Document L) (position : Nat)
    (parent target : NodeId) (visible : Bool) :
    Document.Hushed d (t.apply d position parent target visible).2.1 := by
  unfold Tracker.apply
  split
  · exact .refl _
  · split
    · exact .insertBefore _ _ _ _
    · exact .remove _ _ _

namespace Work

variable {α β κ : Type} {I : κ → Session → Prop} {E : κ → Obstacle → Session → Prop}

/-! ## Runs in parts -/

/-- A result of a run is one of the session. -/
theorem onWorld_pure (a : α) : onWorld (pure a) = pure a := rfl

/-- A run may be done in parts. -/
theorem onWorld_bind (x : Run α) (f : α → Run β) :
    onWorld (x >>= f) = onWorld x >>= fun a => onWorld (f a) := by
  funext s
  cases hx : x s.world with
  | ok a w =>
    have first : onWorld x s = .ok a { s with world := w } := by rw [onWorld, hx]
    rw [bind_ok first, onWorld, onWorld, bind_ok hx]
  | error stop w =>
    have first : onWorld x s = .error (obstacle stop) { s with world := w } := by rw [onWorld, hx]
    rw [bind_error first, onWorld, bind_error hx]

/-- What a run does for each item is done item by item. -/
theorem onWorld_mapM (f : α → Run β) (as : List α) :
    onWorld (as.mapM f) = as.mapM fun a => onWorld (f a) := by
  induction as with
  | nil => rfl
  | cons a as ih => simp only [List.mapM_cons, onWorld_bind, onWorld_pure, ih]

/-- What a run does for an item, if there is one. -/
theorem onWorld_optionMapM (f : α → Run β) (a : Option α) :
    onWorld (a.mapM f) = a.mapM fun a => onWorld (f a) := by
  cases a with
  | none => rfl
  | some a =>
    show onWorld (f a >>= fun b => pure (some b)) = _
    rw [onWorld_bind]
    rfl

/-- Reading the document leaves everything as it is. -/
theorem preserves_document : Preserves I E document := Preserves.get.bind fun _ => .pure _

/-! ## Asking -/

/-- What `I` says of a session allows a step to find nothing by a name or a way, and to ask for instances
and definitions. -/
structure Asks (I : κ → Session → Prop) (E : κ → Obstacle → Session → Prop) : Prop where
  unknown {k : κ} {s : Session} (name : String) : I k s → E k (.unknownName name) s
  noNode {k : κ} {s : Session} : I k s → E k .noNode s
  look (i : InstanceId) : Preserves I E (onWorld (Run.look i))
  definition (lib : Library) (id : DefinitionId) : Preserves I E (onWorld (lib.definition id))

namespace Asks

variable (h : Asks I E)

include h

/-- A name may be looked up. -/
theorem named (table : Session → NameTable α) (name : String) :
    Preserves I E (named table name) := by
  unfold Work.named
  refine Preserves.get.bind fun s => ?_
  split
  · exact .pure _
  · exact .throw fun _ _ => h.unknown name

/-- The root of an instance may be asked for. -/
theorem rootOf (i : InstanceId) : Preserves I E (onWorld (Run.rootOf i)) := by
  unfold Run.rootOf
  rw [onWorld_bind]
  exact (h.look i).bind fun _ => .pure _

/-- A named instance may be looked at. -/
theorem instanceOf (name : String) : Preserves I E (instanceOf name) :=
  (h.named _ name).bind fun i => (h.look i).bind fun _ => .pure _

/-- A way to a node may lead nowhere. -/
theorem found (i : Option NodeId) : Preserves I E (found i) := by
  cases i with
  | none => exact .throw fun _ _ => h.noNode
  | some i => exact .pure _

/-- A reference to a node may be followed, whether it leads anywhere or not. -/
theorem node (r : NodeRef) : Preserves I E (node r) := by
  have missing : Preserves I E (throw Obstacle.noNode : Work NodeId) := .throw fun _ _ => h.noNode
  induction r with
  | named name => exact Preserves.get.bind fun s => h.found _
  | root owner =>
    unfold Work.node
    refine Preserves.get.bind fun s => ?_
    split
    · exact h.rootOf _
    · exact missing
  | reference owner name =>
    unfold Work.node
    refine Preserves.get.bind fun s => ?_
    split
    · exact (h.look _).bind fun _ => Preserves.get.bind fun s =>
        (h.definition _ _).bind fun _ => h.found _
    · exact missing
  | slot owner slot =>
    unfold Work.node
    refine Preserves.get.bind fun s => ?_
    split
    · exact (h.look _).bind fun _ => h.found _
    · exact missing
  | descendant top way ih => exact ih.bind fun _ => preserves_document.bind fun _ => h.found _

/-- A reference to a node may be left out. -/
theorem maybeNode (r : Option NodeRef) : Preserves I E (maybeNode r) := by
  cases r with
  | none => exact .pure _
  | some r => exact (h.node r).bind fun _ => .pure _

/-- What can be seen of an instance may be asked for. -/
theorem view (lib : Library) (inst : Instance) : Preserves I E (onWorld (inst.view lib)) := by
  unfold Instance.view
  simp only [onWorld_bind, onWorld_mapM, onWorld_pure]
  exact (h.definition _ _).bind fun _ => (Preserves.mapM (fun child => (h.look child).bind fun _ =>
    (h.definition _ _).bind fun _ => .pure _) _).bind fun _ => .pure _

/-- What can be seen of a repeater may be asked for. -/
theorem viewRepeater (r : Repeater) : Preserves I E (onWorld r.view) := by
  cases r with
  | sequential r | keyed r =>
    unfold Repeater.view
    simp only [onWorld_bind, onWorld_mapM, onWorld_optionMapM, onWorld_pure]
    exact (Preserves.optionMapM h.rootOf _).bind fun _ => (Preserves.mapM h.rootOf _).bind fun _ =>
      .pure _

/-- What can be seen of a named repeater may be asked for. -/
theorem viewNamedRepeater (target : String) : Preserves I E (RepeaterStep.perform.view target) :=
  (h.named _ target).bind fun r => (h.viewRepeater r).bind fun _ => .pure _

/-- What can be seen of a named observable may be asked for. -/
theorem viewObservable (source : String) : Preserves I E (ObservableStep.perform.view source) :=
  (h.named _ source).bind fun _ => Preserves.get.bind fun _ => .pure _

end Asks

/-- What only looks at the world leaves the session as it is. -/
theorem onWorld_looks {x : Run α} (h : ∀ w, Ends (w = ·) x (fun _ => (w = ·)) fun _ => (w = ·)) :
    Preserves (fun s : Session => (s = ·)) (fun s _ => (s = ·)) (onWorld x) := by
  rintro s _ rfl
  have := h s.world s.world rfl
  unfold onWorld
  cases hx : x s.world with
  | ok a w | error stop w =>
    rw [hx] at this
    exact congrArg (fun world => { s with world }) this

/-- Asking leaves the session as it is. -/
theorem asks_eq : Asks (fun s : Session => (s = ·)) fun s _ => (s = ·) where
  unknown _ h := h
  noNode h := h
  look _ := onWorld_looks fun w =>
    (Ends.look (P := (w = ·)) (fun _ h => h) fun _ h => h).post fun _ _ h => h.2.2
  definition _ _ := onWorld_looks fun w =>
    (Ends.definition (P := (w = ·)) fun _ h => h).post fun _ _ h => h.2

/-! ## Naming -/

/-- What `I` says of a session allows a step also to give names, and to change the document without
listening to anything new but a probe. -/
structure Permits (I : κ → Session → Prop) (E : κ → Obstacle → Session → Prop) : Prop
    extends Asks I E where
  names {k : κ} {s later : Session} : I k s → later.library = s.library → later.world = s.world →
    later.repeaters = s.repeaters → I k later
  edit {k : κ} {s : Session} {d : Document Listener} : I k s → Document.Hushed s.world.document d →
    I k { s with world := { s.world with document := d } }
  probe {k : κ} {s : Session} (i : NodeId) (event : String) (tag : Value) : I k s →
    I k { s with world :=
      { s.world with document := s.world.document.listen i event (.probe tag) } }

namespace Permits

variable (h : Permits I E)

include h

/-- Names may be given and taken. -/
theorem rename {f : Session → Session} (same : ∀ s, (f s).library = s.library ∧
    (f s).world = s.world ∧ (f s).repeaters = s.repeaters) : Preserves I E (modify f) :=
  .modify fun _ s hs => h.names hs (same s).1 (same s).2.1 (same s).2.2

/-- An instance may be given a name. -/
theorem nameInstance (name : String) (i : InstanceId) : Preserves I E (nameInstance name i) :=
  (h.rootOf i).bind fun _ => (h.rename (by exact fun _ => ⟨rfl, rfl, rfl⟩)).bind fun _ => .pure _

/-- A node may be given a name. -/
theorem nameNode (name : String) (i : NodeId) : Preserves I E (nameNode name i) :=
  h.rename (by exact fun _ => ⟨rfl, rfl, rfl⟩)

/-- The document may be changed as long as nobody comes to be listened to. -/
theorem onDocument {f : Document Listener → Document Listener}
    (hushed : ∀ d, Document.Hushed d (f d)) : Preserves I E (onDocument f) :=
  fun _ _ hs => h.edit hs (hushed _)

/-- Nodes may be made. -/
theorem newNode (name : String) {f : Document Listener → Document Listener × NodeId}
    (hushed : ∀ d, Document.Hushed d (f d).1) : Preserves I E (newNode name f) :=
  Preserves.bind (fun _ _ hs => h.edit hs (hushed _)) fun i => (h.nameNode name i).bind fun _ =>
    .pure _

/-! ## Steps -/

/-- A step on a node does what it permits, and may dispatch an event. -/
theorem performNode {engine : Engine} (dispatch : ∀ i event value,
    Preserves I E (onWorld (Run.dispatch engine i event value))) (step : NodeStep) :
    Preserves I E (step.perform engine) := by
  cases step with
  | createElement name tag => exact h.newNode name fun d => .allocate d _ _
  | createText name content => exact h.newNode name fun d => .allocate d _ _
  | instantiate name markup => exact h.newNode name fun d => .instantiate markup d
  | html markup => exact .pure _
  | label name ref => exact (h.node ref).bind fun i => (h.nameNode name i).bind fun _ => .pure _
  | release ref => exact (h.node ref).bind fun i => (h.onDocument (.release · i)).bind fun _ => .pure _
  | detach ref => exact (h.node ref).bind fun i => (h.onDocument (.detach · i)).bind fun _ => .pure _
  | setAttribute ref name value =>
    exact (h.node ref).bind fun i => (h.onDocument (.setAttribute · i name value)).bind fun _ => .pure _
  | setStyle ref property value =>
    exact (h.node ref).bind fun i => (h.onDocument (.setAttribute · i _ _)).bind fun _ => .pure _
  | setText ref content =>
    exact (h.node ref).bind fun i => (h.onDocument (.setText · i content)).bind fun _ => .pure _
  | listen ref event tag =>
    have probe (i : NodeId) : Preserves I E (Work.onDocument (·.listen i event (.probe tag))) :=
      fun _ _ hs => h.probe i event tag hs
    exact (h.node ref).bind fun i => (probe i).bind fun _ => .pure _
  | describe | childAt | getAttribute =>
    exact (h.node _).bind fun _ => preserves_document.bind fun _ => .pure _
  | insertBefore parent ref reference =>
    exact (h.node parent).bind fun p => (h.node ref).bind fun i => (h.maybeNode reference).bind fun r =>
      (h.onDocument (.insertBefore · p i r)).bind fun _ => .pure _
  | append parent ref =>
    exact (h.node parent).bind fun p => (h.node ref).bind fun i =>
      (h.onDocument (.insertBefore · p i none)).bind fun _ => .pure _
  | remove parent ref =>
    exact (h.node parent).bind fun p => (h.node ref).bind fun i =>
      (h.onDocument (.remove · p i)).bind fun _ => .pure _
  | replace old ref =>
    exact (h.node old).bind fun o => (h.node ref).bind fun i =>
      (h.onDocument (.replace · o i)).bind fun _ => .pure _
  | setClass ref name on =>
    exact (h.node ref).bind fun i => (h.onDocument (.setClass · i name on)).bind fun _ =>
      preserves_document.bind fun _ => .pure _
  | dispatch ref event value =>
    exact (h.node ref).bind fun i => (dispatch i event value).bind fun _ => .pure _

/-- A step on the document as a whole closes mounts and, to reset it, forgets all names. -/
theorem performDocument (close : ∀ m : HeldMount, Preserves I E m.close)
    (forget : ∀ k s, I k s → I k { library := s.library, world := s.world }) (step : DocumentStep) :
    Preserves I E step.perform := by
  cases step with
  | structural => exact preserves_document.bind fun _ => .pure _
  | resetTally =>
    have reset : Preserves I E (Work.onDocument (·.resetTally)) :=
      h.onDocument fun _ _ => List.Subset.refl _
    exact reset.bind fun _ => .pure _
  | reset =>
    exact Preserves.get.bind fun _ => (Preserves.forM fun _ _ => close _).bind fun _ =>
      (h.onDocument fun _ _ => List.nil_subset _).bind fun _ => (Preserves.modify forget).bind
        fun _ => .pure _

/-- A step on a tracker moves a node in the document that it has just read. -/
theorem performTracker (step : TrackerStep) : Preserves I E step.perform := by
  cases step with
  | create => exact (h.rename (by exact fun _ => ⟨rfl, rfl, rfl⟩)).bind fun _ => .pure _
  | offset target position => exact (h.named _ target).bind fun _ => .pure _
  | apply target position parent ref visible =>
    refine (h.named _ target).bind fun t => (h.node parent).bind fun p => (h.node ref).bind fun i k => ?_
    have read : Ends (I k) Work.document (fun d s => d = s.world.document ∧ I k s) (E k) :=
      Ends.get.bind fun s => .pure (by rintro _ ⟨rfl, hs⟩; exact ⟨rfl, hs⟩)
    refine read.bind fun d => ?_
    have moved : Ends (fun s => d = s.world.document ∧ I k s)
        (Work.onDocument fun _ => (t.apply d position p i visible).2.1) (fun _ => I k) (E k) := by
      rintro s ⟨rfl, hs⟩
      exact h.edit hs (t.apply_hushed s.world.document position p i visible)
    have noted := h.rename (f := fun s =>
      { s with trackers := s.trackers.set target (t.apply d position p i visible).1 })
      (by exact fun _ => ⟨rfl, rfl, rfl⟩)
    exact moved.bind fun _ => (noted k).bind fun _ => .pure fun _ hs => hs

/-- A row may be taken out of a named repeater by name. -/
theorem takeRow {engine : Engine} (target : String) (position : Nat) (key : Value) (name : String) :
    Preserves I E ((RepeaterStep.take target position key name).perform engine) := by
  refine (h.named _ target).bind fun r => ?_
  dsimp only
  split
  · exact (h.nameInstance name _).bind fun _ => .pure _
  · exact .pure _

end Permits

/-- What `I` says of a session allows also all that an engine does for instances. -/
structure Engages (engine : Engine) (I : κ → Session → Prop) (E : κ → Obstacle → Session → Prop) :
    Prop extends Permits I E where
  construct : ∀ id props controller,
    Preserves I E (onWorld (Run.construct engine id props controller))
  acquire : ∀ id share props controller,
    Preserves I E (onWorld (Run.acquire engine id share props controller))
  render : ∀ i props controller,
    Preserves I E (onWorld (Run.hold i (Instance.render engine props controller)))
  update : ∀ i, Preserves I E (onWorld (Run.hold i (Instance.update engine)))
  updateWindow : ∀ i start stop,
    Preserves I E (onWorld (Run.hold i (Instance.updateWindow engine start stop)))
  updatePart : ∀ i name, Preserves I E (onWorld (Run.hold i (Instance.updatePart engine name)))
  setState : ∀ i value, Preserves I E
    (onWorld (Run.hold i (Holding.change fun inst => { inst with state := value })))
  writeState : ∀ i path value, Preserves I E (onWorld (Run.hold i (Handler.writeState path value)))
  retire : ∀ mode i, Preserves I E (onWorld (Run.retire mode i))

/-- A step on an instance does what it permits, and what the engine does for instances. -/
theorem Engages.performInstance {engine : Engine} (h : Engages engine I E) (step : InstanceStep) :
    Preserves I E (step.perform engine) := by
  have p := h.toPermits
  cases step with
  | construct name definition props controller =>
    exact (h.construct definition props controller).bind fun i => (p.nameInstance name i).bind
      fun _ => .pure _
  | acquire name definition share props controller =>
    exact (h.acquire definition share props controller).bind fun i => (p.nameInstance name i).bind
      fun _ => .pure _
  | render target props controller =>
    exact Preserves.bind ((p.named _ target).bind fun i => h.render i props controller)
      fun _ => .pure _
  | update target =>
    exact Preserves.bind ((p.named _ target).bind h.update) fun _ => .pure _
  | updateWindow target start stop =>
    exact Preserves.bind ((p.named _ target).bind fun i => h.updateWindow i start stop)
      fun _ => .pure _
  | updatePart target part =>
    exact Preserves.bind ((p.named _ target).bind fun i => h.updatePart i part) fun _ => .pure _
  | dismount target | destroy target =>
    exact (p.named _ target).bind fun i => (h.retire _ i).bind fun _ => .pure _
  | forget target => exact (p.rename (by exact fun _ => ⟨rfl, rfl, rfl⟩)).bind fun _ => .pure _
  | setState target value =>
    exact Preserves.bind ((p.named _ target).bind fun i => h.setState i value) fun _ => .pure _
  | writeState target path value =>
    exact Preserves.bind ((p.named _ target).bind fun i => h.writeState i path value)
      fun _ => .pure _
  | describe target =>
    exact (p.instanceOf target).bind fun inst => (p.view _ inst.2).bind fun _ => .pure _
  | child target position name =>
    refine (p.instanceOf target).bind fun inst => ?_
    dsimp only
    split
    · exact (p.nameInstance name _).bind fun _ => .pure _
    · exact .pure _
  | element target slot => exact (p.instanceOf target).bind fun inst => .pure _
  | reference target name =>
    exact (p.instanceOf target).bind fun inst => (p.definition _ _).bind fun _ => .pure _

end Work

end ComponentView
