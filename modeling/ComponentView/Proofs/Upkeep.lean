import ComponentView.Proofs.Containers.Events
import ComponentView.Proofs.Ownership.Session

/-! # Upkeep

Upkeep is what a session does with its instances short of destroying them by name: it makes them,
renders and updates them, writes their states, puts them out of the document, and raises events, which
handlers hear and answer with more of the same (`Step.Upkeep`). Instances stay what they were made as
throughout (`Session.Upkept.lasts`), and outside them nobody but the names of the session has them in use
(`Session.Upkept.secluded`). -/

namespace ComponentView

/-- The step makes an instance, renders or updates one, changes the state of one, puts one out of the
document, forgets the name of one, or raises an event on a node. -/
def Step.Upkeep : Step → Prop
  | .onInstance step => match step with
    | .construct .. | .acquire .. | .render .. | .update _ | .updateWindow .. | .updatePart ..
    | .dismount _ | .setState .. | .writeState .. | .forget _ => True
    | _ => False
  | .onNode (.dispatch ..) => True
  | _ => False

/-- A component whose effects work in place raises no events and publishes nothing. -/
theorem Node.InPlace.silent {root : Node} (h : root.InPlace) : root.Silent := fun e he d hd => by
  have inPlace := h e he d hd
  generalize d.effect = f at inPlace
  cases f <;> trivial

/-- Neither does a library of such components. -/
theorem Library.silent_of_inPlace {declarations : List Declaration} {library : Traced Library}
    (h : define declarations = .ok library)
    (roots : ∀ d ∈ declarations, d.Roots fun node => node.InPlace ∧ node.WritesLeaves) :
    library.value.Silent :=
  silent_of_define h fun d hd => (roots d hd).imp fun _ good => good.1.silent

namespace Session

/-- The second session comes of the first by such steps, some of which may have failed. -/
inductive Upkept (s : Session) : Session → Prop where
  | refl : Upkept s s
  | step {later latest : Session} {step : Step} {report : Report} (before : Upkept s later)
    (upkeep : step.Upkeep) (run : later.step step = .ok (report, latest)) : Upkept s latest

/-- The instance goes by a name, or one that is there holds it. -/
inductive Has (s : Session) : InstanceId → Prop where
  | named {name : String} {i : InstanceId} (named : s.instances.get? name = some i) : Has s i
  | held {i k : InstanceId} {inst : Instance} (holder : Has s i)
    (get : s.world.instances[i]? = some inst) (held : k ∈ inst.held) : Has s k

/-! ## What lasts -/

/-- The library, the repeaters and the mounts of the session stay; and its world lasts if nothing is
published, whoever is kept from outside. -/
structure Lasts (s later : Session) : Prop where
  library : later.library = s.library
  repeaters : later.repeaters = s.repeaters
  mounts : later.mounts = s.mounts
  world : s.world.published = [] → ∀ kept, World.Lasts { s.world with kept } { later.world with kept }

/-- Only the library, the repeaters, the mounts, the instances, the observables, who is held and the
newcomers matter. -/
theorem Lasts.of_eq {s later : Session} (library : later.library = s.library)
    (repeaters : later.repeaters = s.repeaters) (mounts : later.mounts = s.mounts)
    (instances : later.world.instances = s.world.instances)
    (reactive : later.world.reactive = s.world.reactive) (busy : later.world.busy = s.world.busy)
    (newcomers : later.world.newcomers = s.world.newcomers) : s.Lasts later :=
  ⟨library, repeaters, mounts, fun _ kept =>
    .of_eq instances reactive busy (congrArg (Prod.mk kept) newcomers)⟩

instance : IsPreorder Session Lasts where
  refl _ := .of_eq rfl rfl rfl rfl rfl rfl rfl
  trans _ _ _ h h' := by
    refine ⟨h'.library.trans h.library, h'.repeaters.trans h.repeaters, h'.mounts.trans h.mounts,
      fun none kept => (h.world none kept).trans (h'.world ?_ kept)⟩
    have reactive := (h.world none kept).reactive
    simp only [World.reactive, Prod.mk.injEq] at reactive
    exact reactive.2.2.2.2.trans none

/-- Nobody has instances in use from outside but by the names of the session. -/
structure Secluded (s : Session) : Prop where
  published : s.world.published = []
  newcomers : s.world.newcomers = []
  repeaters : s.repeaters = []
  mounts : s.mounts = []

variable {s later : Session}

/-- At its start a session is secluded. -/
theorem secluded_start (library : Traced Library) : (start library).Secluded := ⟨rfl, rfl, rfl, rfl⟩

/-- A session that lasts is secluded as it was. -/
theorem Secluded.lasts (h : s.Secluded) (lasts : s.Lasts later) : later.Secluded := by
  have world := lasts.world h.published []
  have reactive := world.reactive
  have guests := world.guests
  simp only [World.reactive, World.guests, Prod.mk.injEq] at reactive guests
  exact ⟨reactive.2.2.2.2.trans h.published, guests.2.trans h.newcomers,
    lasts.repeaters.trans h.repeaters, lasts.mounts.trans h.mounts⟩

/-- In a secluded session only named instances are kept. -/
theorem Secluded.kept (h : s.Secluded) : s.kept = s.instances.map (·.2) := by
  rw [Session.kept, h.repeaters, h.mounts, List.flatMap_nil, List.map_nil, List.append_nil,
    List.append_nil]

end Session

/-! ## Steps -/

namespace Work

variable {α : Type}

/-- A session lasts where its world hears. -/
theorem onWorld_hears {x : Run α}
    (h : ∀ w, w.published = [] → Ends (w = ·) x (fun _ => w.Lasts) fun _ => w.Lasts) :
    Lasting Session.Lasts (onWorld x) := by
  rintro s _ rfl
  unfold onWorld
  cases hx : x s.world with
  | ok a later =>
    exact ⟨rfl, rfl, rfl, fun none kept => ((h s.world none).of_ok rfl hx).keep kept⟩
  | error stop later =>
    exact ⟨rfl, rfl, rfl, fun none kept => ((h s.world none).of_error rfl hx).keep kept⟩

/-- A session lasts where its world does. -/
theorem onWorld_lasts {x : Run α} (h : Run.Lasts x) : Lasting Session.Lasts (onWorld x) :=
  onWorld_hears fun w _ => h w

/-- Looking up a name leaves the session as it is. -/
theorem named_lasts {β : Type} (table : Session → NameTable β) (name : String) :
    Lasting Session.Lasts (named table name) := fun s =>
  (asks_eq.named table name s).mono (fun _ h => h) (by rintro _ _ rfl; exact refl s)
    (by rintro _ _ rfl; exact refl s)

/-- A session lasts where a held instance stays as it was made. -/
theorem holding_lasts {name : String} {x : Holding Instance α}
    (h : Holding.Lasts Instance.make x) : Lasting Session.Lasts (holding name x) :=
  (named_lasts _ _).bind fun _ => onWorld_lasts (.hold h)

/-- A session lasts when an instance gets a name. -/
theorem nameInstance_lasts (name : String) (i : InstanceId) :
    Lasting Session.Lasts (nameInstance name i) :=
  (onWorld_lasts (.rootOf i)).bind fun _ =>
    (Lasting.modify fun _ => .of_eq rfl rfl rfl rfl rfl rfl rfl).bind fun _ => .pure _

end Work

section Steps

variable {engine : Engine} {lib : Library} (lasts : engine.Lasts lib) (silent : lib.Silent)

open Work

include lasts silent

/-- Upkeep of instances leaves the session of a silent library lasting. -/
theorem InstanceStep.perform_lasts {step : InstanceStep} (upkeep : Step.Upkeep (.onInstance step)) :
    Lasting Session.Lasts (step.perform engine) := by
  cases step with
  | construct name definition props controller =>
    exact (onWorld_lasts (.construct lasts silent _ _ _)).bind fun i =>
      (nameInstance_lasts name i).bind fun _ => .pure _
  | acquire name definition share props controller =>
    exact (onWorld_lasts (.acquire lasts silent _ _ _ _)).bind fun i =>
      (nameInstance_lasts name i).bind fun _ => .pure _
  | render target props controller =>
    exact (holding_lasts (Instance.render_lasts lasts silent _ _)).bind fun _ => .pure _
  | update target =>
    exact (holding_lasts ((Instance.update_lasts lasts silent).part Prod.fst)).bind fun _ => .pure _
  | updateWindow target start stop =>
    exact (holding_lasts ((Instance.updateWindow_lasts lasts silent _ _).part Prod.fst)).bind
      fun _ => .pure _
  | updatePart target part =>
    exact (holding_lasts ((Instance.updatePart_lasts lasts silent _).part Prod.fst)).bind
      fun _ => .pure _
  | dismount target =>
    exact (named_lasts _ _).bind fun i => (onWorld_lasts (.retire _ i)).bind fun _ => .pure _
  | forget target =>
    exact (Lasting.modify fun _ => .of_eq rfl rfl rfl rfl rfl rfl rfl).bind fun _ => .pure _
  | setState target value =>
    refine (holding_lasts ?_).bind fun _ => .pure _
    exact .change fun _ => rfl
  | writeState target path value =>
    exact (holding_lasts (Handler.writeState_lasts path value)).bind fun _ => .pure _
  | _ => exact upkeep.elim

/-- So does raising an event. -/
theorem NodeStep.dispatch_lasts (hears : engine.Hears) (ref : NodeRef) (event : String)
    (value : Value) : Lasting Session.Lasts ((NodeStep.dispatch ref event value).perform engine) := by
  have followed : Lasting Session.Lasts (node ref) := fun s =>
    (asks_eq.node ref s).mono (fun _ h => h) (by rintro _ _ rfl; exact refl s)
      (by rintro _ _ rfl; exact refl s)
  refine followed.bind fun i => (onWorld_hears fun w none => ?_).bind fun _ => .pure _
  exact (Run.dispatch_hears lasts silent hears i event value w).mono (fun _ h => h)
    (fun _ _ h => (h none).toLasts) fun _ _ h => (h none).toLasts

end Steps

namespace Session

variable {s later : Session}

/-- A step that is upkeep leaves the session of a silent library lasting. -/
theorem Lasts.step {latest : Session} {step : Step} {report : Report} (upkeep : step.Upkeep)
    (silent : later.library.Silent) (run : later.step step = .ok (report, latest)) :
    later.Lasts latest := by
  have lasts := Engine.nested_lasts silent Engine.depthLimit
  have ends : Ends (later.keepNamed = ·) (step.perform later.engine)
      (fun _ => later.keepNamed.Lasts) fun _ => later.keepNamed.Lasts := by
    cases step with
    | onInstance step => exact step.perform_lasts lasts silent upkeep _
    | onNode step =>
      cases step with
      | dispatch ref event value =>
        exact NodeStep.dispatch_lasts lasts silent (Engine.nested_hears silent Engine.depthLimit)
          ref event value _
      | _ => exact upkeep.elim
    | _ => exact upkeep.elim
  -- Whom the names keep is noted before, and the journal is read after.
  have noted : later.Lasts later.keepNamed := .of_eq rfl rfl rfl rfl rfl rfl rfl
  have read (after : Session) :
      after.Lasts { after with world := { after.world with journal := [] } } :=
    .of_eq rfl rfl rfl rfl rfl rfl rfl
  obtain ⟨after, rfl, ⟨reply, -, hx⟩ | ⟨refusal, o, -, -, hx⟩⟩ := of_step run
  · exact IsTrans.trans _ _ _ noted (IsTrans.trans _ _ _ (ends.of_ok rfl hx) (read after))
  · exact IsTrans.trans _ _ _ noted (IsTrans.trans _ _ _ (ends.of_error rfl hx) (read after))

/-- Whatever upkeep follows, the session of a silent library lasts. -/
theorem Upkept.lasts (h : s.Upkept later) (silent : s.library.Silent) : s.Lasts later := by
  induction h with
  | refl => exact .of_eq rfl rfl rfl rfl rfl rfl rfl
  | @step later latest _ _ _ upkeep run ih =>
    exact IsTrans.trans s later latest ih (.step upkeep (ih.library ▸ silent) run)

/-- A session of a silent library that has come about by upkeep is secluded. -/
theorem Upkept.secluded {library : Traced Library} (h : (start library).Upkept s)
    (silent : library.value.Silent) : s.Secluded := (secluded_start library).lasts (h.lasts silent)

/-- A session that is upkept is so after another step. -/
theorem Upkept.after (h : s.Upkept later) (step : Step) (upkeep : step.Upkeep) :
    s.Upkept (later.after step) := by
  unfold Session.after
  cases hs : later.step step with
  | ok r => exact h.step upkeep hs
  | error e => exact h

end Session

end ComponentView
