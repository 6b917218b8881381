import ComponentView.Proofs.Containers
import ComponentView.Proofs.Throughout
import ComponentView.Proofs.Tight.Engine

/-! # Nothing that a template promises is missing

The numbers in a template were handed out while its component was walked, some long before what they
stand for was known, and every update looks them up again in an instance that has been patched ever
since. They always lead where they should: all templates of a library are tight, every instance of
every session follows its template, and no step of any session stops because a slot is missing or an
entry of a stash is not of the kind that was asked for (`Session.tight_of_define`). -/

namespace ComponentView

/-! ## Sessions -/

/-- A step stopped over something that a template promises. -/
def Obstacle.Misfit : Obstacle → Prop
  | .fault (.stashMismatch ..) | .abort (.noSlot _) => True
  | _ => False

/-- A misfit stays one when it becomes an obstacle. -/
@[simp] theorem Work.misfit_obstacle (stop : Stop) : (obstacle stop).Misfit ↔ stop.Misfit := by
  cases stop with
  | fault cause => cases cause <;> rfl
  | abort cause => cases cause <;> rfl

namespace Session

/-- The session works with a library, and its instances follow their templates. -/
structure Tight (lib : Library) (s : Session) : Prop where
  library : s.library = lib
  world : s.world.Tight lib []

/-- The second session comes of the first by steps, some of which may have failed. -/
inductive ComesTo (s : Session) : Session → Prop where
  | refl : ComesTo s s
  | step {later latest : Session} {step : Step} {report : Report} (before : ComesTo s later)
    (run : later.step step = .ok (report, latest)) : ComesTo s latest

variable {lib : Library} {s later : Session}

/-- Only the library, the instances, the number of pools and the list of held instances matter. -/
theorem Tight.congr (h : s.Tight lib) (library : later.library = s.library)
    (instances : later.world.instances = s.world.instances)
    (pools : later.world.pools.size = s.world.pools.size)
    (busy : later.world.busy = s.world.busy) : later.Tight lib :=
  ⟨library.trans h.library, h.world.congr instances pools busy⟩

/-- Before the first step there are no instances. -/
theorem tight_start (library : Traced Library) : (start library).Tight library.value where
  library := rfl
  world :=
    { busy_eq := rfl
      pools := Array.size_replicate
      follows := fun hi _ => nomatch hi }

end Session

/-! ## Computations over a session -/

/-- A step stopped over no misfit, and left the session tight unless it was given up. -/
def Session.Fitting (lib : Library) (o : Obstacle) (s : Session) : Prop :=
  ¬ o.Misfit ∧ ((∀ cause, o ≠ .abort cause) → s.Tight lib)

/-- The computation stops over no misfit, and leaves the session tight; of a run that was given up
nothing more is said. -/
def Work.Safe {α : Type} (lib : Library) (x : Work α) : Prop :=
  Preserves (fun _ : Unit => Session.Tight lib) (fun _ => Session.Fitting lib) x

namespace Work.Safe

variable {α β : Type} {lib : Library}

/-- Only the library, the instances, the number of pools and the list of held instances matter. -/
theorem modify {f : Session → Session} (h : ∀ s, (f s).library = s.library ∧
    (f s).world.instances = s.world.instances ∧ (f s).world.pools.size = s.world.pools.size ∧
    (f s).world.busy = s.world.busy) : Safe lib (modify f) :=
  Preserves.modify fun _ s hs => hs.congr (h s).1 (h s).2.1 (h s).2.2.1 (h s).2.2.2

/-- What comes of a stop over no misfit. -/
theorem of_stop {stop : Stop} {w : World} {s : Session} (h : Safely (World.Tight lib []) stop w)
    (library : s.library = lib) (world : s.world = w) : s.Fitting lib (obstacle stop) := by
  refine ⟨fun hm => h.1 ((misfit_obstacle stop).mp hm), fun given => ⟨library, world ▸ ?_⟩⟩
  cases stop with
  | fault cause => exact h.2 cause rfl
  | abort cause => exact absurd rfl (given cause)

/-- What is safe over the world is safe over a session. -/
theorem onWorld {x : Run α} (h : Run.Safe lib x) : Safe lib (onWorld x) := by
  rintro - s ⟨library, tight⟩
  have run := h [] s.world tight
  unfold Work.onWorld
  cases hx : x s.world with
  | ok a w =>
    rw [hx] at run
    exact ⟨library, run⟩
  | error stop w =>
    rw [hx] at run
    exact of_stop run library rfl

/-- A repeater beside the world is patched; whatever it has become, it is kept. -/
theorem beside {good : α → Prop} {a : α} {x : Holding α β} {keep : α → Session → Session}
    (h : Holding.Safe lib good x) (ha : good a) (same : ∀ a s, (keep a s).library = s.library ∧
      (keep a s).world = s.world) : Safe lib (beside a x keep : Work β) := by
  rintro - s ⟨library, tight⟩
  have run := h [] ⟨a, s.world⟩ ⟨ha, tight⟩
  unfold Work.beside
  cases hx : x ⟨a, s.world⟩ with
  | ok b f =>
    rw [hx] at run
    exact ⟨(same _ _).1.trans library, by rw [(same _ _).2]; exact run.2⟩
  | error stop f =>
    rw [hx] at run
    exact of_stop (w := f.world) ⟨run.1, run.2.mono fun h => h.2⟩ ((same _ _).1.trans library)
      (same _ _).2

/-- A tight session permits what every step does. -/
theorem permits : Permits (fun _ : Unit => Session.Tight lib) (fun _ => Session.Fitting lib) where
  unknown _ hs := ⟨fun h => h, fun _ => hs⟩
  noNode hs := ⟨fun h => h, fun _ => hs⟩
  look i := onWorld (.look i)
  definition other id := onWorld (.definition other id)
  names hs library world _ := hs.congr library (by rw [world]) (by rw [world]) (by rw [world])
  edit hs _ := hs.congr rfl rfl rfl rfl
  probe _ _ _ hs := hs.congr rfl rfl rfl rfl

/-- Ending a mount is safe. -/
theorem close (h : HeldMount) : Safe lib h.close := by
  unfold HeldMount.close
  split
  · refine onWorld (.modify fun w => ?_)
    split <;> exact ⟨rfl, rfl, rfl⟩
  · exact .pure _

end Work.Safe

/-! ## Steps -/

/-- Clearing a pool destroys the spare instances of a definition. -/
theorem Run.Safe.clearPool {lib : Library} (id : DefinitionId) : Safe lib (clearPool id) := by
  unfold Run.clearPool
  refine Preserves.get.bind fun w =>
    Preserves.bind (fun _ => .modify fun w h => h.setPool id []) fun _ => ?_
  exact Run.Sure.safe (.forM fun i _ => Run.Sure.retire .destroy i)

section Steps

variable {lib : Library} {engine : Engine} (safe : engine.Safe lib) (tight : lib.Tight)

open Work.Safe

include safe tight in
/-- A tight session permits all that a safe engine does for instances. -/
theorem Work.Safe.engages :
    Engages engine (fun _ : Unit => Session.Tight lib) (fun _ => Session.Fitting lib) where
  toPermits := permits
  construct id props controller := onWorld (.construct safe tight id props controller)
  acquire id share props controller := onWorld (.acquire safe tight id share props controller)
  render _ props controller := onWorld (.hold (Instance.render_safe safe tight props controller))
  update _ := onWorld (.hold (Instance.update_safe safe tight))
  updateWindow _ start stop := onWorld (.hold (Instance.updateWindow_safe safe tight start stop))
  updatePart _ name := onWorld (.hold (Instance.updatePart_safe safe tight name))
  setState _ _ := onWorld (.hold (.change fun _ follows => follows))
  writeState _ path value := onWorld (.hold (Handler.writeState_safe path value))
  retire mode i := onWorld (Run.Sure.retire mode i).safe

/-- Steps on pools are safe, also those by hand. -/
theorem PoolStep.perform_safe (step : PoolStep) : Work.Safe lib step.perform := by
  cases step with
  | size definition => exact Preserves.get.bind fun _ => .pure _
  | release definition target =>
    exact (permits.named _ target).bind fun i =>
      (onWorld (Retire.giveBack_sure .retire definition i).safe).bind fun _ => .pure _
  | clear definition => exact (onWorld (.clearPool definition)).bind fun _ => .pure _

include safe in
/-- A repeater on its own may be anything. -/
theorem RepeaterStep.perform_safe (step : RepeaterStep) : Work.Safe lib (step.perform engine) := by
  have view (target : String) : Work.Safe lib (perform.view target) :=
    permits.viewNamedRepeater target
  cases step with
  | create name r => exact (modify (by exact fun _ => ⟨rfl, rfl, rfl, rfl⟩)).bind fun _ => .pure _
  | patch target container items anchor controller =>
    refine (permits.node container).bind fun container => (permits.maybeNode anchor).bind fun anchor =>
      (permits.named _ target).bind fun r => ?_
    cases r with
    | sequential r =>
      exact Preserves.bind (beside
        (Sequential.patch_safe safe controller False [] container anchor items) nofun
        fun _ _ => ⟨rfl, rfl⟩) fun _ => view target
    | keyed r =>
      exact Preserves.bind (beside
        (Keyed.patch_safe safe controller False [] container anchor items) nofun
        fun _ _ => ⟨rfl, rfl⟩) fun _ => view target
  | describe target => exact view target
  | take target position key name => exact permits.takeRow target position key name

include safe in
/-- Steps on observables are safe. -/
theorem ObservableStep.perform_safe (step : ObservableStep) :
    Work.Safe lib (step.perform engine) := by
  have view (source : String) : Work.Safe lib (perform.view source) := permits.viewObservable source
  have nameObservable (name : String) (o : Observable) :
      Work.Safe lib (perform.nameObservable name o) :=
    (modify (by exact fun _ => ⟨rfl, rfl, rfl, rfl⟩)).bind fun _ =>
      (view name).bind fun _ => .pure _
  cases step with
  | create name value tracked =>
    exact (onWorld (.modifyGet fun _ => ⟨rfl, rfl, rfl⟩)).bind fun o => nameObservable name o
  | member name source steps => exact (permits.named _ source).bind fun o => nameObservable name _
  | read source => exact (view source).bind fun _ => .pure _
  | write source value =>
    exact (permits.named _ source).bind fun o =>
      (onWorld (Preserves.bind (Run.Safe.alter safe o _) fun _ => .pure _)).bind fun _ =>
        (view source).bind fun _ => .pure _
  | push source item =>
    exact (permits.named _ source).bind fun o =>
      (onWorld (Preserves.bind (Run.Safe.alter safe o _) fun _ => .pure _)).bind fun _ =>
        (view source).bind fun _ => .pure _
  | remove source position =>
    exact (permits.named _ source).bind fun o => (onWorld (.alter safe o _)).bind fun _ =>
      (view source).bind fun _ => .pure _
  | update source path value =>
    exact (permits.named _ source).bind fun o => (onWorld (.alter safe o _)).bind fun _ =>
      (view source).bind fun _ => .pure _

include safe in
/-- Steps on mounts are safe. -/
theorem MountStep.perform_safe (step : MountStep) : Work.Safe lib (step.perform engine) := by
  cases step with
  | mount name target source =>
    refine (permits.named _ target).bind fun component => (permits.named _ source).bind fun o =>
      (onWorld (.mount safe component o)).bind fun id => (permits.rootOf component).bind
        fun root => Preserves.get.bind fun s => ?_
    dsimp only
    split
    · exact (close _).bind fun _ =>
        (modify (by exact fun _ => ⟨rfl, rfl, rfl, rfl⟩)).bind fun _ => .pure _
    · exact (modify (by exact fun _ => ⟨rfl, rfl, rfl, rfl⟩)).bind fun _ => .pure _
  | unmount handle =>
    exact (permits.named _ handle).bind fun h => (close h).bind fun _ =>
      (onWorld (Run.Sure.retire .dismount h.component).safe).bind fun _ =>
        (modify (by exact fun _ => ⟨rfl, rfl, rfl, rfl⟩)).bind fun _ => .pure _
  | drop handle =>
    exact (permits.named _ handle).bind fun h => (close h).bind fun _ =>
      (modify (by exact fun _ => ⟨rfl, rfl, rfl, rfl⟩)).bind fun _ => .pure _

include safe tight in
/-- Every step of a session is safe, those that work on pools and repeaters by hand included. -/
theorem Step.perform_safe (step : Step) : Work.Safe lib (step.perform engine) := by
  cases step with
  | onInstance step => exact (Work.Safe.engages safe tight).performInstance step
  | onPool step => exact step.perform_safe
  | onNode step =>
    exact permits.performNode (fun i event value => onWorld (.dispatch safe tight i event value)) step
  | onDocument step =>
    exact permits.performDocument close (fun _ _ hs => hs.congr rfl rfl rfl rfl) step
  | onTracker step => exact permits.performTracker step
  | onRepeater step => exact step.perform_safe safe
  | onObservable step => exact step.perform_safe safe
  | onMount step => exact step.perform_safe safe

end Steps

namespace Session

variable {lib : Library} {s later : Session} {report : Report}

/-- A step of a tight session is a safe computation. -/
theorem Tight.performs (h : s.Tight lib) (tight : lib.Tight) (step : Step) :
    Work.Safe lib (step.perform s.engine) := by
  have safe := Engine.nested_safe tight Engine.depthLimit
  have engine : s.engine = .nested lib Engine.depthLimit := by
    rw [Session.engine, h.library]
    rfl
  exact engine ▸ step.perform_safe safe tight

/-- Every step leaves a tight session tight. -/
theorem Tight.step (h : s.Tight lib) (tight : lib.Tight) {step : Step}
    (hs : s.step step = .ok (report, later)) : later.Tight lib := by
  have run := h.performs tight step () s.keepNamed (h.congr rfl rfl rfl rfl)
  obtain ⟨after, rfl, ⟨reply, -, hx⟩ | ⟨refusal, o, -, given, hx⟩⟩ := of_step hs
  · rw [hx] at run
    exact run.congr rfl rfl rfl rfl
  · rw [hx] at run
    exact (run.2 given).congr rfl rfl rfl rfl

/-- Every session that comes of a tight one is tight. -/
theorem ComesTo.tight (h : s.ComesTo later) (tight : lib.Tight) (hs : s.Tight lib) :
    later.Tight lib := by
  induction h with
  | refl => exact hs
  | step _ run ih => exact ih.step tight run

/-- Let a library be defined from components whose declared effects are their own. Then all that any
of its templates refers to is there and of the right kind; every instance of every session, whatever
its steps were, has a node for each slot, an entry of the stash for each plan and a place in the cache
for each callback, and no further step stops over a misfit; and an update of any window of an instance
at any time, also in the middle of a step, keeps all this and does not stop over a misfit. -/
theorem tight_of_define {declarations : List Declaration} {library : Traced Library}
    (defined : Library.define declarations = .ok library)
    (own : ∀ d ∈ declarations, d.Roots Node.Own) :
    (∀ (id : DefinitionId) (d : Definition), library.value[id]? = some d → d.template.Tight) ∧
      (∀ s, (start library).ComesTo s →
        (∀ (i : InstanceId) (inst : Instance), s.world.instances[i]? = some inst →
          inst.Follows library.value) ∧
        ∀ step o later, Step.perform s.engine step s.keepNamed = .error o later → ¬ o.Misfit) ∧
      ∀ depth i first last, Run.Safe library.value
        (Run.hold i (Instance.updateWindow (.nested library.value depth) first last)) := by
  have tight : library.value.Tight := Library.tight_of_elements defined own
  refine ⟨fun _ _ => tight, fun s reached => ?_, fun depth i first last =>
    .hold (Instance.updateWindow_safe (Engine.nested_safe tight depth) tight first last)⟩
  -- Between two steps nothing is held, so that every instance follows its template.
  have session := reached.tight tight (tight_start library)
  refine ⟨fun i inst get => session.world.follows get List.not_mem_nil, fun step o later run => ?_⟩
  have performed := session.performs tight step () s.keepNamed (session.congr rfl rfl rfl rfl)
  rw [run] at performed
  exact performed.1

/-! The sheet has been updated three times, and each of its callbacks has a place in the cache. -/

/-- Steps of the upkeep are steps. -/
theorem Upkept.comesTo (h : s.Upkept later) : s.ComesTo later := by
  induction h with
  | refl => exact .refl
  | step _ _ run ih => exact ih.step run

/-- After its updates the sheet follows its template, and a further step stops over no misfit. -/
theorem tight_of_sheet :
    Library.define [rowDeclaration, sheetDeclaration] = .ok sheetLibrary ∧
      (∀ d ∈ [rowDeclaration, sheetDeclaration], d.Roots Node.Own) ∧
      (∃ inst, sheetSession.world.instances[1]? = some inst ∧ inst.Follows sheetLibrary.value ∧
        inst.cache.map List.length = [1, 0, 1, 1]) ∧
      ∀ step o later,
        Step.perform sheetSession.engine step sheetSession.keepNamed = .error o later →
          ¬ o.Misfit := by
  have defined : Library.define [rowDeclaration, sheetDeclaration] = .ok sheetLibrary :=
    eq_ok_of_isOk (by decide +kernel) _
  have own : ∀ d ∈ [rowDeclaration, sheetDeclaration], d.Roots Node.Own := by decide +kernel
  have upkept : (start sheetLibrary).Upkept sheetSession :=
    (((Upkept.refl.after (.onInstance (.construct ..)) trivial).shownSheet _ _ _).shownSheet
      _ _ _).shownSheet _ _ _
  obtain ⟨-, sessions, -⟩ := tight_of_define defined own
  obtain ⟨follows, steps⟩ := sessions sheetSession upkept.comesTo
  have shape : sheetSession.world.instances[1]?.map (·.cache.map List.length)
      = some [1, 0, 1, 1] := by decide +kernel
  obtain ⟨inst, get, cache⟩ := Option.map_eq_some_iff.mp shape
  exact ⟨defined, own, ⟨inst, get, follows 1 inst get, cache⟩, steps⟩

end Session

end ComponentView
