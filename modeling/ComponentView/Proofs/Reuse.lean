import ComponentView.Proofs.OnePlace
import ComponentView.Proofs.SecondUpdate

/-! # Spare instances used again

A definition with a spare instance does not make a new one: the spare one is rendered with new props
and a new controller. Its state is left as it was when the instance was put aside; everything else that
a watch looks at is new (`Run.acquire_spare`). So what a spare instance shows differs from what a new
one shows by the state alone (`Session.reused_as_left`). -/

namespace ComponentView

namespace Instance

/-- What the watches of an instance look at. -/
structure Outlook where
  definition : DefinitionId
  props : Value
  state : Value
  controller : Controller

/-- What the watches of the instance look at. -/
def outlook (inst : Instance) : Outlook :=
  ⟨inst.definition, inst.props, inst.state, inst.controller⟩

/-- What a pass comes to depends on what the watches of the instance look at. -/
theorem sees_congr {engine engine' : Engine} {d : Definition} {inst other : Instance}
    {k position : Nat} {c : Callback} {value : Value} (same : other.outlook = inst.outlook)
    (h : (Setting.ofInstance engine d inst).Sees k position c value) :
    (Setting.ofInstance engine' d other).Sees k position c value := by
  obtain ⟨-, props, state, controller⟩ := Outlook.mk.injEq .. ▸ same
  exact h.congr rfl (by simp only [Setting.ofInstance, props, state, controller])

end Instance

/-- The effects of an updated instance have last been run with what its watches see. -/
theorem Engine.Updated.seen {engine : Engine} {w : World} {i : InstanceId} {inst : Instance}
    {d : Definition} {k position : Nat} {c : Callback} {value : Value} (h : engine.Updated w i inst)
    (hd : engine.library[inst.definition]? = some d)
    (sees : (Setting.ofInstance engine d inst).Sees k position c value) :
    (inst.cache.get? k position).any (· == value) = true := by
  obtain ⟨watch, key, shown, visible, hc, ht, rfl⟩ := sees.mem_shown
  exact (h.done d hd _ shown).seen visible position c key hc ht

/-! ## New instances -/

/-- A new instance is there, and its watches look at what it was built with. -/
def World.Begins (w : World) (lib : Library) (id : DefinitionId) (props : Value)
    (controller : Controller) (i : InstanceId) : Prop :=
  ∃ inst d, w.instances[i]? = some inst ∧ lib[id]? = some d ∧
    inst.outlook = ⟨id, props, d.initialState, controller⟩

namespace Run

variable {lib : Library} {engine : Engine} {frame : Frame} {busy hand : List InstanceId}
  {i : InstanceId} {id : DefinitionId} {props : Value} {controller : Controller}

/-- A new instance starts in the state that its definition gives. -/
theorem build_begins :
    Ends (fun _ => True) (build lib id props controller)
      (fun i w => w.Begins lib id props controller i) fun _ _ => True := by
  unfold build buildWithin Build.assemble
  refine (Ends.definition fun _ _ => trivial).bind fun d => .assume fun hd => ?_
  refine (Ends.trivially _).bind fun root => (Ends.trivially _).bind fun w => ?_
  split
  · exact (Ends.trivially _).bind fun _ => .throw fun _ _ => trivial
  · refine (Ends.trivially _).bind fun r => ?_
    obtain ⟨stash, elements⟩ := r
    unfold Build.register
    refine Ends.bind (Q := fun i w => w.Begins lib id props controller i)
      (.modifyGet fun w _ => ⟨_, d, Array.getElem?_push_size, hd, rfl⟩) fun i =>
        Ends.bind (Q := fun _ w => w.Begins lib id props controller i) (.forM fun l _ => ?_) fun _ =>
          .pure fun _ h => h
    split
    · exact .modify fun _ h => h
    · exact .pure fun _ h => h

section Steady

variable (steady : engine.Steady) (hl : frame.library = engine.library)
  (sound : engine.library.Sound)

include steady hl sound

/-- A spare instance that is acquired is the one that was put aside last. It is updated with the new
props and the new controller, and its definition, its state, its root and the nodes of its slots are
what they were. -/
theorem acquire_spare (id : DefinitionId) {rest : List InstanceId} {inst : Instance} (props : Value)
    (controller : Controller) :
    Ends (fun w => w.Orderly frame busy hand ∧ w.pool id = i :: rest ∧ w.instances[i]? = some inst)
      (acquire engine id true props controller)
      (fun j w => j = i ∧ w.Orderly frame busy (i :: hand) ∧ ∃ p : Pass, engine.Updated w i
        (p.finish { inst with props := props, controller := controller, mounted := true }))
      (Failing (World.Orderly frame busy hand)) := by
  unfold acquire
  refine (Ends.definition fun _ _ => .of_abort).bind fun d => .assume fun _ => ?_
  dsimp only
  rw [if_pos rfl]
  refine Ends.bind (Q := fun spare w => spare = some i ∧ w.Orderly frame busy (i :: hand) ∧
    w.instances[i]? = some inst ∧ ¬ frame.still i) (.modifyGet fun w hw => ?_) fun spare =>
      .assume ?_
  · obtain ⟨orderly, hp, hi⟩ := hw
    obtain ⟨popped, -, hs⟩ := orderly.pop hp
    rw [hp]
    exact ⟨rfl, popped, hi, hs⟩
  rintro rfl
  refine Ends.bind (Q := fun _ w => ¬ frame.still i ∧ w.Orderly frame busy (i :: hand) ∧
    w.instances[i]? = some inst) (.modify ?_) fun _ => .assume fun hs => ?_
  · rintro w ⟨orderly, hi, hs⟩
    exact ⟨hs, orderly.congr rfl rfl rfl, hi⟩
  exact (((renews_render steady hl sound props controller).hold hs).mono (fun _ h => h)
    (fun _ _ h => h) fun _ _ h => h.mono World.Orderly.of_cons).bind fun _ => .pure fun _ h => ⟨rfl, h⟩

/-- An instance that is constructed is updated, and its watches look at what it was built with. -/
theorem construct_new (ranked : engine.library.Ranked) (id : DefinitionId) (props : Value)
    (controller : Controller) :
    Ends (World.Orderly frame busy hand) (construct engine id props controller)
      (fun i w => ∃ inst d, engine.Updated w i inst ∧ engine.library[id]? = some d ∧
        inst.outlook = ⟨id, props, d.initialState, controller⟩) fun _ _ => True := by
  unfold construct
  refine Ends.bind (((build_orderly ranked hl id props controller).and build_begins).mono
    (fun _ h => ⟨h, trivial⟩) (fun _ _ h => h) fun _ _ _ => trivial) fun i => .pointwise fun w hw => ?_
  obtain ⟨⟨orderly, -, hs⟩, inst, d, hi, hd, outlook⟩ := hw
  have updated : Ends (fun v => v.Orderly frame busy (i :: hand) ∧ v.instances[i]? = some inst)
      (hold i (Instance.update engine)) (fun _ v => v.Orderly frame busy (i :: hand) ∧
        ∃ p : Pass, engine.Updated v i (p.finish inst)) (Failing (World.Orderly frame busy (i :: hand))) :=
    (renews_update steady hl sound).hold hs
  refine Ends.bind (updated.attempt.mono (by rintro _ rfl; exact ⟨orderly, hi⟩) (fun _ _ h => h)
    fun _ _ _ => trivial) fun r => ?_
  cases r with
  | error fault => exact (Ends.trivially _).bind fun _ => .throw fun _ _ => trivial
  | ok stats =>
    refine .pointwise fun v hv => ?_
    obtain ⟨orderly', p, updated⟩ := hv.1 stats rfl
    refine Ends.bind ((hold_mount hs).mono (by rintro _ rfl; exact ⟨orderly', updated⟩)
      (fun _ _ h => h) fun _ _ _ => trivial) fun _ => .pure fun v' h => ?_
    exact ⟨_, d, h.2, hd, outlook⟩

end Steady

end Run

/-! ## What a session shows -/

namespace Work

/-- An instance that was brought into hand and named goes by that name, and naming it has left the world
as it was. -/
theorem of_brought {x : Run InstanceId} {name : String} {s after : Session} {reply : Reply}
    (h : (do
        let i ← onWorld x
        return Reply.node (← nameInstance name i) : Work Reply) s = .ok reply after) :
    ∃ i w, x s.world = .ok i w ∧
      after = { s with world := w, instances := s.instances.set name i } := by
  cases hx : x s.world with
  | error stop w =>
    have stopped : onWorld x s = .error (obstacle stop) { s with world := w } := by
      rw [onWorld, hx]
    rw [bind_error stopped] at h
    cases h
  | ok i w =>
    have brought : onWorld x s = .ok i { s with world := w } := by rw [onWorld, hx]
    rw [bind_ok brought] at h
    have rooted := Ends.rootOf (i := i) (P := (w = ·)) (E := fun _ _ => True) (fun _ _ => trivial)
      (fun _ _ => trivial) w rfl
    refine ⟨i, w, rfl, ?_⟩
    cases hr : Run.rootOf i w with
    | error stop v =>
      have stopped : nameInstance name i { s with world := w }
          = .error (obstacle stop) { s with world := v } :=
        bind_error (by simp only [onWorld, hr])
      rw [bind_error stopped] at h
      cases h
    | ok root v =>
      rw [hr] at rooted
      obtain ⟨-, -, rfl⟩ := rooted
      have named : nameInstance name i { s with world := w }
          = .ok root { s with world := w, instances := s.instances.set name i } := by
        have rooted : onWorld (Run.rootOf i) { s with world := w } = .ok root { s with world := w } := by
          simp only [onWorld, hr]
        unfold nameInstance
        rw [bind_ok rooted]
        rfl
      rw [bind_ok named] at h
      cases h
      rfl

end Work

namespace Session

/-- A name stands for an instance of which all effects have last been run with what its watches see. -/
structure Presents (s : Session) (name : String) (d : Definition) (look : Instance.Outlook)
    (inst : Instance) : Prop where
  there : ∃ i, s.instances.get? name = some i ∧ s.world.instances[i]? = some inst
  outlook : inst.outlook = look
  seen : ∀ {k position c value}, (Setting.ofInstance s.engine d inst).Sees k position c value →
    (inst.cache.get? k position).any (· == value) = true

variable {library : Traced Library} {declarations : List Declaration} {s later : Session}
  {own : List InstanceId} {report : Report} {reply : Reply} {id : DefinitionId} {i : InstanceId}
  {rest : List InstanceId} {name : String} {props : Value} {controller : Controller}

/-- An updated instance shows what its watches see under each of its names. -/
theorem Presents.of_updated {engine : Engine} {w : World} {inst : Instance} {d : Definition}
    (updated : engine.Updated w i inst) (hd : engine.library[inst.definition]? = some d)
    (named : s.instances.get? name = some i) (same : s.engine = engine)
    (instances : s.world.instances = w.instances) : s.Presents name d inst.outlook inst where
  there := ⟨i, named, by rw [instances]; exact updated.there⟩
  outlook := rfl
  seen sees := updated.seen hd (same ▸ sees)

/-- A step that brings an instance and goes well names what it brings. -/
theorem of_step_brought {step : Step} {x : Run InstanceId}
    (perform : step.perform s.engine s.keepNamed = (do
      let i ← Work.onWorld x
      return Reply.node (← Work.nameInstance name i) : Work Reply) s.keepNamed)
    (run : s.step step = .ok (report, later)) (went : report.outcome = .ok reply) :
    ∃ i w, x s.keepNamed.world = .ok i w ∧ later.instances.get? name = some i ∧
      later.world.instances = w.instances ∧ later.engine = s.engine := by
  obtain ⟨after, rfl, ⟨reply, -, hx⟩ | ⟨refusal, o, failed, -, -⟩⟩ := of_step run
  · obtain ⟨i, w, brought, rfl⟩ := Work.of_brought (perform ▸ hx)
    exact ⟨i, w, brought, NameTable.get?_set_self .., rfl, rfl⟩
  · rw [went] at failed
    cases failed

/-- A step that acquires an instance of a definition with a spare one presents the spare one that was
put aside last. It looks at the new props, at the new controller and at the state in which it was put
aside. -/
theorem presents_of_acquire (sound : library.value.Sound) (ranked : library.value.Ranked)
    (reached : FairlyReached library own s) (spare : s.world.pool id = i :: rest)
    (run : s.step (.onInstance (.acquire name id true props controller)) = .ok (report, later))
    (went : report.outcome = .ok reply) :
    ∃ old d inst, s.world.instances[i]? = some old ∧ library.value[id]? = some d ∧
      later.instances.get? name = some i ∧
      later.Presents name d ⟨id, props, old.state, controller⟩ inst := by
  have orderly := reached.orderly ranked
  obtain ⟨steady, library'⟩ := Engine.nested_steady ranked sound Engine.depthLimit
  obtain ⟨_, stocks⟩ := (orderly.congr rfl rfl rfl rfl rfl : s.keepNamed.Orderly library.value own).stocks
  -- The spare instance is there, and it is of the definition.
  obtain ⟨old, hold, rfl⟩ := Option.map_eq_some_iff.mp
    (stocks.orderly.pooled (show i ∈ s.keepNamed.world.pool id by
      rw [show s.keepNamed.world.pool id = i :: rest from spare]; exact List.mem_cons_self))
  obtain ⟨d, hd, -⟩ := (stocks.orderly.sound hold List.not_mem_nil).shaped
  obtain ⟨j, w, hx, named, instances, engine⟩ := of_step_brought rfl run went
  rw [orderly.engine_eq] at hx engine
  obtain ⟨rfl, -, p, updated⟩ := (Run.acquire_spare steady library'.symm (library' ▸ sound)
    old.definition props controller).of_ok ⟨stocks.orderly, spare, hold⟩ hx
  exact ⟨old, d, _, hold, hd, named, .of_updated updated (library'.symm ▸ hd) named engine instances⟩

/-- A step that constructs an instance presents one that looks at the initial state. -/
theorem presents_of_construct (sound : library.value.Sound) (ranked : library.value.Ranked)
    (reached : FairlyReached library own s)
    (run : s.step (.onInstance (.construct name id props controller)) = .ok (report, later))
    (went : report.outcome = .ok reply) :
    ∃ d inst, library.value[id]? = some d ∧
      later.Presents name d ⟨id, props, d.initialState, controller⟩ inst := by
  have orderly := reached.orderly ranked
  obtain ⟨steady, library'⟩ := Engine.nested_steady ranked sound Engine.depthLimit
  obtain ⟨_, stocks⟩ := (orderly.congr rfl rfl rfl rfl rfl : s.keepNamed.Orderly library.value own).stocks
  obtain ⟨i, w, hx, named, instances, engine⟩ := of_step_brought rfl run went
  rw [orderly.engine_eq] at hx engine
  obtain ⟨inst, d, updated, hd, outlook⟩ := (Run.construct_new steady library'.symm
    (library' ▸ sound) (library'.symm ▸ ranked) id props controller).of_ok stocks.orderly hx
  have same : inst.definition = id := congrArg Instance.Outlook.definition outlook
  exact ⟨d, inst, library' ▸ hd,
    outlook ▸ .of_updated updated (same.symm ▸ hd) named engine instances⟩

/-- Take a library of components whose watches only write and render, a session that came about by fair
steps, and a definition that has a spare instance. Acquiring one hands out the spare instance, whatever
it has been through: it shows all that its watches see with the new props, the new controller and the
state in which it was put aside. If that is the initial state of the definition, a new instance that is
constructed anywhere with the same props and the same controller sees and shows the same. -/
theorem reused_as_left (defined : Library.define declarations = .ok library)
    (builtIn : ∀ d ∈ declarations, d.BuiltIn) (ranked : library.value.Ranked)
    (reached : FairlyReached library own s) (spare : s.world.pool id = i :: rest)
    (acquired : s.step (.onInstance (.acquire name id true props controller)) = .ok (report, later))
    (went : report.outcome = .ok reply) :
    ∃ old d inst, s.world.instances[i]? = some old ∧ library.value[id]? = some d ∧
      later.instances.get? name = some i ∧
      later.Presents name d ⟨id, props, old.state, controller⟩ inst ∧
      (old.state = d.initialState → ∀ {owned t name' report' reply' built},
        FairlyReached library owned t →
        t.step (.onInstance (.construct name' id props controller)) = .ok (report', built) →
        report'.outcome = .ok reply' →
        ∃ fresh, built.Presents name' d ⟨id, props, old.state, controller⟩ fresh ∧
          ∀ k position c value, (Setting.ofInstance later.engine d inst).Sees k position c value ↔
            (Setting.ofInstance built.engine d fresh).Sees k position c value) := by
  have sound := Library.sound_of_define defined builtIn
  obtain ⟨old, d, inst, hold, hd, named, presents⟩ :=
    presents_of_acquire sound ranked reached spare acquired went
  refine ⟨old, d, inst, hold, hd, named, presents, fun initial owned t name' report' reply' built
    reached' constructed went' => ?_⟩
  obtain ⟨d', fresh, hd', presents'⟩ :=
    presents_of_construct sound ranked reached' constructed went'
  obtain rfl := Option.some.inj (hd.symm.trans hd')
  rw [← initial] at presents'
  have same : fresh.outlook = inst.outlook := presents'.outlook.trans presents.outlook.symm
  exact ⟨fresh, presents', fun k position c value =>
    ⟨Instance.sees_congr same, Instance.sees_congr same.symm⟩⟩

/-! A counter that is counted up, put aside and acquired again. -/

/-- A counter, which shows the number in its state. -/
def counterDeclaration : Declaration where
  id := "counter"
  name := "counter"
  origin := .root ⟨{ kind := .element "p", watches := [⟨.state [.field "n"], .setText⟩] }, []⟩ {}
  state := some (.map [("n", .int 0)])

/-- The library of counters. -/
def counterLibrary : Traced Library :=
  (Library.define [counterDeclaration]).toOption.getD ⟨[], []⟩

/-- A step that acquires a counter. -/
def acquireCounter (name : String) : Step := .onInstance (.acquire name 0 true .null none)

/-- A counter is acquired, counted up to five and put aside. -/
def counterSteps : List Step :=
  [acquireCounter "a", .onInstance (.writeState "a" [.field "n"] (.int 5)), .onPool (.release 0 "a")]

/-- The session after these steps, and what is then the caller's own. -/
def counterSession : List InstanceId × Session := counterSteps.foldl tend ([], start counterLibrary)

/-- A counter that was given back and is acquired again shows the state it was left with. -/
theorem reused_as_left_of_counter :
    Library.define [counterDeclaration] = .ok counterLibrary ∧ counterDeclaration.BuiltIn ∧
      counterLibrary.value.Ranked ∧ FairlyReached counterLibrary [] counterSession.2 ∧
      counterSession.2.world.pool 0 = [0] ∧
      ∃ report later reply old d inst,
        counterSession.2.step (acquireCounter "b") = .ok (report, later) ∧
        report.outcome = .ok reply ∧ counterSession.2.world.instances[0]? = some old ∧
        (old.state == .map [("n", .int 5)]) = true ∧
        later.Presents "b" d ⟨0, .null, old.state, none⟩ inst := by
  have defined : Library.define [counterDeclaration] = .ok counterLibrary :=
    eq_ok_of_isOk (by decide +kernel) _
  have builtIn : counterDeclaration.BuiltIn := by decide +kernel
  have ranked : counterLibrary.value.Ranked := by decide +kernel
  have own : counterSession.1 = [] := by decide +kernel
  have fair : AllFair ([], start counterLibrary) counterSteps :=
    ⟨trivial, trivial, ⟨0, by decide +kernel, by decide +kernel, by decide +kernel⟩, trivial⟩
  have reached : FairlyReached counterLibrary counterSession.1 counterSession.2 :=
    FairlyReached.start.foldl_tend fair
  rw [own] at reached
  have spare : counterSession.2.world.pool 0 = [0] := by decide +kernel
  have counted : counterSession.2.world.instances[0]?.any
      (fun old => old.state == .map [("n", .int 5)]) = true := by decide +kernel
  have acquires : (counterSession.2.step (acquireCounter "b")).toOption.any
      (·.1.outcome.isOk) = true := by decide +kernel
  cases run : counterSession.2.step (acquireCounter "b") with
  | error e =>
    rw [run] at acquires
    cases acquires
  | ok r =>
    rw [run] at acquires
    obtain ⟨report, later⟩ := r
    cases went : report.outcome with
    | error refusal => simp [Except.toOption, went, Except.isOk, Except.toBool] at acquires
    | ok reply =>
      obtain ⟨old, d, inst, aside, -, -, presents, -⟩ := reused_as_left defined
        (List.forall_mem_singleton.mpr builtIn) ranked reached spare run went
      rw [aside] at counted
      exact ⟨defined, builtIn, ranked, reached, spare, report, later, reply, old, d, inst, rfl, went, aside,
        counted, presents⟩

/-- The counter that is acquired again is the one that was put aside, and its state is not the initial
state of its definition. -/
theorem counted_on_counter :
    counterSession.2.world.pool 0 = [0] ∧
      (match counterSession.2.step (acquireCounter "b") with
        | .ok (_, later) => later.instances.get? "b" == some 0 && later.world.instances[0]?.any fun inst =>
            counterLibrary.value[0]?.any fun d => inst.state != d.initialState
        | .error _ => false) = true := by
  decide +kernel

end Session

end ComponentView
