import ComponentView.Proofs.Ownership.Events
import ComponentView.Proofs.Throughout
import ComponentView.Session.Report

/-! # Sessions keep the order

What a session names stays in use, but names own nothing: of what a session knows by name only the
repeaters hold instances. Every step keeps the order (`Step.perform_keeps`), unless it puts an
instance into a pool by hand or takes up a repeater that holds instances already. So there is order in
every session that comes about by other steps (`Session.Reached.orderly`). -/

namespace ComponentView

/-! ## More that keeps the order -/

namespace World

variable {frame : Frame} {busy hand : List InstanceId} {w : World}

/-- The spare instances of a definition are forgotten. -/
theorem Orderly.drain (h : w.Orderly frame busy hand) (id : DefinitionId) :
    (w.setPool id []).Orderly frame busy hand := by
  have pools (k : DefinitionId) : (w.setPool id []).pool k = if k = id then [] else w.pool k :=
    pool_setPool (Or.inr rfl) k
  have smaller {k : DefinitionId} {j : InstanceId} (hj : j ∈ (w.setPool id []).pool k) :
      j ∈ w.pool k := by
    rw [pools] at hj
    split at hj
    · cases hj
    · exact hj
  exact
    { busy_eq := h.busy_eq
      spread := by
        refine h.spread.move (a := .hand) (b := .pool id) (by simp) (fun p hq hr => ?_) ?_
        · cases p with
          | hand => exact absurd rfl hq
          | pool k => simp [World.placed, pools, show k ≠ id from fun he => hr (he ▸ rfl)]
          | stash j => rfl
        · simp only [World.placed, pools, if_true, List.append_nil]
          exact (List.sublist_append_left _ _).subperm
      known := h.known
      sound := fun hj hb => (h.sound hj hb).grows fun hk => hk
      pooled := fun hj => h.pooled (smaller hj)
      grown := h.grown
      same := h.same
      there := h.there
      aside := fun {p j} hq hj => by
        cases p with
        | hand => cases hq
        | pool k => exact h.aside (p := .pool k) hq (smaller hj)
        | stash k => exact h.aside (p := .stash k) hq hj
      free := h.free }

end World

/-- Clearing a pool keeps the order. -/
theorem Run.Keeps.clearPool {lib : Library} (id : DefinitionId) : Keeps lib (clearPool id) := by
  unfold Run.clearPool
  refine Preserves.get.bind fun w => Preserves.bind (.modify fun _ w h => World.Orderly.drain h id)
    fun _ => ?_
  exact .forM fun i _ => retire .destroy i

/-! ## Sessions in order -/

/-- The frame in which nothing has to stay as it is. -/
def Frame.plain (lib : Library) : Frame := ⟨lib, {}, fun _ => False⟩

/-- A repeater as an entry of a stash. -/
def Repeater.entry : Repeater → StashItem
  | sequential r => .sequential r
  | keyed r => .keyed r

/-- The repeater holds nothing yet. -/
def Repeater.Empty : Repeater → Prop
  | sequential r => r.instances = []
  | keyed r => r.instances = [] ∧ r.order = []

/-- What holds nothing yet ranks below every later definition than its own. -/
theorem Repeater.Empty.ranks {r : Repeater} (h : r.Empty) (w : World) :
    r.entry.held = [] ∧ ∃ id, r.entry.Ranks w id := by
  cases r with
  | sequential r =>
    obtain ⟨definition, share, anchors, instances, attached⟩ := r
    obtain rfl : instances = [] := h
    exact ⟨rfl, definition + 1, Nat.lt_succ_self _, List.forall_mem_nil _⟩
  | keyed r =>
    obtain ⟨definition, key, share, anchors, instances, order⟩ := r
    obtain ⟨rfl, rfl⟩ : instances = [] ∧ order = [] := h
    exact ⟨rfl, definition + 1, Nat.lt_succ_self _, List.forall_mem_nil _, List.nodup_nil⟩

namespace NameTable

variable {α : Type}

/-- What comes of the meanings grows by no more than what comes of the new one. -/
theorem flatMap_set_sublist {β : Type} {f : String × α → List β} {name : String} {a : α}
    (h : f (name, a) = []) (t : NameTable α) :
    ((t.set name a).flatMap f).Sublist (t.flatMap f) := by
  induction t with
  | nil => simp [set, h]
  | cons e t ih =>
    obtain ⟨key, old⟩ := e
    rw [set]
    split
    · rw [List.flatMap_cons, List.flatMap_cons, h]
      exact List.sublist_append_right _ _
    · rw [List.flatMap_cons, List.flatMap_cons]
      exact ih.append_left _

/-- Setting a name changes one entry or adds one. -/
theorem mem_set {t : NameTable α} {name : String} {a : α} {e : String × α}
    (h : e ∈ t.set name a) : e ∈ t ∨ e = (name, a) := by
  induction t with
  | nil => exact Or.inr (List.mem_singleton.mp h)
  | cons e' t ih =>
    obtain ⟨key, old⟩ := e'
    rw [set] at h
    split at h
    · exact (List.mem_cons.mp h).symm.imp (List.mem_cons_of_mem _) id
    · rcases List.mem_cons.mp h with rfl | h
      · exact Or.inl List.mem_cons_self
      · exact (ih h).imp (List.mem_cons_of_mem _) id

end NameTable

namespace Session

/-- The repeaters of a session as a stash. -/
def entries (s : Session) : List StashItem := s.repeaters.map fun e => e.2.entry

/-- The instances of a session are in order, with those that its repeaters hold and those of a caller
in hand. -/
structure Orderly (lib : Library) (own : List InstanceId) (s : Session) : Prop where
  library : s.library = lib
  stocks : ∃ id, s.world.Stocks (.plain lib) [] own id s.entries

variable {lib : Library} {own : List InstanceId} {s later : Session}

/-- Only the library, the instances, the pools, the list of held instances and the repeaters matter. -/
theorem Orderly.congr (h : s.Orderly lib own) (library : later.library = s.library)
    (instances : later.world.instances = s.world.instances)
    (pools : later.world.pools = s.world.pools) (busy : later.world.busy = s.world.busy)
    (repeaters : later.repeaters = s.repeaters) : later.Orderly lib own := by
  obtain ⟨id, stocks⟩ := h.stocks
  refine ⟨library.trans h.library, id, ?_⟩
  rw [entries, repeaters]
  exact stocks.congr instances pools busy

/-- A session at its start is in order. -/
theorem orderly_start (library : Traced Library) : (start library).Orderly library.value [] := by
  have pool (id : DefinitionId) : (start library).world.pool id = [] := by
    unfold World.pool start World.empty
    by_cases h : id < library.value.length <;> simp [h]
  have placed (p : Place) : (start library).world.placed [] p = [] := by
    cases p with
    | hand => rfl
    | pool id => exact pool id
    | stash i => simp [World.placed, start, World.empty]
  have none (i : InstanceId) : (start library).world.instances[i]? = none := by
    simp [start, World.empty]
  refine ⟨rfl, 0, ⟨?_, List.forall_mem_nil _, List.forall_mem_nil _⟩⟩
  exact
    { busy_eq := rfl
      spread := by
        show Spread ((start library).world.placed [])
        exact ⟨fun p => by simp [placed], fun {p q i} hi _ => by simp [placed] at hi⟩
      known := List.forall_mem_nil _
      sound := fun {i inst} hi _ => by rw [none] at hi; cases hi
      pooled := fun {id i} hi => by rw [pool] at hi; cases hi
      grown := fun {i id} hi => by simp [Frame.plain, World.definition?] at hi
      same := fun _ hs => hs.elim
      there := fun _ hs => hs.elim
      aside := fun _ _ hs => hs
      free := List.forall_mem_nil _ }

end Session

/-! ## Computations over a session -/

/-- What holds when a step has met an obstacle; of a run that was given up nothing is said. -/
def Session.Hindered (P : Session → Prop) (o : Obstacle) (s : Session) : Prop :=
  (∀ cause, o ≠ .abort cause) → P s

/-- The computation keeps the session in order; of a run that was given up nothing is said. -/
def Work.Keeps {α : Type} (lib : Library) (x : Work α) : Prop :=
  Preserves (Session.Orderly lib) (fun own => Session.Hindered (Session.Orderly lib own)) x

namespace Work.Keeps

variable {α β : Type} {lib : Library}

/-- Only the library, the instances, the pools, the list of held instances and the repeaters matter. -/
theorem modify {f : Session → Session} (h : ∀ s, (f s).library = s.library ∧
    (f s).world.instances = s.world.instances ∧ (f s).world.pools = s.world.pools ∧
    (f s).world.busy = s.world.busy ∧ (f s).repeaters = s.repeaters) : Keeps lib (modify f) :=
  fun _ => .modify fun s hs =>
    hs.congr (h s).1 (h s).2.1 (h s).2.2.1 (h s).2.2.2.1 (h s).2.2.2.2

/-- What keeps the order of the world keeps that of the session. -/
theorem onWorld {x : Run α} (h : Run.Keeps lib x) : Keeps lib (onWorld x) := by
  rintro own s ⟨library, id, stocks⟩
  have run := h.stocks rfl (fun _ hs => hs) stocks _ rfl
  unfold Work.onWorld
  cases hx : x s.world with
  | ok a w =>
    rw [hx] at run
    exact ⟨library, id, run.1⟩
  | error stop w =>
    rw [hx] at run
    intro given
    cases stop with
    | fault cause => exact ⟨library, id, (run cause rfl).1⟩
    | abort cause => exact absurd rfl (given cause)

/-- Work on an instance keeps the session in order if it keeps what the instance holds. -/
theorem hold {x : Holding Instance α} {i : InstanceId} (h : ∀ (frame : Frame)
    (busy hand : List InstanceId), frame.library = lib →
      (∀ i, ¬ frame.still i) → Ends (Instance.Housed frame busy hand i) x
        (fun _ => Instance.Housed frame busy hand i)
        (Failing (Instance.Housed frame busy hand i))) : Keeps lib (Work.onWorld (Run.hold i x)) :=
  onWorld (.hold h)

/-- A session in order permits what every step does. -/
theorem permits : Permits (Session.Orderly lib)
    (fun own => Session.Hindered (Session.Orderly lib own)) where
  unknown _ hs _ := hs
  noNode hs _ := hs
  look i := onWorld (.look i)
  definition other id := onWorld (.definition other id)
  names hs library world repeaters := hs.congr library (by rw [world]) (by rw [world]) (by rw [world])
    repeaters
  edit hs _ := hs.congr rfl rfl rfl rfl rfl
  probe _ _ _ hs := hs.congr rfl rfl rfl rfl rfl

/-- Ending a mount keeps the session in order. -/
theorem close (h : HeldMount) : Keeps lib h.close := by
  unfold HeldMount.close
  split
  · refine onWorld (.modify fun w => ?_)
    split <;> exact ⟨rfl, rfl, rfl⟩
  · exact .pure _

/-- Patching a named repeater keeps the order. -/
theorem patch (entry : α → Repeater) {a : α} {x : Holding α β} {target : String}
    {own : List InstanceId} (h : ∀ (frame : Frame) (hand : List InstanceId) (id : DefinitionId),
      frame.library = lib → (∀ i, ¬ frame.still i) →
      Ends (fun f => f.world.Stocks frame [] hand id [(entry f.held).entry]) x
        (fun _ f => f.world.Stocks frame [] hand id [(entry f.held).entry])
        (Failing fun f => f.world.Stocks frame [] hand id [(entry f.held).entry])) :
    Ends (fun s => s.repeaters.get? target = some (entry a) ∧ s.Orderly lib own)
      (beside a x fun a s => { s with repeaters := s.repeaters.set target (entry a) })
      (fun _ => Session.Orderly lib own) (Session.Hindered (Session.Orderly lib own)) := by
  rintro s ⟨hr, library, id, stocks⟩
  obtain ⟨n, hn, hset⟩ := NameTable.exists_position hr
  have place : s.entries[n]? = some (entry a).entry := by
    rw [Session.entries, List.getElem?_map, hn]
    rfl
  let frame := Frame.widen (.plain lib) s.world []
  let hand := World.Stocks.besides s.entries n ++ own
  have run := h frame hand id rfl (Frame.not_still_widen _ fun _ hs => hs) ⟨a, s.world⟩
    ((stocks.alone place).widen (List.nil_subset _))
  have back {f : Focus α} (hf : f.world.Stocks frame [] hand id [(entry f.held).entry]) :
      Session.Orderly lib own { s with
        world := f.world, repeaters := s.repeaters.set target (entry f.held) } := by
    refine ⟨library, id, ?_⟩
    rw [Session.entries, hset, List.map_set]
    exact (stocks.join place hf).1
  unfold beside
  cases hx : x ⟨a, s.world⟩ with
  | ok b f => rw [hx] at run; exact back run
  | error stop f =>
    rw [hx] at run
    intro given
    cases stop with
    | fault cause => exact back (run cause rfl)
    | abort cause => exact absurd rfl (given cause)

end Work.Keeps

/-! ## Steps -/

/-- The step neither puts an instance into a pool by hand nor takes up a repeater that holds
instances. -/
def Step.Plain : Step → Prop
  | onPool (.release _ _) => False
  | onRepeater (.create _ r) => r.Empty
  | _ => True

section Steps

variable {engine : Engine} (orderly : engine.Orderly) (ranked : engine.library.Ranked)

open Work.Keeps

include orderly

/-- A session in order permits all that an orderly engine does for instances. -/
theorem Work.Keeps.engages (ranked : engine.library.Ranked) :
    Engages engine (Session.Orderly engine.library)
      (fun own => Session.Hindered (Session.Orderly engine.library own)) where
  toPermits := permits
  construct id props controller :=
    onWorld (Run.construct_brings orderly ranked id props controller).keeps
  acquire id share props controller :=
    onWorld (Run.acquire_brings orderly ranked id share props controller).keeps
  render _ props controller :=
    hold fun _ _ _ hl hs => Instance.render_orderly orderly hl hs props controller
  update _ := hold fun _ _ _ hl hs => Instance.update_orderly orderly hl hs
  updateWindow _ start stop :=
    hold fun _ _ _ hl hs => Instance.updateWindow_orderly orderly hl hs start stop
  updatePart _ name := hold fun _ _ _ hl hs => Instance.updatePart_orderly orderly hl hs name
  setState _ _ := hold fun _ _ _ _ _ => .change fun _ _ housed => housed.congr rfl rfl rfl rfl
  writeState _ path value := hold fun _ _ _ _ _ => Instance.writeState_orderly path value
  retire mode i := onWorld (.retire mode i)

omit orderly in
/-- What the repeaters of a session hold is lost with its names. -/
theorem Session.Orderly.forget {lib : Library} {own : List InstanceId} {s : Session}
    (h : s.Orderly lib own) : Session.Orderly lib own { library := s.library, world := s.world } := by
  obtain ⟨library, id, stocks⟩ := h
  exact ⟨library, id, stocks.orderly.shrink (List.sublist_append_right _ _).subperm,
    List.forall_mem_nil _, List.forall_mem_nil _⟩

omit orderly in
/-- Plain steps on pools keep the order. -/
theorem PoolStep.perform_keeps {lib : Library} (step : PoolStep)
    (plain : (Step.onPool step).Plain) : Work.Keeps lib step.perform := by
  cases step with
  | size definition => exact Preserves.get.bind fun _ => .pure _
  | release definition target => cases plain
  | clear definition => exact (onWorld (.clearPool definition)).bind fun _ => .pure _

/-- Plain steps on repeaters keep the order. -/
theorem RepeaterStep.perform_keeps (step : RepeaterStep) (plain : (Step.onRepeater step).Plain) :
    Work.Keeps engine.library (step.perform engine) := by
  have view (target : String) : Work.Keeps engine.library (perform.view target) :=
    permits.viewNamedRepeater target
  cases step with
  | create name r =>
    refine Preserves.bind (.modify fun _ s hs => ?_) fun _ => .pure _
    obtain ⟨library, id, stocks⟩ := hs
    obtain ⟨none, later, ranks⟩ := Repeater.Empty.ranks plain s.world
    have sublist : ((s.repeaters.set name r).map fun e => e.2.entry).flatMap StashItem.held
        |>.Sublist (s.entries.flatMap StashItem.held) := by
      rw [Session.entries, List.flatMap_map, List.flatMap_map]
      exact NameTable.flatMap_set_sublist none _
    refine ⟨library, max id later, stocks.orderly.shrink (sublist.append_right _).subperm,
      fun item hm => ?_, fun _ _ hs => hs⟩
    obtain ⟨e, he, rfl⟩ := List.mem_map.mp hm
    rcases NameTable.mem_set he with he | rfl
    · exact (stocks.ranks _ (List.mem_map_of_mem he)).mono (Nat.le_max_left _ _)
    · exact ranks.mono (Nat.le_max_right _ _)
  | patch target container items anchor controller =>
    refine (permits.node container).bind fun container => (permits.maybeNode anchor).bind
      fun anchor own => ?_
    refine Ends.bind (Q := fun r s => s.repeaters.get? target = some r ∧
      s.Orderly engine.library own) ?_ fun r => ?_
    · unfold Work.named
      refine Ends.get.bind fun s => ?_
      split
      · exact .pure fun s' h => ⟨by rw [← h.1]; assumption, h.2⟩
      · exact .throw fun s' h _ => h.2
    · cases r with
      | sequential r =>
        refine Ends.bind (Work.Keeps.patch Repeater.sequential
          fun frame hand id hl hs => ?_) fun _ => view target own
        exact Sequential.patch_orderly orderly hl hs controller container anchor items
      | keyed r =>
        refine Ends.bind (Work.Keeps.patch Repeater.keyed
          fun frame hand id hl hs => ?_) fun _ => view target own
        exact Keyed.patch_orderly orderly hl hs controller container anchor items
  | describe target => exact view target
  | take target position key name => exact permits.takeRow target position key name

/-- Steps on observables keep the order. -/
theorem ObservableStep.perform_keeps (step : ObservableStep) :
    Work.Keeps engine.library (step.perform engine) := by
  have view (source : String) : Work.Keeps engine.library (perform.view source) :=
    permits.viewObservable source
  have nameObservable (name : String) (o : Observable) :
      Work.Keeps engine.library (perform.nameObservable name o) :=
    (modify (by exact fun _ => ⟨rfl, rfl, rfl, rfl, rfl⟩)).bind fun _ =>
      (view name).bind fun _ => .pure _
  cases step with
  | create name value tracked =>
    exact (onWorld (.modifyGet fun _ => ⟨rfl, rfl, rfl⟩)).bind fun o => nameObservable name o
  | member name source steps => exact (permits.named _ source).bind fun o => nameObservable name _
  | read source => exact (view source).bind fun _ => .pure _
  | write source value =>
    exact (permits.named _ source).bind fun o =>
      (onWorld (Preserves.bind (Run.Keeps.alter orderly o _) fun _ => .pure _)).bind fun _ =>
        (view source).bind fun _ => .pure _
  | push source item =>
    exact (permits.named _ source).bind fun o =>
      (onWorld (Preserves.bind (Run.Keeps.alter orderly o _) fun _ => .pure _)).bind fun _ =>
        (view source).bind fun _ => .pure _
  | remove source position =>
    exact (permits.named _ source).bind fun o => (onWorld (.alter orderly o _)).bind fun _ =>
      (view source).bind fun _ => .pure _
  | update source path value =>
    exact (permits.named _ source).bind fun o => (onWorld (.alter orderly o _)).bind fun _ =>
      (view source).bind fun _ => .pure _

/-- Steps on mounts keep the order. -/
theorem MountStep.perform_keeps (step : MountStep) :
    Work.Keeps engine.library (step.perform engine) := by
  cases step with
  | mount name target source =>
    refine (permits.named _ target).bind fun component => (permits.named _ source).bind fun o =>
      (onWorld (.mount orderly component o)).bind fun id => (permits.rootOf component).bind
        fun root => Preserves.get.bind fun s => ?_
    dsimp only
    split
    · exact (close _).bind fun _ =>
        (modify (by exact fun _ => ⟨rfl, rfl, rfl, rfl, rfl⟩)).bind fun _ => .pure _
    · exact (modify (by exact fun _ => ⟨rfl, rfl, rfl, rfl, rfl⟩)).bind fun _ => .pure _
  | unmount handle =>
    exact (permits.named _ handle).bind fun h => (close h).bind fun _ =>
      (onWorld (.retire .dismount h.component)).bind fun _ =>
        (modify (by exact fun _ => ⟨rfl, rfl, rfl, rfl, rfl⟩)).bind fun _ => .pure _
  | drop handle =>
    exact (permits.named _ handle).bind fun h => (close h).bind fun _ =>
      (modify (by exact fun _ => ⟨rfl, rfl, rfl, rfl, rfl⟩)).bind fun _ => .pure _

/-- Every plain step keeps the session in order. -/
theorem Step.perform_keeps (ranked : engine.library.Ranked) (step : Step) (plain : step.Plain) :
    Work.Keeps engine.library (step.perform engine) := by
  cases step with
  | onInstance step => exact (Work.Keeps.engages orderly ranked).performInstance step
  | onPool step => exact step.perform_keeps plain
  | onNode step =>
    exact permits.performNode (fun i event value => onWorld (.dispatch orderly i event value)) step
  | onDocument step => exact permits.performDocument close (fun _ _ hs => hs.forget) step
  | onTracker step => exact permits.performTracker step
  | onRepeater step => exact step.perform_keeps orderly plain
  | onObservable step => exact step.perform_keeps orderly
  | onMount step => exact step.perform_keeps orderly

end Steps

namespace Session

variable {lib : Library} {own : List InstanceId} {s later : Session} {report : Report}

/-- A step that is reported ends as its performance does, but for the journal. -/
theorem of_step {step : Step} (hs : s.step step = .ok (report, later)) :
    ∃ after : Session, later = { after with world := { after.world with journal := [] } } ∧
      ((∃ reply, report.outcome = .ok reply ∧
          step.perform s.engine s.keepNamed = .ok reply after) ∨
        ∃ refusal o, report.outcome = .error refusal ∧ (∀ cause, o ≠ .abort cause) ∧
          step.perform s.engine s.keepNamed = .error o after) := by
  have reported {outcome : Except Refusal Reply} {after : Session}
      (h : after.report s.forms outcome = (report, later)) : report.outcome = outcome ∧
        later = { after with world := { after.world with journal := [] } } := by
    cases h
    exact ⟨rfl, rfl⟩
  unfold Session.step at hs
  cases hx : step.perform s.engine s.keepNamed with
  | ok reply after =>
    rw [hx] at hs
    obtain ⟨outcome, rfl⟩ := reported (Except.ok.inj hs)
    exact ⟨after, rfl, .inl ⟨reply, outcome, rfl⟩⟩
  | error o after =>
    rw [hx] at hs
    cases o with
    | fault cause =>
      obtain ⟨outcome, rfl⟩ := reported (Except.ok.inj hs)
      exact ⟨after, rfl, .inr ⟨_, _, outcome, by simp, rfl⟩⟩
    | noNode =>
      obtain ⟨outcome, rfl⟩ := reported (Except.ok.inj hs)
      exact ⟨after, rfl, .inr ⟨_, _, outcome, by simp, rfl⟩⟩
    | unknownName name => cases hs
    | abort cause => cases hs

/-- A session works with an engine of its library. -/
theorem Orderly.engine_eq (h : s.Orderly lib own) : s.engine = .nested lib Engine.depthLimit := by
  rw [engine, h.library]
  rfl

/-- A plain step of a session keeps it in order. -/
theorem Orderly.step (h : s.Orderly lib own) (ranked : lib.Ranked) {step : Step}
    (plain : step.Plain) (hs : s.step step = .ok (report, later)) : later.Orderly lib own := by
  obtain ⟨orderly, library⟩ := Engine.nested_orderly ranked Engine.depthLimit
  have performs : Work.Keeps lib (step.perform s.engine) := by
    have := step.perform_keeps orderly (library.symm ▸ ranked) plain
    rwa [library, ← h.engine_eq] at this
  have run := performs own s.keepNamed (h.congr rfl rfl rfl rfl rfl)
  obtain ⟨after, rfl, ⟨reply, -, hx⟩ | ⟨refusal, o, -, given, hx⟩⟩ := of_step hs
  · rw [hx] at run
    exact run.congr rfl rfl rfl rfl rfl
  · rw [hx] at run
    exact (run given).congr rfl rfl rfl rfl rfl

/-- Sessions with a library that come about by plain steps. -/
inductive Reached (library : Traced Library) : Session → Prop
  | start : Reached library (start library)
  | step {s later : Session} {step : Step} {report : Report} (h : Reached library s)
    (plain : step.Plain) (hs : s.step step = .ok (report, later)) : Reached library later

/-- There is order in every session that comes about by plain steps. -/
theorem Reached.orderly {library : Traced Library} (ranked : library.value.Ranked)
    (h : Reached library s) : s.Orderly library.value [] := by
  induction h with
  | start => exact orderly_start library
  | step _ plain hs ih => exact ih.step ranked plain hs

end Session

end ComponentView
