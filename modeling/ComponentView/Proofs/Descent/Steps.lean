import ComponentView.Proofs.Descent.Session
import Mathlib.Logic.Function.Basic

/-! # Steps go down

Every step leaves a graded session graded and asks for no instance that is held, if what it puts into
pools, publishes and mounts by hand keeps to the ranks (`Step.Descends`, `Step.perform_sinks`). -/

namespace ComponentView

variable {rank : DefinitionId → ℕ} {lib : Library} {st : Stage rank} {α β γ : Type}

/-! ## What is asked for -/

/-- Clearing a pool destroys the spare instances of a definition. -/
theorem Run.Gives.clearPool (idle : st.Open) (id : DefinitionId) : Run.Sinks lib st (clearPool id) := by
  unfold Run.clearPool
  refine .get_bind fun st' w leads _ _ => Gives.bind (Gives.modify fun _ _ _ hw =>
    hw.setPool (List.forall_mem_nil _)) fun _ => ?_
  exact .forM fun i _ => Run.retire_sinks st' .destroy i ((idle.admits i).leads leads)

/-- A step keeps to ranks: what it puts into a pool by hand is of the definition of the pool, a repeater
that it makes is empty, and no instance comes to be mounted on an observable that instances of a smaller
rank publish. -/
def Step.Descends (lib : Library) (rank : DefinitionId → ℕ) (s : Session) : Step → Prop
  | onPool (.release definition target) =>
    ∀ i ∈ s.instances.get? target, s.world.definition? i = some definition
  | onRepeater (.create _ r) => r.Empty
  | onObservable (.member name source _) => ∀ o ∈ s.observables.get? source,
      ∀ m ∈ s.world.mounts, m.source.cell = o.cell → s.world.Beneath lib rank name m.component
  | onMount (.mount _ target source) =>
    ∀ i ∈ s.instances.get? target, ∀ o ∈ s.observables.get? source,
      ∀ e ∈ s.world.published, o.cell = e.2.cell → s.world.Beneath lib rank e.1 i
  | _ => True

section Steps

variable {engine : Engine} (descends : lib.Descends rank) (sinks : engine.Sinks lib rank)

open Work.Sinks

include descends sinks in
/-- A graded session permits all that an engine does for instances whose ranks descend. -/
theorem Work.Sinks.engages : Engages engine (fun _ : Unit => Session.Graded lib rank)
    (fun _ => Session.Cleared lib rank) where
  toPermits := permits
  construct id props controller := onWorld fun _ idle =>
    (Run.construct_sinks sinks descends (idle.low id) props controller).sinks
  acquire id share props controller := onWorld fun _ idle =>
    (Run.acquire_sinks sinks descends (idle.low id) share props controller).sinks
  render _ props controller :=
    hold fun _ _ own => Instance.render_sinks sinks descends own props controller
  update _ := hold fun _ _ own => Instance.update_sinks sinks descends own
  updateWindow _ start stop :=
    hold fun _ _ own => Instance.updateWindow_sinks sinks descends own start stop
  updatePart _ name := hold fun _ _ own => Instance.updatePart_sinks sinks descends own name
  setState _ _ := hold fun _ _ _ => .change fun _ _ _ h => h
  writeState _ path value := hold fun _ _ _ => Handler.writeState_sinks path value
  retire mode i := onWorld fun st idle => Run.retire_sinks st mode i (idle.admits i)

/-- Steps with pools sink where they descend. -/
theorem PoolStep.perform_sinks (step : PoolStep) :
    Ends (fun s => Step.Descends lib rank s (.onPool step) ∧ s.Graded lib rank) step.perform
      (fun _ => Session.Graded lib rank) (Session.Cleared lib rank) := by
  cases step with
  | size definition =>
    have sized : Work.Sinks lib rank (PoolStep.size definition).perform :=
      Preserves.get.bind fun _ => .pure _
    exact .assume fun _ => sized ()
  | clear definition =>
    have cleared : Work.Sinks lib rank (Work.onWorld (Run.clearPool definition)) :=
      onWorld fun _ idle => .clearPool idle definition
    exact .assume fun _ => cleared.bind (fun _ => .pure _) ()
  | release definition target =>
    refine (Work.named_graded fun _ hs => hs.2).bind fun i => Ends.bind ?_ fun _ => .pure fun _ h => h
    refine (Work.onWorld_graded (fun w => w.definition? i = some definition) (fun _ _ => True)
      fun st idle => .pointwise fun w hw => ?_).mono (fun s hs => ⟨hs.2.2, hs.2.1 i hs.1⟩)
        (fun _ _ hs => hs.1) fun _ _ hs => hs
    -- The stage at which the definition of the instance is known.
    have admits : (st.tell hw.1).Admits i := (idle.admits i).leads hw.1.leads
    refine (Retire.giveBack_sinks Run.retire_sinks hw.2 admits _ (.refl _)).mono ?_ (fun _ _ h => ?_)
      fun _ _ h => h.mono fun h => ⟨st.mounted, h.of_leads hw.1.leads⟩
    · rintro _ rfl
      exact hw.1.tell
    · exact ⟨⟨st.mounted, h.2.of_leads hw.1.leads⟩, trivial⟩

/-- A repeater beside the world goes down as its rows rank below everything. -/
theorem Work.beside_sinks {good : Claim α} (pack : α → Repeater) {a : α} {x : Holding α β}
    {target : String} (hx : ∀ st : Stage rank, st.Open → Holding.Sinks lib st good x)
    (is : ∀ known, (pack a).entry.Below rank known ⊤ → good.holds known a)
    (below : ∀ known a, good.holds known a → (pack a).entry.Below rank known ⊤) :
    Ends (fun s => s.repeaters.get? target = some (pack a) ∧ s.Graded lib rank)
      (beside a x fun a s => { s with repeaters := s.repeaters.set target (pack a) })
      (fun _ => Session.Graded lib rank) (Session.Cleared lib rank) := by
  rintro s ⟨there, st, hs⟩
  obtain ⟨n, hn, -⟩ := NameTable.exists_position there
  have run := hx st hs.idle st (.refl _) ⟨a, s.world⟩
    ⟨good.steady hs.world.known (is _ (hs.repeaters _ (List.mem_of_getElem? hn))), hs.world⟩
  have back {f : Focus α} (hf : f.Graded lib st good) : Session.Graded lib rank { s with
      world := f.world, repeaters := s.repeaters.set target (pack f.held) } := by
    refine ⟨st.tell hf.2, hs.library, ⟨hs.idle.busy, hs.idle.bound, hs.idle.running⟩, hf.2.tell,
      fun e he => ?_⟩
    rcases NameTable.mem_set he with he | rfl
    · exact (hs.repeaters e he).grows hf.2.known
    · exact below _ _ hf.1
  unfold beside
  cases hr : x ⟨a, s.world⟩ with
  | ok b f =>
    rw [hr] at run
    exact back run.2
  | error stop f =>
    rw [hr] at run
    exact cleared_of_sinking (P := fun _ => f.Graded lib st good) (w := f.world) run back

include sinks in
/-- Steps with repeaters sink where they descend. -/
theorem RepeaterStep.perform_sinks (step : RepeaterStep) :
    Ends (fun s => Step.Descends lib rank s (.onRepeater step) ∧ s.Graded lib rank)
      (step.perform engine) (fun _ => Session.Graded lib rank) (Session.Cleared lib rank) := by
  have view (target : String) : Work.Sinks lib rank (perform.view target) :=
    permits.viewNamedRepeater target
  cases step with
  | create name r =>
    refine Ends.bind (Q := fun _ => Session.Graded lib rank) (.modify fun s hs => ?_) fun _ =>
      .pure fun _ h => h
    obtain ⟨empty, st, hs⟩ := hs
    refine ⟨st, hs.library, hs.idle, hs.world, fun e he => ?_⟩
    rcases NameTable.mem_set he with he | rfl
    · exact hs.repeaters e he
    · exact empty.below _ _
  | patch target container items anchor controller =>
    refine .assume fun _ => (permits.node container ()).bind fun container =>
      (permits.maybeNode anchor ()).bind fun anchor => (Work.named_graded fun _ hs => hs).bind
        fun r => ?_
    cases r with
    | sequential r =>
      exact (Work.beside_sinks .sequential (fun _ idle => Sequential.patch_sinks sinks controller
        (idle.low _) container anchor items) (fun _ h => ⟨rfl, h.2⟩) fun _ _ h =>
          Claim.below_of_sequential h (ENat.natCast_lt_top _)).bind fun _ => view target ()
    | keyed r =>
      exact (Work.beside_sinks .keyed (fun _ idle => Keyed.patch_sinks sinks controller (idle.low _)
        container anchor items) (fun _ h => ⟨rfl, h.2⟩) fun _ _ h =>
          Claim.below_of_keyed h (ENat.natCast_lt_top _)).bind fun _ => view target ()
  | describe target => exact .assume fun _ => view target ()
  | take target position key name =>
    exact .assume fun _ => permits.takeRow target position key name ()

/-- A mount that is there is known at the stage. -/
theorem World.Wired.mounted_of_get {w : World} (h : w.Wired lib st) {id : MountId} {m : Mount}
    (hm : w.mounts[id]? = some m) : st.mounted id = some m.link := by
  rw [← h.mounted_eq id, hm]
  rfl

/-- A mount that is known exists. -/
theorem World.Wired.exists_mount {w : World} (h : w.Wired lib st) {id : MountId}
    {x : InstanceId × Observable} (hx : st.mounted id = some x) : ∃ m ∈ w.mounts, m.link = x := by
  rw [← h.mounted_eq id] at hx
  obtain ⟨m, hm, rfl⟩ := Option.map_eq_some_iff.mp hx
  exact ⟨m, Array.mem_of_getElem? hm, rfl⟩

/-- No mount follows a new cell. -/
theorem World.Graded.addCell {w : World} (h : w.Graded lib st) (value : Value) (tracked : Bool) :
    World.Graded lib st { w with cells := w.cells.push { value, tracked } } :=
  { h with
    follows := fun {c cell id} hc hid => by
      have hc : (w.cells.push { value, tracked })[c]? = some cell := hc
      rw [Array.getElem?_push] at hc
      split at hc
      · obtain rfl := Option.some.inj hc
        cases hid
      · exact h.follows hc hid
    cells := fun hx => by
      show _ < (w.cells.push _).size
      rw [Array.size_push]
      exact (h.cells hx).trans (Nat.lt_succ_self _) }

include sinks in
/-- Steps with observables sink where they descend. -/
theorem ObservableStep.perform_sinks (step : ObservableStep) :
    Ends (fun s => Step.Descends lib rank s (.onObservable step) ∧ s.Graded lib rank)
      (step.perform engine) (fun _ => Session.Graded lib rank) (Session.Cleared lib rank) := by
  have view (source : String) : Work.Sinks lib rank (perform.view source) :=
    permits.viewObservable source
  have alter {α : Type} {st : Stage rank} (idle : st.Open) (o : Observable)
      (f : Value → Value × Option α) : Run.Sinks lib st (o.alter engine f) :=
    o.alter_sinks f (fun _ _ _ _ => .inl idle.bound) sinks
  have nameObservable (name : String) (o : Observable) :
      Ends (fun s => s.Graded lib rank ∧ ∀ m ∈ s.world.mounts, m.source.cell = o.cell →
          s.world.Beneath lib rank name m.component) (perform.nameObservable name o)
        (fun _ => Session.Graded lib rank) (Session.Cleared lib rank) := by
    refine Ends.bind (Q := fun _ => Session.Graded lib rank) (.modify fun s hs => ?_) fun _ =>
      (view name).bind (fun _ => .pure _) ()
    obtain ⟨⟨st, hs⟩, beneath⟩ := hs
    have world : World.Graded lib st { s.world with published := s.world.published.set name o } :=
      { hs.world with
        told := fun he hx same => by
          rcases NameTable.mem_set he with he | rfl
          · exact hs.world.told he hx same
          · obtain ⟨m, hm, rfl⟩ := hs.world.exists_mount hx
            exact beneath m hm same }
    exact ⟨st, hs.library, hs.idle, world, hs.repeaters⟩
  cases step with
  | create name value tracked =>
    have made : Ends (fun s => s.Graded lib rank ∧ True) (Work.onWorld (Observable.new value tracked))
        (fun o s => s.Graded lib rank ∧ ∀ m ∈ s.world.mounts, m.source.cell ≠ o.cell)
        (Session.Cleared lib rank) := by
      refine Work.onWorld_graded (fun _ => True)
        (fun (o : Observable) w => ∀ m ∈ w.mounts, m.source.cell ≠ o.cell) fun st _ => ?_
      unfold Observable.new
      refine .modifyGet fun w hw => ⟨⟨st.mounted, hw.1.addCell value tracked⟩, fun m hm same => ?_⟩
      obtain ⟨id, hid⟩ := Array.mem_iff_getElem?.mp hm
      exact absurd same (hw.1.cells (hw.1.mounted_of_get hid)).ne
    exact .assume fun _ => (made.pre fun _ hs => ⟨hs, trivial⟩).bind fun o =>
      (nameObservable name o).pre fun s hs => ⟨hs.1, fun m hm same => absurd same (hs.2 m hm)⟩
  | member name source steps =>
    refine (Work.named_graded fun _ hs => hs.2).bind fun o => (nameObservable name _).pre fun s hs => ?_
    exact ⟨hs.2.2, hs.2.1 o hs.1⟩
  | read source => exact .assume fun _ => (view source).bind (fun _ => .pure _) ()
  | write source value =>
    have written (o : Observable) : Work.Sinks lib rank (Work.onWorld (o.set engine value)) :=
      onWorld fun _ idle => (alter idle o _).bind fun _ => .pure trivial
    exact .assume fun _ => (permits.named _ source).bind (fun o => (written o).bind fun _ =>
      (view source).bind fun _ => .pure _) ()
  | push source item =>
    have pushed (o : Observable) : Work.Sinks lib rank (Work.onWorld (o.push engine item)) :=
      onWorld fun _ idle => (alter idle o _).bind fun _ => .pure trivial
    exact .assume fun _ => (permits.named _ source).bind (fun o => (pushed o).bind fun _ =>
      (view source).bind fun _ => .pure _) ()
  | remove source position =>
    have removed (o : Observable) : Work.Sinks lib rank (Work.onWorld (o.remove engine position)) :=
      onWorld fun _ idle => alter idle o _
    exact .assume fun _ => (permits.named _ source).bind (fun o => (removed o).bind fun _ =>
      (view source).bind fun _ => .pure _) ()
  | update source path value =>
    have updated (o : Observable) : Work.Sinks lib rank
        (Work.onWorld (o.update engine fun v => v.set path value)) :=
      onWorld fun _ idle => alter idle o _
    exact .assume fun _ => (permits.named _ source).bind (fun o => (updated o).bind fun _ =>
      (view source).bind fun _ => .pure _) ()

/-- A new mount follows an observable that is published by none above it. -/
theorem World.Graded.addMount {w : World} (h : w.Graded lib st) (idle : st.Open) {m : Mount}
    (there : m.source.cell < w.cells.size)
    (told : ∀ e ∈ w.published, m.source.cell = e.2.cell → w.Beneath lib rank e.1 m.component) :
    World.Graded lib (st.follow (Function.update st.mounted w.mounts.size (some m.link)))
      { w with mounts := w.mounts.push m } := by
  have older {id : MountId} {x : InstanceId × Observable} (hx : st.mounted id = some x) :
      id ≠ w.mounts.size := by
    rintro rfl
    rw [← h.mounted_eq, Array.getElem?_eq_none le_rfl] at hx
    cases hx
  have either {id : MountId} {x : InstanceId × Observable}
      (hx : Function.update st.mounted w.mounts.size (some m.link) id = some x) :
      x = m.link ∨ st.mounted id = some x := by
    rw [Function.update_apply] at hx
    split at hx
    · exact .inl (Option.some.inj hx).symm
    · exact .inr hx
  exact
    { h with
      mounted_eq := fun id => by
        show (w.mounts.push m)[id]?.map Mount.link = Function.update st.mounted _ _ id
        rw [Array.getElem?_push, Function.update_apply]
        split
        · rfl
        · exact h.mounted_eq id
      follows := fun hc hid => by
        obtain ⟨x, hx, same⟩ := h.follows hc hid
        exact ⟨x, (Function.update_of_ne (older hx) _ _).trans hx, same⟩
      cells := fun hx => by
        rcases either hx with rfl | hx
        · exact there
        · exact h.cells hx
      told := fun {e id x} he hx same => by
        rcases either hx with rfl | hx
        · exact told e he same
        · exact h.told he hx same
      waits := fun hid _ => by
        have hid : _ ∈ w.waiting := hid
        rw [h.idle idle.running] at hid
        cases hid }

include sinks in
/-- An instance is mounted on an observable that is published by none above it. -/
theorem Run.mount_sinks (idle : st.Open) (i : InstanceId) (o : Observable) :
    Ends (fun w => w.Graded lib st ∧
        ∀ e ∈ w.published, o.cell = e.2.cell → w.Beneath lib rank e.1 i) (Run.mount engine i o)
      (fun _ w => (∃ mounted, w.Graded lib (st.follow mounted)) ∧ True)
      (Sinking fun w => ∃ mounted, w.Graded lib (st.follow mounted)) := by
  unfold Run.mount
  refine Ends.get.bind fun w => .pointwise fun v hv => ?_
  obtain ⟨rfl, hw, told⟩ := hv
  split
  · next tracked =>
    have there : o.cell < w.cells.size := by
      cases hc : w.cells[o.cell]? with
      | none => simp [hc] at tracked
      | some c => exact (Array.getElem?_eq_some_iff.mp hc).1
    let later := st.follow (Function.update st.mounted w.mounts.size (some (i, o)))
    have noted : Ends (w = ·) (modifyGet fun w =>
        (w.mounts.size, { w with mounts := w.mounts.push { component := i, source := o, due := true } }))
        (fun _ => World.Graded lib later)
        (Sinking fun w => ∃ mounted, w.Graded lib (st.follow mounted)) :=
      .modifyGet (by rintro _ rfl; exact hw.addMount (m := ⟨i, o, true⟩) idle there told)
    refine noted.bind fun id => Ends.bind (Q := fun _ => World.Graded lib later) ?_ fun _ =>
      .pure fun _ hw => ⟨⟨_, hw⟩, trivial⟩
    have scheduled : Sinks lib later (schedule engine id) :=
      schedule_sinks (fun _ _ => .inl idle.bound) sinks
    exact (scheduled later (.refl _)).mono (fun _ hw => hw) (fun _ _ hw => hw.2)
      fun _ _ hw => hw.mono fun hw => ⟨_, hw⟩
  · have ends : Gives lib st Claim.nothing (do
        Run.log .warn "mounting an untracked observable; it will render once"
        renderFrom engine i o
        return (none : Option MountId)) :=
      (Gives.log _ _).bind fun _ => (renderFrom_sinks (.inl idle.bound) o sinks).bind fun _ =>
        .pure trivial
    exact (ends st (.refl _)).mono (by rintro _ rfl; exact hw)
      (fun _ _ hw => ⟨⟨st.mounted, hw.2⟩, trivial⟩) fun _ _ hw => hw.mono fun hw => ⟨st.mounted, hw⟩

include sinks in
/-- Steps with mounts sink where they descend. -/
theorem MountStep.perform_sinks (step : MountStep) :
    Ends (fun s => Step.Descends lib rank s (.onMount step) ∧ s.Graded lib rank)
      (step.perform engine) (fun _ => Session.Graded lib rank) (Session.Cleared lib rank) := by
  cases step with
  | mount name target source =>
    refine (Work.named_graded fun _ hs => hs.2).bind fun i => (Work.named_graded fun _ hs => hs.2.2).bind
      fun o => Ends.bind (Q := fun _ => Session.Graded lib rank) ?_ fun id =>
        (permits.rootOf i).bind (fun root => Preserves.get.bind fun s => ?_) ()
    · exact (Work.onWorld_graded (fun w => ∀ e ∈ w.published, o.cell = e.2.cell →
        w.Beneath lib rank e.1 i) (fun _ _ => True) fun _ idle => Run.mount_sinks sinks idle i o).mono
          (fun s hs => ⟨hs.2.2.2, hs.2.2.1 i hs.2.1 o hs.1⟩) (fun _ _ hs => hs.1) fun _ _ hs => hs
    · dsimp only
      split
      · exact (close _).bind fun _ =>
          (permits.rename (by exact fun _ => ⟨rfl, rfl, rfl⟩)).bind fun _ => .pure _
      · exact (permits.rename (by exact fun _ => ⟨rfl, rfl, rfl⟩)).bind fun _ => .pure _
  | unmount handle =>
    have dismounted (i : InstanceId) :
        Work.Sinks lib rank (Work.onWorld (Run.retire .dismount i)) :=
      onWorld fun st idle => Run.retire_sinks st .dismount i (idle.admits i)
    exact .assume fun _ => (permits.named _ handle).bind (fun h => (close h).bind fun _ =>
      (dismounted h.component).bind fun _ =>
        (permits.rename (by exact fun _ => ⟨rfl, rfl, rfl⟩)).bind fun _ => .pure _) ()
  | drop handle =>
    exact .assume fun _ => (permits.named _ handle).bind (fun h => (close h).bind fun _ =>
      (permits.rename (by exact fun _ => ⟨rfl, rfl, rfl⟩)).bind fun _ => .pure _) ()

include descends sinks in
/-- Every step that keeps to ranks goes down. -/
theorem Step.perform_sinks (step : Step) :
    Ends (fun s => step.Descends lib rank s ∧ s.Graded lib rank) (step.perform engine)
      (fun _ => Session.Graded lib rank) (Session.Cleared lib rank) := by
  cases step with
  | onInstance step =>
    exact .assume fun _ => (Work.Sinks.engages descends sinks).performInstance step ()
  | onPool step => exact step.perform_sinks
  | onNode step =>
    have dispatched (i : NodeId) (event : String) (value : Value) :
        Work.Sinks lib rank (Work.onWorld (Run.dispatch engine i event value)) :=
      onWorld fun _ idle => Run.dispatch_sinks descends i value
        (fun _ _ _ => idle.bound ▸ le_top) sinks
    exact .assume fun _ => permits.performNode dispatched step ()
  | onDocument step =>
    refine .assume fun _ => permits.performDocument close (fun _ s hs => ?_) step ()
    obtain ⟨st, hs⟩ := hs
    exact ⟨st, hs.library, hs.idle, hs.world, List.forall_mem_nil _⟩
  | onTracker step => exact .assume fun _ => permits.performTracker step ()
  | onRepeater step => exact step.perform_sinks sinks
  | onObservable step => exact step.perform_sinks sinks
  | onMount step => exact step.perform_sinks sinks

end Steps

end ComponentView
