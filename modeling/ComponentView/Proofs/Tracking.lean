import ComponentView.Proofs.Lasting
import ComponentView.Proofs.SecondUpdate
import ComponentView.Proofs.Writing

/-! # Tracked observables

A component that is mounted on a member of a tracked value is rendered once for each call that writes
the value, at whatever member, and shows its own member then, also where the render fails. A call that
writes nothing tells nobody; all that it can leave behind is the way to a place that was not there
(`Observable.told_of_call`). -/

namespace ComponentView

/-! ## Mounts that have nothing left to do -/

namespace World

/-- A cell and a mount of it; the mounts that wait, and whether mounts are being run; nobody is
held. -/
structure Reacts (c : Cell) (id : MountId) (m : Mount) (waiting : List MountId) (running : Bool)
    (w : World) : Prop where
  cell : w.cells[m.source.cell]? = some c
  mount : w.mounts[id]? = some m
  waiting : w.waiting = waiting
  running : w.running = running
  busy : w.busy = []

/-- The instance is there and has the props. -/
def HasProps (w : World) (i : InstanceId) (props : Value) : Prop :=
  ∃ inst, w.instances[i]? = some inst ∧ inst.props = props

variable {w later : World} {c : Cell} {id : MountId} {m : Mount} {waiting : List MountId}
  {running : Bool}

/-- A mount goes on reacting while the world lasts. -/
theorem Reacts.lasts (h : w.Reacts c id m waiting running) (lasts : w.Lasts later) :
    later.Reacts c id m waiting running := by
  obtain ⟨cells, mounts, hw, hr, -⟩ : later.cells = w.cells ∧ later.mounts = w.mounts ∧
      later.waiting = w.waiting ∧ later.running = w.running ∧ later.published = w.published := by
    simpa only [reactive, Prod.mk.injEq] using lasts.reactive
  exact ⟨cells ▸ h.cell, mounts ▸ h.mount, hw.trans h.waiting, hr.trans h.running,
    lasts.busy.trans h.busy⟩

/-- The observable of the mount is a member of the value of the cell. -/
theorem Reacts.read (h : w.Reacts c id m waiting running) :
    w.read m.source = c.value.get m.source.path := by rw [World.read, h.cell]; rfl

/-- A mount that is made due, or not, goes on reacting. -/
theorem Reacts.setDue (h : w.Reacts c id m waiting running) (due : Bool) :
    (w.setDue due id).Reacts c id { m with due } waiting running :=
  ⟨h.cell, by rw [World.setDue, Array.getElem?_modify, if_pos rfl, h.mount]; rfl, h.waiting,
    h.running, h.busy⟩

/-- A mount goes on reacting to its cell as that changes. -/
theorem Reacts.changeCell (h : w.Reacts c id m waiting running) (f : Cell → Cell) :
    World.Reacts (f c) id m waiting running
      { w with cells := w.cells.modify m.source.cell f } :=
  ⟨by rw [Array.getElem?_modify, if_pos rfl, h.cell]; rfl, h.mount, h.waiting, h.running, h.busy⟩

end World

/-! ## Renders of mounts -/

section Engine

variable {lib : Library} {engine : Engine}

/-- What a render leaves is what was there, with the props that it was given also if it fails. -/
structure Engine.Shows (lib : Library) (engine : Engine) : Prop extends Engine.Lasts lib engine where
  shows : ∀ i props controller w, Ends (w = ·) (engine.render i props controller)
    (fun _ v => v.HasProps i props) (Failing fun v => v.HasProps i props)

/-- An instance has the props that it was rendered with last. -/
theorem Run.hold_shows (lasts : engine.Lasts lib) (silent : lib.Silent) (i : InstanceId)
    (props : Value) (controller : Controller) (w : World) :
    Ends (w = ·) (Run.hold i (Instance.render engine props controller))
      (fun _ v => v.HasProps i props) (Failing fun v => v.HasProps i props) := by
  refine Ends.hold (fun _ _ => .of_abort) (fun _ _ => .of_abort) fun v inst hv hi hb => ?_
  subst hv
  have back {f : Focus Instance}
      (hf : (⟨{ inst with props, controller, mounted := true }, { w with busy := i :: w.busy }⟩ :
        Focus Instance).Lasts Instance.besidesPass f) :
      (Run.hold.back i w.busy f).HasProps i props := by
    have there := Nat.lt_of_lt_of_le (Array.getElem?_eq_some_iff.mp hi).1 hf.world.size
    refine ⟨f.held, ?_, congrArg (·.2.1) hf.held⟩
    show (f.world.instances.setIfInBounds i f.held)[i]? = _
    rw [Array.getElem?_setIfInBounds, if_pos rfl, if_pos there]
  refine Ends.bind (Q := fun _ f => f = (⟨{ inst with props, controller, mounted := true },
    { w with busy := i :: w.busy }⟩ : Focus Instance)) (.change ?_) fun _ => ?_
  · intro a v hf
    obtain ⟨rfl, rfl⟩ := Focus.mk.inj hf
    rfl
  · exact (Instance.update_lasts lasts silent _).mono (fun _ h => h.symm) (fun _ _ hf => back hf)
      fun _ _ hf _ _ => back hf

/-- The engines of a silent library show what they are told to. -/
theorem Engine.nested_shows (silent : lib.Silent) (depth : Nat) : (nested lib depth).Shows lib := by
  have lasts := nested_lasts silent
  cases depth with
  | zero => exact { lasts 0 with shows := fun _ _ _ _ _ _ => .of_abort }
  | succ depth =>
    exact { lasts (depth + 1) with
      shows := fun i props controller w => Run.hold_shows (lasts depth) silent i props controller w }

namespace Run

variable (shows : engine.Shows lib) {c : Cell} {id : MountId} {m : Mount} {waiting : List MountId}
  {running : Bool}

include shows

/-- An instance that is rendered from an observable shows it. -/
theorem renderFrom_shows :
    Ends (World.Reacts c id m waiting running) (renderFrom engine m.component m.source)
      (fun _ w => w.Reacts c id m waiting running ∧
        w.HasProps m.component (c.value.get m.source.path)) fun (stop : Stop) _ => stop.GivenUp := by
  refine .pointwise fun w h => ?_
  unfold renderFrom
  refine Ends.get.bind fun v => .pointwise ?_
  rintro _ ⟨rfl, rfl⟩
  rw [if_neg (by rw [h.busy]; exact List.not_mem_nil)]
  refine (Ends.look (fun _ _ => ⟨_, rfl⟩) fun _ _ => ⟨_, rfl⟩).bind fun inst => .pointwise ?_
  rintro _ ⟨-, -, rfl⟩
  rw [h.read]
  have rendered := (shows.render m.component (c.value.get m.source.path) inst.controller w).and
    (shows.shows m.component (c.value.get m.source.path) inst.controller w)
  refine (rendered.attempt_givenUp.pre (by rintro _ rfl; exact ⟨rfl, rfl⟩)).bind fun r => ?_
  cases r with
  | ok stats =>
    exact .pure fun v hv => ⟨h.lasts (hv.1 stats rfl).1, (hv.1 stats rfl).2⟩
  | error fault =>
    refine Ends.pre (P := fun v => w.Lasts v ∧ v.HasProps m.component (c.value.get m.source.path)) ?_
      fun v hv => ⟨(hv.2 fault rfl).1, (hv.2 fault rfl).2 fault rfl⟩
    refine (Ends.definition fun _ _ => ⟨_, rfl⟩).bind fun d => .modify fun v hv => ?_
    exact ⟨h.lasts (hv.2.1.trans (.of_eq rfl rfl rfl rfl)), hv.2.2⟩

/-- A mount that is due shows its observable, and follows the cell from then on. -/
theorem runMount_shows (due : m.due = true) (alone : c.followers.erase id = []) :
    Ends (World.Reacts c id m waiting running) (runMount engine id)
      (fun _ w => w.Reacts { c with followers := [id] } id { m with due := false } waiting running ∧
        w.HasProps m.component (c.value.get m.source.path)) fun (stop : Stop) _ => stop.GivenUp := by
  refine .pointwise fun w h => ?_
  unfold runMount
  refine Ends.get.bind fun v => .pointwise ?_
  rintro _ ⟨rfl, rfl⟩
  simp only [h.mount, due, if_true]
  have undue : Ends (w = ·) (modify fun w => w.setDue false id)
      (fun _ => World.Reacts c id { m with due := false } waiting running)
      fun (stop : Stop) _ => stop.GivenUp := .modify (by rintro _ rfl; exact h.setDue false)
  refine undue.bind fun _ => (renderFrom_shows (m := { m with due := false }) shows).bind fun _ =>
    .modify fun v hv => ⟨?_, hv.2⟩
  have followed := hv.1.changeCell fun c => { c with followers := c.followers.erase id ++ [id] }
  rwa [alone] at followed

/-- The rounds are over when the mount has run. -/
theorem runRounds_shows (due : m.due = true) (alone : c.followers.erase id = []) (rounds : Nat) :
    Ends (World.Reacts c id m [id] running) (runRounds engine (rounds + 2))
      (fun _ w => w.Reacts { c with followers := [id] } id { m with due := false } [] running ∧
        w.HasProps m.component (c.value.get m.source.path)) fun (stop : Stop) _ => stop.GivenUp := by
  refine .pointwise fun w h => ?_
  unfold runRounds
  refine Ends.get.bind fun v => .pointwise ?_
  rintro _ ⟨rfl, rfl⟩
  rw [h.waiting]
  have taken : Ends (w = ·) (modify fun w => { w with waiting := [] })
      (fun _ => World.Reacts c id m [] running) fun (stop : Stop) _ => stop.GivenUp :=
    .modify (by rintro _ rfl; exact ⟨h.cell, h.mount, rfl, h.running, h.busy⟩)
  have ran : Ends (World.Reacts c id m [] running) ([id].forM (runMount engine)) (fun _ w =>
      w.Reacts { c with followers := [id] } id { m with due := false } [] running ∧
        w.HasProps m.component (c.value.get m.source.path)) fun (stop : Stop) _ => stop.GivenUp :=
    (runMount_shows shows due alone).bind fun _ => .pure fun _ h => h
  refine taken.bind fun _ => ran.bind fun _ => .pointwise fun v hv => ?_
  unfold runRounds
  refine Ends.get.bind fun v => .pointwise ?_
  rintro _ ⟨rfl, rfl⟩
  rw [hv.1.waiting]
  exact .pure (by rintro _ rfl; exact hv)

/-- A mount that is scheduled while none is being run runs at once. -/
theorem schedule_shows (due : m.due = true) (alone : c.followers.erase id = []) :
    Ends (World.Reacts c id m [] false) (schedule engine id)
      (fun _ w => w.Reacts { c with followers := [id] } id { m with due := false } [] false ∧
        w.HasProps m.component (c.value.get m.source.path)) fun (stop : Stop) _ => stop.GivenUp := by
  have waits : Ends (World.Reacts c id m [] false)
      (modify fun w => { w with waiting := w.waiting ++ [id] })
      (fun _ => World.Reacts c id m [id] false) fun (stop : Stop) _ => stop.GivenUp :=
    .modify fun w h => ⟨h.cell, h.mount, by rw [h.waiting]; rfl, h.running, h.busy⟩
  refine waits.bind fun _ => .pointwise fun w h => ?_
  refine Ends.get.bind fun v => .pointwise ?_
  rintro _ ⟨rfl, rfl⟩
  rw [h.running]
  have runs : Ends (w = ·) (modify fun w => { w with running := true })
      (fun _ => World.Reacts c id m [id] true) fun (stop : Stop) _ => stop.GivenUp :=
    .modify (by rintro _ rfl; exact ⟨h.cell, h.mount, h.waiting, rfl, h.busy⟩)
  refine runs.bind fun _ => (runRounds_shows shows due alone 998).bind fun _ =>
    .modify fun v hv => ⟨⟨hv.1.cell, hv.1.mount, hv.1.waiting, rfl, hv.1.busy⟩, hv.2⟩

/-- A change is counted once, and the mount shows the value. -/
theorem notify_shows (idle : m.due = false) (follows : c.followers = [id]) :
    Ends (World.Reacts c id m [] false) (notify engine m.source.cell)
      (fun _ w => w.Reacts { c with changes := c.changes + 1 } id m [] false ∧
        w.HasProps m.component (c.value.get m.source.path)) fun (stop : Stop) _ => stop.GivenUp := by
  refine .pointwise fun w h => ?_
  unfold notify
  refine Ends.get.bind fun v => .pointwise ?_
  rintro _ ⟨rfl, rfl⟩
  have fresh : ((w.cells[m.source.cell]?.elim [] Cell.followers).filter fun id => !w.isDue id) =
      [id] := by
    rw [h.cell, Option.elim_some, follows, List.filter_cons_of_pos, List.filter_nil]
    rw [World.isDue, h.mount, Option.elim_some, idle]
    rfl
  rw [fresh]
  have counted := (h.changeCell fun c => { c with changes := c.changes + 1 }).setDue true
  refine Ends.bind (Q := fun _ => World.Reacts { c with changes := c.changes + 1 } id
    { m with due := true } [] false) ?_ fun _ => ?_
  · rintro _ rfl
    exact counted
  · refine Ends.bind ((schedule_shows shows (m := { m with due := true }) rfl ?_).mono
      (fun _ h => h) (fun _ _ h => h) fun _ _ h => h) fun _ => .pure fun w hw => ?_
    · show c.followers.erase id = []
      rw [follows, List.erase_cons_head]
    · have same : { m with due := false } = m := by rw [← idle]
      have same' : ({ c with changes := c.changes + 1, followers := [id] } : Cell) =
          { c with changes := c.changes + 1 } := by rw [← follows]
      rwa [same, same'] at hw

/-- A component that is mounted on a tracked observable shows it. -/
theorem mount_shows {i : InstanceId} {source : Observable} (tracked : c.tracked = true)
    (alone : c.followers = []) {w : World} (hc : w.cells[source.cell]? = some c)
    (waiting : w.waiting = []) (running : w.running = false) (busy : w.busy = []) :
    Ends (w = ·) (Run.mount engine i source)
      (fun r v => ∃ id, r = some id ∧
        v.Reacts { c with followers := [id] } id ⟨i, source, false⟩ [] false ∧
        v.HasProps i (c.value.get source.path)) fun (stop : Stop) _ => stop.GivenUp := by
  unfold Run.mount
  refine Ends.get.bind fun v => .pointwise ?_
  rintro _ ⟨rfl, rfl⟩
  rw [hc, Option.elim_some, if_pos tracked]
  have noted : Ends (w = ·) (modifyGet fun w =>
      (w.mounts.size, { w with mounts := w.mounts.push ⟨i, source, true⟩ }))
      (fun id v => id = w.mounts.size ∧ v.Reacts c w.mounts.size ⟨i, source, true⟩ [] false)
      fun (stop : Stop) _ => stop.GivenUp :=
    .modifyGet (by rintro _ rfl; exact ⟨rfl, hc, by simp, waiting, running, busy⟩)
  refine noted.bind fun id => .assume ?_
  rintro rfl
  refine (schedule_shows (m := ⟨i, source, true⟩) shows rfl (by rw [alone]; rfl)).bind fun _ =>
    .pure fun v hv => ⟨_, rfl, hv⟩

end Run

end Engine

/-! ## Calls -/

namespace Value

/-- What a change that gives no answer leaves is what writing back what is at the place leaves. -/
theorem modifyAt_of_unanswered {α : Type} {f : Value → Value × Option α}
    (hf : ∀ v, (f v).2 = none → (f v).1 = v) {p : Path} {v : Value}
    (h : (v.modifyAt f p).2.join = none) : (v.modifyAt f p).1 = (v.set p (v.get p)).1 := by
  induction p generalizing v with
  | nil => exact hf v h
  | cons s rest ih =>
    rw [modifyAt_cons] at h ⊢
    rw [set_cons, get_cons]
    split at h
    · next admits => rw [if_pos admits, if_pos admits, ← ih h]
    · next admits => rw [if_neg admits, if_neg admits]

end Value

namespace Observable

/-- One of the calls that write an observable. It answers whether it has written. -/
inductive Call (engine : Engine) (o : Observable) : Run Bool → Prop where
  | set (value : Value) : Call engine o (o.set engine value)
  | push (item : Value) : Call engine o (o.push engine item)
  | remove (position : Nat) : Call engine o (Option.isSome <$> o.remove engine position)
  | update {α : Type} (f : Value → Value × α) : Call engine o (Option.isSome <$> o.update engine f)

/-- Every call changes the member by a function that leaves it where it has no answer. -/
theorem Call.exists_alter {engine : Engine} {o : Observable} {x : Run Bool} (h : o.Call engine x) :
    ∃ (α : Type) (f : Value → Value × Option α), (∀ v, (f v).2 = none → (f v).1 = v) ∧
      x = Option.isSome <$> o.alter engine f := by
  cases h with
  | set value => exact ⟨Unit, fun _ => (value, some ()), fun _ hv => (nomatch hv), rfl⟩
  | push item =>
    refine ⟨Unit, pushItem item, fun v hv => ?_, rfl⟩
    cases v <;> first | rfl | cases hv
  | remove position =>
    refine ⟨Value, removeItem position, fun v hv => ?_, rfl⟩
    cases v with
    | list items =>
      cases there : items[position]? with
      | none => simp [removeItem, there]
      | some item => simp [removeItem, there] at hv
    | _ => rfl
  | @update α f =>
    exact ⟨α, fun v => ((f v).1, some (f v).2), fun _ hv => (nomatch hv), rfl⟩

end Observable

/-- The second world comes of the first by calls on members of a cell. -/
inductive World.Writes (engine : Engine) (cell : Nat) (w : World) : World → Prop where
  | nil : Writes engine cell w w
  | call {later latest : World} {o : Observable} {x : Run Bool} {answer : Bool}
      (before : Writes engine cell w later) (call : o.Call engine x) (of : o.cell = cell)
      (run : x later = .ok answer latest) : Writes engine cell w latest

section Engine

variable {lib : Library} {engine : Engine} (shows : engine.Shows lib) {c : Cell} {id : MountId}
  {m : Mount} {w later : World}

include shows

/-- A call that writes counts one change, and the mount shows the value. A call that does not leaves
what writing back what is at its place leaves, and no instance has changed. -/
theorem Observable.Call.leaves {o : Observable} {x : Run Bool} (call : o.Call engine x)
    (ho : o.cell = m.source.cell) (idle : m.due = false) (follows : c.followers = [id])
    (h : w.Reacts c id m [] false) :
    Ends (w = ·) x (fun answer v => ∃ c', v.Reacts c' id m [] false ∧ c'.followers = [id] ∧
      (answer = true → c'.changes = c.changes + 1 ∧ v.HasProps m.component (v.read m.source)) ∧
      (answer = false → c'.changes = c.changes ∧ v.instances = w.instances ∧
        c'.value = (c.value.set o.path (c.value.get o.path)).1))
      fun (stop : Stop) _ => stop.GivenUp := by
  obtain ⟨α, f, hf, rfl⟩ := call.exists_alter
  rw [map_eq_pure_bind]
  refine Ends.bind (Q := fun a v => ∃ c', v.Reacts c' id m [] false ∧ c'.followers = [id] ∧
    (a.isSome = true → c'.changes = c.changes + 1 ∧ v.HasProps m.component (v.read m.source)) ∧
    (a.isSome = false → c'.changes = c.changes ∧ v.instances = w.instances ∧
        c'.value = (c.value.set o.path (c.value.get o.path)).1)) ?_ fun a => .pure fun v hv => hv
  unfold alter
  refine Ends.get.bind fun v => .pointwise ?_
  rintro _ ⟨rfl, rfl⟩
  rw [ho, h.cell]
  dsimp only
  have written : Ends (w = ·) (modify fun w => { w with
        cells := w.cells.modify m.source.cell fun c' =>
          { c' with value := (c.value.modifyAt f o.path).1 } })
      (fun _ v => v.Reacts { c with value := (c.value.modifyAt f o.path).1 } id m [] false ∧
        v.instances = w.instances) fun (stop : Stop) _ => stop.GivenUp :=
    .modify (by rintro _ rfl; exact ⟨h.changeCell fun c' =>
      { c' with value := (c.value.modifyAt f o.path).1 }, rfl⟩)
  refine written.bind fun _ => ?_
  split
  · next unanswered =>
    exact .pure fun v hv => ⟨_, hv.1, follows, nofun, fun _ =>
      ⟨rfl, hv.2, Value.modifyAt_of_unanswered hf unanswered⟩⟩
  · refine Ends.bind ((Run.notify_shows shows (m := m) idle ?_).pre fun v hv => hv.1) fun _ =>
      .pure fun v hv => ⟨_, hv.1, follows, fun _ => ⟨rfl, hv.1.read ▸ hv.2⟩, nofun⟩
    exact follows

/-- Between calls the mount has nothing left to do. -/
theorem World.Writes.reacts (writes : w.Writes engine m.source.cell later) (idle : m.due = false)
    (follows : c.followers = [id]) (h : w.Reacts c id m [] false) :
    ∃ c', later.Reacts c' id m [] false ∧ c'.followers = [id] := by
  induction writes with
  | nil => exact ⟨c, h, follows⟩
  | call before call of run ih =>
    obtain ⟨c', h', follows'⟩ := ih
    obtain ⟨c'', h'', follows'', -⟩ := (call.leaves shows of idle follows' h').of_ok rfl run
    exact ⟨c'', h'', follows''⟩

end Engine

/-- In a library whose effects raise no events and publish nothing, mount a component on a member of a
tracked value, which is what the component shows then, and let any calls on members of the value follow.
A further call that writes counts exactly one change, and the props of the component are the member. A
call that writes nothing counts none; the value is what writing back what is at the place of the call
makes of it, and unless that has changed it the props still are the member if they were before. -/
theorem Observable.told_of_call {lib : Library} (silent : lib.Silent) {depth : Nat}
    {w mounted later latest : World} {i : InstanceId} {source : Observable} {c : Cell}
    (tracked : w.cells[source.cell]? = some c ∧ c.tracked = true ∧ c.followers = [])
    (idle : w.waiting = [] ∧ w.running = false ∧ w.busy = []) {id : Option MountId}
    (mount : Run.mount (.nested lib depth) i source w = .ok id mounted)
    (writes : mounted.Writes (.nested lib depth) source.cell later) {o : Observable} {x : Run Bool}
    (call : o.Call (.nested lib depth) x) (of : o.cell = source.cell) {answer : Bool}
    (run : x later = .ok answer latest) :
    mounted.HasProps i (mounted.read source) ∧
    ∃ before after : Cell, later.cells[source.cell]? = some before ∧
      latest.cells[source.cell]? = some after ∧
      (answer = true → after.changes = before.changes + 1 ∧ latest.HasProps i (latest.read source)) ∧
      (answer = false → after.changes = before.changes ∧
        after.value = (before.value.set o.path (before.value.get o.path)).1 ∧
        (after.value = before.value → later.HasProps i (later.read source) →
          latest.HasProps i (latest.read source))) := by
  have shows := Engine.nested_shows silent depth
  obtain ⟨id', -, h, shown⟩ := (Run.mount_shows shows tracked.2.1 tracked.2.2 tracked.1 idle.1 idle.2.1
    idle.2.2).of_ok rfl mount
  obtain ⟨before, h', follows⟩ := writes.reacts shows (m := ⟨i, source, false⟩) rfl rfl h
  obtain ⟨after, h'', -, wrote, wroteNot⟩ := (call.leaves shows of rfl follows h').of_ok rfl run
  refine ⟨h.read ▸ shown, before, after, h'.cell, h''.cell, wrote, fun unanswered => ?_⟩
  obtain ⟨changes, instances, value⟩ := wroteNot unanswered
  refine ⟨changes, value, fun same shown => ?_⟩
  rw [h''.read, same, ← h'.read]
  obtain ⟨inst, get, props⟩ := shown
  exact ⟨inst, instances ▸ get, props⟩

namespace Session

/-! A label mounted on a member of a tracked value. -/

def labelDeclaration : Declaration where
  id := "label"
  name := "label"
  origin := .root ⟨{ kind := .element "p"
                     watches := [⟨.prop [.field "title"], .setText⟩] }, []⟩ {}

/-- The library of labels. -/
def labelLibrary : Traced Library := (Library.define [labelDeclaration]).toOption.getD ⟨[], []⟩

/-- A label, and a tracked value with nothing in it. -/
def labelSession : Session :=
  ((start labelLibrary).after (.onInstance (.construct "a" 0 .null none))).after
    (.onObservable (.create "m" (.map []) true))

/-- The engine of labels. -/
def labelEngine : Engine := .nested labelLibrary.value 2

/-- The member that the label is mounted on. -/
def labelSource : Observable := ⟨0, [.field "label"]⟩

/-- The member that is written. -/
def labelTitle : Observable := ⟨0, [.field "label", .field "title"]⟩

/-- Writing the title shows it, once. -/
theorem told_of_label :
    ∃ id mounted latest after,
      Run.mount labelEngine 0 labelSource labelSession.world = .ok id mounted ∧
      labelTitle.set labelEngine (.str "b") mounted = .ok true latest ∧
      latest.cells[labelSource.cell]? = some after ∧ after.changes = 1 ∧
      latest.HasProps 0 (latest.read labelSource) ∧
      (latest.read labelSource == .map [("title", .str "b")]) = true := by
  have defined : Library.define [labelDeclaration] = .ok labelLibrary :=
    eq_ok_of_isOk (by decide +kernel) _
  have silent : labelLibrary.value.Silent := Library.silent_of_define defined (by decide +kernel)
  obtain ⟨c, cell, tracked, alone⟩ : ∃ c, labelSession.world.cells[labelSource.cell]? = some c ∧
      c.tracked = true ∧ c.followers = [] := by
    have ok : labelSession.world.cells[labelSource.cell]?.any (fun c =>
        decide (c.tracked = true ∧ c.followers = [])) = true := by decide +kernel
    cases hc : labelSession.world.cells[labelSource.cell]? with
    | none =>
      rw [hc] at ok
      cases ok
    | some c =>
      rw [hc] at ok
      exact ⟨c, rfl, of_decide_eq_true ok⟩
  have idle : labelSession.world.waiting = [] ∧ labelSession.world.running = false ∧
      labelSession.world.busy = [] := by decide +kernel
  have ok : (match Run.mount labelEngine 0 labelSource labelSession.world with
      | .ok _ mounted => match labelTitle.set labelEngine (.str "b") mounted with
        | .ok answer latest => answer &&
            decide (mounted.cells[labelSource.cell]?.map Cell.changes = some 0) &&
            latest.read labelSource == .map [("title", .str "b")]
        | .error _ _ => false
      | .error _ _ => false) = true := by decide +kernel
  split at ok
  · next id mounted mount =>
    split at ok
    · next answer latest run =>
      simp only [Bool.and_eq_true, decide_eq_true_eq] at ok
      obtain ⟨⟨rfl, zero⟩, read⟩ := ok
      have call : labelTitle.Call labelEngine (labelTitle.set labelEngine (.str "b")) := .set _
      obtain ⟨-, before, after, hb, ha, told, -⟩ := Observable.told_of_call silent
        ⟨cell, tracked, alone⟩ idle mount .nil call rfl run
      rw [hb] at zero
      refine ⟨id, mounted, latest, after, mount, run, ha, ?_, (told rfl).2, read⟩
      rw [(told rfl).1, Option.some.inj zero]
    · cases ok
  · cases ok

/-- The label mounted on the whole value, and a name for the first item of a list in it. -/
def mountedLabel : Session :=
  (labelSession.after (.onMount (.mount "h" "a" "m"))).after
    (.onObservable (.member "x" "m" [.field "items", .index 0]))

/-- A write to an item of a list that is not there writes nothing and counts no change, but the value has
a new member then, and the label does not show it. -/
theorem untold_of_label :
    let write : Step := .onObservable (.write "x" (.str "x"))
    (mountedLabel.world.cells.all fun c => c.value == .map [] && c.changes == 0) = true ∧
      ((mountedLabel.step write).toOption.any fun r => match r.1.outcome with
        | .ok (.written written _) => !written
        | _ => false) = true ∧
      ((mountedLabel.after write).world.cells.all fun c =>
        c.value == .map [("items", .null)] && c.changes == 0) = true ∧
      ((mountedLabel.after write).world.instances.all fun inst => inst.props == .map []) = true := by
  decide +kernel

end Session

end ComponentView
