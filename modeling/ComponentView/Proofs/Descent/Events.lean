import ComponentView.Proofs.Descent.Engine

/-! # Events and observables go down

A handler is held at the rank of its own instance, and a handler or a mount that comes upon an instance
that is held leaves it alone. Mounts that are made due while others are being run wait until these are
done, and are within the bound of the first. So whatever is asked of the engine of a library goes down,
at every depth (`Engine.nested_sinks`). -/

namespace ComponentView

variable {rank : DefinitionId → ℕ} {lib : Library} {st : Stage rank} {engine : Engine}
  (sinks : engine.Sinks lib rank)

/-! ## Events -/

namespace Handler

/-- Writing to the state sinks. -/
theorem writeState_sinks {k : DefinitionId} (path : Path) (value : Value) :
    Holding.Sinks lib st (.ranked rank k) (writeState path value) := by
  refine Holding.Gives.held.bind_known fun st' inst _ own => ?_
  refine Holding.Gives.bind (.change fun _ _ grows _ => ?_) fun _ => .pure trivial
  exact (Claim.ranked rank k).steady grows own

/-- A handler of a definition goes down from an instance of it. -/
theorem run_sinks {k : DefinitionId} (descends : lib.Descends rank) (own : st.bound = rank k)
    {event : Event} {h : Handler} (hears : lib.Hears k event.name h) (sinks : engine.Sinks lib rank) :
    Holding.Sinks lib st (.ranked rank k) (h.run engine event) := by
  have updated : Holding.Sinks lib st (.ranked rank k) (do let _ ← Instance.update engine) :=
    (Instance.update_sinks sinks descends own).bind fun _ => .pure trivial
  obtain ⟨d, hd, l, hl, -, handler⟩ := hears
  cases h with
  | record tag => exact .outside (.record _)
  | fail message => exact .outside .fail
  | write path => exact (writeState_sinks path event.value).bind fun _ => .outside (.record _)
  | increment path =>
    exact Holding.Gives.held.bind fun _ => (writeState_sinks path _).bind fun _ => updated
  | setState =>
    unfold run
    exact .change fun _ _ _ h => h
  | update => exact updated
  | render controller =>
    exact (Instance.render_sinks sinks descends own event.value controller).bind
      fun _ => .pure trivial
  | updatePart name =>
    exact (Instance.updatePart_sinks sinks descends own name).bind fun _ => .pure trivial
  | dispatch name =>
    have raised : name ∈ d.template.raises :=
      List.mem_append_right _ (List.mem_filterMap.mpr ⟨l, hl, by rw [handler]; rfl⟩)
    refine .outside ((sinks.dispatch st event.target name event.value fun k' _ hears => ?_).bind
      fun _ => .record _)
    rw [own]
    exact_mod_cast descends.le_of_raises hd raised hears
  | publish name value =>
    have published : name ∈ d.template.publishes :=
      List.mem_append_right _ (List.mem_filterMap.mpr ⟨l, hl, by rw [handler]; rfl⟩)
    exact .outside ((sinks.publish st name value
      ⟨k, Library.mem_publishers hd published, own.ge⟩).bind fun _ => .record _)
  | dismount => exact Retire.inPlace_sinks Run.retire_sinks .dismount own
  | bind path => exact (writeState_sinks path event.value).bind fun _ => updated

end Handler

namespace Run

/-- A listener does not enter an instance that is held. -/
theorem hear_sinks (descends : lib.Descends rank) {event : Event} {l : Listener}
    (hl : ∀ owner handler, l = .bound owner handler →
      ∃ k, st.known owner = some k ∧ lib.Hears k event.name handler ∧ (rank k : ℕ∞) ≤ st.bound)
    (sinks : engine.Sinks lib rank) : Sinks lib st (l.hear engine event) := by
  cases l with
  | probe tag => exact .record _
  | bound owner handler =>
    obtain ⟨k, hk, hears, le⟩ := hl owner handler rfl
    show Sinks lib st (Run.handle engine event owner handler)
    unfold Run.handle
    refine .get_bind fun st' w leads _ hw => ?_
    split
    · split
      · exact .log _ _
      · next free =>
        have admits : st'.Admits owner :=
          ⟨hw.busy_eq ▸ free, .inr ⟨k, leads.known _ _ hk, leads.bound ▸ le⟩⟩
        have handled : Sinks lib st' (Run.hold owner (handler.run engine event)) :=
          .hold admits fun st'' k' grows own hk' => by
            obtain rfl := Option.some.inj (hk'.symm.trans (grows _ _ (leads.known _ _ hk)))
            exact handler.run_sinks descends own hears sinks
        refine handled.attempt.bind fun r => ?_
        cases r with
        | ok a => exact .pure trivial
        | error fault =>
          exact (Gives.look admits.free).bind fun _ => (Gives.definition _ _).bind fun _ => .log _ _
    · exact .pure trivial

/-- Dispatching an event sinks where those that hear it rank low. -/
theorem dispatch_sinks (descends : lib.Descends rank) (target : NodeId) {name : String}
    (value : Value) (low : ∀ k handler, lib.Hears k name handler → (rank k : ℕ∞) ≤ st.bound)
    (sinks : engine.Sinks lib rank) : Sinks lib st (Run.dispatch engine target name value) := by
  refine .get_bind fun st' w leads known hw => (Gives.forM fun l hl => ?_).bind fun _ => .pure trivial
  obtain ⟨x, hx, rfl⟩ := List.mem_map.mp hl
  obtain ⟨there, he⟩ := List.mem_filter.mp hx
  refine hear_sinks descends (fun owner handler hb => ?_) sinks
  obtain ⟨event, l⟩ := x
  obtain rfl : event = name := of_decide_eq_true he
  obtain rfl : l = .bound owner handler := hb
  obtain ⟨k, hk, hears⟩ := hw.heard there
  exact ⟨k, known ▸ hk, hears, leads.bound ▸ low k handler hears⟩

/-! ## Mounts -/

/-- An instance that is held is not rendered. -/
theorem renderFrom_sinks {i : InstanceId} (low : st.known.UpTo rank st.bound i)
    (source : Observable) (sinks : engine.Sinks lib rank) :
    Sinks lib st (renderFrom engine i source) := by
  unfold Run.renderFrom
  refine .get_bind fun st' w leads _ hw => ?_
  split
  · exact .log _ _
  · next free =>
    have admits : st'.Admits i := ⟨hw.busy_eq ▸ free, leads.bound ▸ low.grows leads.known⟩
    refine (Gives.look admits.free).bind fun inst =>
      (sinks.render st' i _ inst.controller admits).attempt.bind fun r => ?_
    cases r with
    | ok stats => exact .pure trivial
    | error fault => exact (Gives.definition _ _).bind fun _ => .log _ _

end Run

/-- Whether a mount is due does not matter. -/
theorem World.Graded.setDue {w : World} (h : w.Graded lib st) (due : Bool) (id : MountId) :
    (w.setDue due id).Graded lib st :=
  { h with
    mounted_eq := fun other => by
      rw [← h.mounted_eq other, World.setDue, Array.getElem?_modify]
      split
      · cases w.mounts[other]? <;> rfl
      · rfl }

/-- A cell changes, and comes to be followed by none but its own mounts. -/
theorem World.Graded.changeCell {w : World} (h : w.Graded lib st) {c : Nat} {f : Cell → Cell}
    (hf : ∀ cell : Cell, w.cells[c]? = some cell → ∀ id ∈ (f cell).followers, id ∈ cell.followers ∨
      ∃ x, st.mounted id = some x ∧ x.2.cell = c) :
    World.Graded lib st { w with cells := w.cells.modify c f } :=
  { h with
    follows := fun {c' cell id} hc hid => by
      have hc : (w.cells.modify c f)[c']? = some cell := hc
      rw [Array.getElem?_modify] at hc
      split at hc
      · next he =>
        subst he
        obtain ⟨old, ho, rfl⟩ := Option.map_eq_some_iff.mp hc
        exact (hf old ho id hid).elim (h.follows ho) fun own => own
      · exact h.follows hc hid
    cells := fun hx => by
      show _ < (w.cells.modify c f).size
      rw [Array.size_modify]
      exact h.cells hx }

namespace Run

/-- A mount of which the instance does not rank above the bound runs. -/
theorem runMount_sinks {id : MountId}
    (low : ∀ x, st.mounted id = some x → st.known.UpTo rank st.bound x.1)
    (sinks : engine.Sinks lib rank) : Sinks lib st (runMount engine id) := by
  unfold Run.runMount
  refine .get_bind fun st' w leads _ hw => ?_
  split
  · exact .pure trivial
  · next m hm =>
    have mounted : st'.mounted id = some m.link := by rw [← hw.mounted_eq id, hm]; rfl
    have low : st'.known.UpTo rank st'.bound m.component := by
      rw [leads.bound]
      exact (low m.link (leads.mounted ▸ mounted)).grows leads.known
    split
    · refine Gives.bind (Gives.modify fun _ _ _ hw => hw.setDue false id) fun _ =>
        (renderFrom_sinks low m.source sinks).bind fun _ => .modify fun st'' w leads' hw =>
          hw.changeCell fun cell _ other hm => ?_
      rcases List.mem_append.mp hm with hm | hm
      · exact .inl (List.mem_of_mem_erase hm)
      · exact .inr ⟨m.link, by rw [List.mem_singleton.mp hm, leads'.mounted, mounted], rfl⟩
    · exact .pure trivial

/-- The rounds end only when nothing waits, and what they come upon is within the bound. -/
theorem runRounds_sinks (rounds : Nat) (all : st.rounds = st.bound) (sinks : engine.Sinks lib rank) :
    Ends (World.Graded lib st) (runRounds engine rounds)
      (fun _ w => w.waiting = [] ∧ w.Graded lib st) (Sinking (World.Graded lib st)) := by
  induction rounds generalizing st with
  | zero => exact .throw fun _ _ => .of_abort nofun
  | succ rounds ih =>
    unfold Run.runRounds
    refine Ends.get.bind fun w => .pointwise fun v hv => ?_
    obtain ⟨rfl, hw⟩ := hv
    split
    · next empty => exact .pure (by rintro _ rfl; exact ⟨empty, hw⟩)
    · have taken : Sinks lib (st.tell hw) (modify fun w => { w with waiting := [] }) :=
        .modify fun _ _ _ h => { h with idle := fun _ => rfl, waits := fun hid => nomatch hid }
      have ran : Sinks lib (st.tell hw) (w.waiting.forM (runMount engine)) :=
        .forM fun id hid => runMount_sinks (fun x hx => by
          have := hw.waits hid hx
          rwa [all] at this) sinks
      have onward : (st.tell hw).rounds = (st.tell hw).bound := all
      refine Ends.mono (Ends.bind (taken _ (.refl _)) fun _ =>
        Ends.bind ((ran _ (.refl _)).pre fun _ (h : _ ∧ World.Graded lib _ _) => h.2) fun _ =>
          (ih onward).pre fun _ (h : _ ∧ World.Graded lib _ _) => h.2)
        ?_ (fun _ _ h => ⟨h.1, h.2.of_leads hw.leads⟩) fun _ _ h => h.mono fun h => h.of_leads hw.leads
      rintro _ rfl
      exact hw.tell

/-- Mounts that are run may be given up, but do not fail. -/
theorem runRounds_givenUp (engine : Engine) (rounds : Nat) :
    Ends (fun _ => True) (runRounds engine rounds) (fun _ _ => True)
      fun (stop : Stop) _ => stop.GivenUp := by
  have rendered (i : InstanceId) (source : Observable) :
      Ends (fun _ => True) (renderFrom engine i source) (fun _ _ => True)
        fun (stop : Stop) _ => stop.GivenUp := by
    unfold renderFrom
    refine Ends.get.bind fun w => ?_
    split
    · exact .modify fun _ _ => trivial
    · refine (Ends.look (fun _ _ => ⟨_, rfl⟩) fun _ _ => ⟨_, rfl⟩).bind fun inst =>
        (Ends.attempt_givenUp (.trivially _)).bind fun r => ?_
      cases r with
      | ok stats => exact .pure fun _ _ => trivial
      | error fault =>
        exact (Ends.definition fun _ _ => ⟨_, rfl⟩).bind fun d => .modify fun _ _ => trivial
  induction rounds with
  | zero => exact .throw fun _ _ => ⟨_, rfl⟩
  | succ rounds ih =>
    unfold runRounds
    refine Ends.get.bind fun w => ?_
    split
    · exact .pure fun _ _ => trivial
    · refine Ends.bind (.modify fun _ _ => trivial) fun _ => Ends.bind (.forM fun id _ => ?_) fun _ => ih
      unfold runMount
      refine Ends.get.bind fun w => ?_
      split
      · exact .pure fun _ _ => trivial
      · split
        · exact Ends.bind (.modify fun _ _ => trivial) fun _ => (rendered _ _).bind fun _ =>
            .modify fun _ _ => trivial
        · exact .pure fun _ _ => trivial

/-- A mount of which the instance does not rank above the bound is let wait, or the rounds start. -/
theorem schedule_sinks {id : MountId}
    (low : ∀ x, st.mounted id = some x → st.known.UpTo rank st.bound x.1)
    (sinks : engine.Sinks lib rank) : Sinks lib st (schedule engine id) := by
  intro now leads
  have low : ∀ w : World, w.Graded lib now → ∀ x, now.mounted id = some x →
      Knowledge.UpTo rank w.definition? now.bound x.1 := fun w hw x hx => by
    rw [leads.bound]
    exact ((low x (leads.mounted ▸ hx)).grows leads.known).grows hw.known
  have joins {w : World} {other : MountId} (h : other ∈ w.waiting ++ [id]) :
      other ∈ w.waiting ∨ other = id := by simpa using h
  unfold Run.schedule
  cases running : now.running with
  | true =>
    have waits : Ends (World.Graded lib now) (modify fun w => { w with waiting := w.waiting ++ [id] })
        (fun _ => World.Graded lib now) (Sinking (World.Graded lib now)) :=
      .modify fun w hw =>
        { hw with
          idle := by rw [running]; nofun
          waits := fun hid hx => by
            rcases joins hid with hid | rfl
            · exact hw.waits hid hx
            · exact (low w hw _ hx).upTo (now.within running) }
    refine waits.bind fun _ => Ends.get.bind fun w => .pointwise fun v hv => ?_
    obtain ⟨rfl, hw⟩ := hv
    rw [hw.running_eq, running]
    exact .pure (by rintro _ rfl; exact ⟨trivial, hw⟩)
  | false =>
    let inner : Stage rank :=
      { now with running := true, rounds := now.bound, within := fun _ => le_rfl }
    have waits : Ends (World.Graded lib now) (modify fun w => { w with waiting := w.waiting ++ [id] })
        (fun _ w => w.running = false ∧ World.Graded lib inner { w with running := true })
        (Sinking (World.Graded lib now)) :=
      .modify fun w hw => ⟨hw.running_eq.trans running,
        { hw with
          running_eq := rfl
          idle := nofun
          waits := fun {other x} hid hx => by
            rcases joins hid with hid | rfl
            · rw [hw.idle running] at hid
              cases hid
            · exact low w hw _ hx }⟩
    have ended {w : World} (hw : w.Graded lib inner) (empty : w.waiting = []) :
        World.Graded lib now { w with running := false } :=
      { hw with
        running_eq := running.symm
        idle := fun _ => empty
        waits := fun hid => by
          have hid : _ ∈ w.waiting := hid
          rw [empty] at hid
          cases hid }
    have ran : Ends (World.Graded lib inner) (runRounds engine roundLimit)
        (fun _ w => w.waiting = [] ∧ w.Graded lib inner) (Sinking (World.Graded lib inner)) :=
      runRounds_sinks roundLimit rfl sinks
    have rounds := ran.and (runRounds_givenUp engine roundLimit)
    refine waits.bind fun _ => Ends.get.bind fun w => .pointwise fun v hv => ?_
    obtain ⟨rfl, idle, hw⟩ := hv
    rw [idle]
    have begins : Ends (w = ·) (modify fun w => { w with running := true })
        (fun _ => World.Graded lib inner) (Sinking (World.Graded lib now)) :=
      .modify (by rintro _ rfl; exact hw)
    refine begins.bind fun _ => Ends.bind (rounds.mono (fun _ h => ⟨h, trivial⟩) (fun _ _ h => h.1)
      fun _ _ h => ⟨h.1.1, .of_givenUp h.2⟩) fun _ => .modify fun w h => ⟨trivial, ended h.2 h.1⟩

/-- The followers of a cell run, if their instances do not rank above the bound. -/
theorem notify_sinks {c : Nat}
    (low : ∀ id x, st.mounted id = some x → x.2.cell = c → st.known.UpTo rank st.bound x.1)
    (sinks : engine.Sinks lib rank) : Sinks lib st (notify engine c) := by
  have marked (ids : List MountId) {st' : Stage rank} {w : World} (h : w.Graded lib st') :
      (ids.foldl (World.setDue · true) w).Graded lib st' := by
    induction ids generalizing w with
    | nil => exact h
    | cons id ids ih => exact ih (h.setDue true id)
  unfold Run.notify
  refine .get_set_bind (fun st' w _ hw => marked _ (hw.changeCell fun cell _ _ h => .inl h))
    fun st' w leads hw => .forM fun id hid => schedule_sinks (fun x hx => ?_) sinks
  obtain ⟨hid, -⟩ := List.mem_filter.mp hid
  cases hc : w.cells[c]? with
  | none =>
    rw [hc] at hid
    cases hid
  | some cell =>
    rw [hc] at hid
    obtain ⟨y, hy, same⟩ := hw.follows hc hid
    obtain rfl := Option.some.inj (hy.symm.trans hx)
    rw [leads.bound]
    exact (low id _ (leads.mounted ▸ hx) same).grows leads.known

end Run

/-- An observable is changed, if the instances mounted on its cell do not rank above the bound. -/
theorem Observable.alter_sinks {α : Type} (o : Observable) (f : Value → Value × Option α)
    (low : ∀ id x, st.mounted id = some x → x.2.cell = o.cell → st.known.UpTo rank st.bound x.1)
    (sinks : engine.Sinks lib rank) : Run.Sinks lib st (o.alter engine f) := by
  unfold Observable.alter
  refine .get_bind fun st' w leads _ _ => ?_
  split
  · exact .pure trivial
  · dsimp only
    refine Run.Gives.bind (Run.Gives.modify fun _ _ _ hw => hw.changeCell fun cell _ _ h => .inl h)
      fun _ => ?_
    split
    · exact .pure trivial
    · exact ((Run.notify_sinks low sinks).leads leads).bind fun _ => .pure trivial

/-- Those who publish write no observable on which an instance is mounted that ranks above them. -/
theorem Run.publish_sinks {name : String} (value : Value)
    (low : ∃ k ∈ lib.publishers name, (rank k : ℕ∞) ≤ st.bound) (sinks : engine.Sinks lib rank) :
    Run.Sinks lib st (Run.publish engine name value) := by
  obtain ⟨k, hk, le⟩ := low
  unfold Run.publish
  refine .get_bind fun st' w leads known hw => ?_
  split
  · exact .pure trivial
  · next o ho =>
    obtain ⟨n, hn, -⟩ := NameTable.exists_position ho
    have low : ∀ id x, st'.mounted id = some x → x.2.cell = o.cell →
        st'.known.UpTo rank st'.bound x.1 := fun id x hx same => by
      obtain ⟨k', hk', least⟩ := hw.told (List.mem_of_getElem? hn) hx same
      rw [leads.bound]
      exact .inr ⟨k', known ▸ hk', le_trans (by exact_mod_cast least k hk) le⟩
    have written : Sinks lib st' (o.set engine value) :=
      (o.alter_sinks _ low sinks).bind fun _ => .pure trivial
    exact written.bind fun _ => .pure trivial

namespace Engine

/-- Every engine of a library with ranks goes down, at every depth. -/
theorem nested_sinks (descends : lib.Descends rank) (depth : Nat) :
    (nested lib depth).Sinks lib rank := by
  induction depth with
  | zero =>
    exact ⟨rfl, fun _ _ _ _ _ => .giveUp nofun, fun _ _ _ _ _ _ => .giveUp nofun,
      fun _ _ _ _ _ => .giveUp nofun, fun _ _ _ _ => .giveUp nofun⟩
  | succ depth ih =>
    exact
      { library := rfl
        render := fun st i props controller admits =>
          .hold admits fun _ _ _ own _ => Instance.render_sinks ih descends own props controller
        acquire := fun st id share props controller low =>
          Run.acquire_sinks ih descends low share props controller
        dispatch := fun st target name value low => Run.dispatch_sinks descends target value low ih
        publish := fun st name value low => Run.publish_sinks value low ih }

end Engine

end ComponentView
