import ComponentView.Proofs.Libraries
import ComponentView.Proofs.Ownership.Session

/-! # A second update

If all effects that components declare only write to their nodes, an update that follows right after
another changes nothing but attributes that are written again (`Session.second_update`). This is so
for every instance of every session, whatever has happened before, as long as nobody puts instances
into pools by hand. -/

namespace ComponentView

/-! ## Sound libraries -/

/-- All watches that the declaration compiles only write to their nodes. -/
def Declaration.BuiltIn (d : Declaration) : Prop :=
  match d.origin with
  | .root node _ => node.BuiltIn
  | .base _ => True

instance (d : Declaration) : Decidable d.BuiltIn :=
  match h : d.origin with
  | .root node _ => decidable_of_iff node.BuiltIn (by rw [Declaration.BuiltIn, h])
  | .base _ => isTrue (by rw [Declaration.BuiltIn, h]; trivial)

/-- A library of declarations with such watches is sound. -/
theorem Library.sound_of_define {declarations : List Declaration} {library : Traced Library}
    (h : define declarations = .ok library) (builtIn : ∀ d ∈ declarations, d.BuiltIn) :
    library.value.Sound := by
  have roots : ∀ d ∈ declarations, d.Roots Node.BuiltIn := builtIn
  intro id d hd
  refine templates_of_define ?_ (fun hc good => ?_) h roots hd
  · exact ⟨⟨nofun, nofun, nofun⟩, ⟨nofun, nofun⟩, ⟨nofun, nofun, nofun, .nil⟩⟩
  · exact ⟨Template.wellPlanned_of_compile hc, Template.exactSkips_of_compile hc,
      Template.apart_of_compile hc good⟩

/-! ## Updates from outside -/

/-- An instance that is updated from outside rests, and the report of the update says what is
shown. -/
theorem Run.hold_update_steady {engine : Engine} {frame : Frame} {busy hand : List InstanceId}
    {i : InstanceId} (steady : engine.Steady) (hl : frame.library = engine.library)
    (sound : engine.library.Sound) (hs : ¬ frame.still i) :
    Ends (World.Orderly frame busy hand) (hold i (Instance.update engine))
      (fun stats w => w.Orderly frame busy hand ∧ ∃ inst d, engine.Updated w i inst ∧
        engine.library[inst.definition]? = some d ∧ { stats with effects := 0 } =
          (Setting.ofInstance engine d inst).quiet
            (d.template.window 0 d.template.watches.length))
      (Failing (World.Orderly frame busy hand)) := by
  refine (Ends.hold_housed (S := fun _ => True) (A := fun _ => True) (fun _ => trivial) hs
    (.pointwise fun f hf => ?_)).mono (fun w h => ⟨h, fun _ _ => trivial⟩) (fun _ _ h => h)
      fun _ _ h => h.2
  obtain ⟨housed, -⟩ := hf
  obtain ⟨d, hd, fits, -⟩ := housed.shaped
  have known : engine.library[f.held.definition]? = some d := hl ▸ hd
  refine ((Instance.update_steady steady hl sound housed).and
    (Instance.update_counts known (sound _ d known) fits)).mono ?_ (fun stats later h => ?_)
    fun _ _ h => ⟨trivial, h.1⟩
  · rintro _ rfl
    exact ⟨rfl, rfl, trivial⟩
  · obtain ⟨⟨housed', ⟨p, hp⟩, done⟩, counts⟩ := h
    refine ⟨housed', later.held, d, .of_housed housed' done, ?_, ?_⟩
    · rw [hp]
      exact known
    · rw [counts, hp]
      rfl

namespace Work

variable {α : Type} {s : Session} {name : String} {i : InstanceId}

/-- What goes by a name is found, and the session stays as it is. -/
theorem named_eq (table : Session → NameTable α) {a : α} (h : (table s).get? name = some a) :
    named table name s = .ok a s := by
  unfold named
  rw [bind_ok (rfl : (get : Work Session) s = .ok s s), h]
  rfl

/-- What goes by no name is not found, and the session stays as it is. -/
theorem named_none (table : Session → NameTable α) (h : (table s).get? name = none) :
    named table name s = .error (.unknownName name) s := by
  unfold named
  rw [bind_ok (rfl : (get : Work Session) s = .ok s s), h]
  rfl

/-- Work on a named instance is work on the instance. -/
theorem holding_eq (h : s.instances.get? name = some i) (x : Holding Instance α) :
    holding name x s = onWorld (Run.hold i x) s := by
  unfold holding
  rw [bind_ok (named_eq Session.instances h)]

end Work

namespace Session

variable {engine : Engine} {s later : Session} {target : String} {i : InstanceId}
  {stats : PassStats} {w : World}

/-- A step that updates an instance holds the instance and updates it. -/
theorem perform_update (hi : s.instances.get? target = some i)
    (h : Run.hold i (Instance.update engine) s.world = .ok stats w) :
    (Step.onInstance (.update target)).perform engine s
      = .ok (.stats stats) { s with world := w } := by
  have held : Work.holding target (Instance.update engine) s
      = .ok stats { s with world := w } := by
    rw [Work.holding_eq hi, Work.onWorld, h]
  exact bind_ok held

/-- If such a step reports how the update went, that is how it went. -/
theorem of_perform_update {reply : Reply}
    (h : (Step.onInstance (.update target)).perform engine s = .ok reply later) :
    ∃ i stats w, s.instances.get? target = some i ∧
      Run.hold i (Instance.update engine) s.world = .ok stats w ∧
      reply = .stats stats ∧ later = { s with world := w } := by
  have stopped {o : Obstacle} {t : Session}
      (he : Work.holding target (Instance.update engine) s = .error o t) : False := by
    have := (bind_error he).symm.trans h
    cases this
  cases hi : s.instances.get? target with
  | none => exact (stopped (bind_error (Work.named_none Session.instances hi))).elim
  | some i =>
    cases hx : Run.hold i (Instance.update engine) s.world with
    | ok stats w =>
      have := (perform_update hi hx).symm.trans h
      cases this
      exact ⟨i, stats, w, rfl, hx, rfl, rfl⟩
    | error stop w =>
      refine (stopped (o := Work.obstacle stop) (t := { s with world := w }) ?_).elim
      rw [Work.holding_eq hi, Work.onWorld, hx]

/-- An update that goes well and is repeated at once goes well again, runs no effects for new values
and comes to the same watches. It leaves every instance, every pool and the structure and texts of
the document as they were; only attributes may be written again. -/
theorem second_update {declarations : List Declaration} {library : Traced Library}
    (defined : Library.define declarations = .ok library)
    (builtIn : ∀ d ∈ declarations, d.BuiltIn) (ranked : library.value.Ranked)
    (reached : Reached library s) {report : Report}
    (updated : s.step (.onInstance (.update target)) = .ok (report, later))
    (went : report.outcome = .ok (.stats stats)) :
    ∃ again latest, later.step (.onInstance (.update target)) = .ok (again, latest) ∧
      again.outcome = .ok (.stats { stats with effects := 0 }) ∧
      latest = { later with world := latest.world } ∧ later.keepNamed.world.Alike latest.world := by
  have sound := Library.sound_of_define defined builtIn
  have orderly := reached.orderly ranked
  obtain ⟨steady, library'⟩ := Engine.nested_steady ranked sound Engine.depthLimit
  have engine_eq : s.engine = .nested library.value Engine.depthLimit := by
    rw [engine, orderly.library]
    rfl
  obtain ⟨id, stocks⟩ : ∃ id, s.keepNamed.world.Stocks (.plain library.value) [] [] id s.entries :=
    (orderly.congr rfl rfl rfl rfl rfl : s.keepNamed.Orderly library.value []).stocks
  -- The first update, and what it leaves.
  unfold Session.step at updated
  cases hx : (Step.onInstance (.update target)).perform s.engine s.keepNamed with
  | error o after =>
    rw [hx] at updated
    cases o <;> cases updated <;> cases went
  | ok reply after =>
    rw [hx] at updated
    obtain ⟨i, stats', w, hi, hold, rfl, rfl⟩ := of_perform_update hx
    cases updated
    obtain rfl : stats' = stats := by
      cases went
      rfl
    rw [engine_eq] at hold
    obtain ⟨orderly', inst, d, done, hd, counts⟩ := (Run.hold_update_steady steady
      library'.symm (library' ▸ sound) (fun hs : (Frame.plain library.value).still i => hs)).of_ok
        stocks.orderly hold
    -- The second update, in the world that the session shows then.
    set shown := { s.keepNamed with world := { w with journal := [] } }
    obtain ⟨d', hd', still⟩ := done.update_still (v := shown.keepNamed.world) orderly'
      library'.symm (library' ▸ sound) (fun j _ => by rw [orderly'.busy_eq]; exact List.not_mem_nil)
      fun j _ => ⟨rfl, by
        show j ∉ w.busy
        rw [orderly'.busy_eq]
        exact List.not_mem_nil⟩
    obtain rfl := Option.some.inj (hd.symm.trans hd')
    have run := still _ (.refl _)
    cases hy : Run.hold i (Instance.update (.nested library.value Engine.depthLimit))
        shown.keepNamed.world with
    | error stop w' => rw [hy] at run; exact run.elim
    | ok stats'' w' =>
      rw [hy] at run
      obtain ⟨hstats, alike⟩ := run
      have engine_eq' : shown.engine = .nested library.value Engine.depthLimit := engine_eq
      have perform : (Step.onInstance (.update target)).perform _ shown.keepNamed = _ :=
        perform_update hi hy
      let next := ({ shown.keepNamed with world := w' } : Session).report shown.forms
        (.ok (.stats stats''))
      refine ⟨next.1, next.2, ?_, ?_, rfl, alike.put (.refl _)⟩
      · show shown.step (.onInstance (.update target)) = .ok next
        rw [← engine_eq'] at perform
        unfold Session.step
        rw [perform]
      · show Except.ok (Reply.stats stats'') = .ok (.stats { stats' with effects := 0 })
        rw [hstats, counts]

/-! A board with a title, a note and a row for each item, and the updates after its state is set. -/

/-- A row, which shows its props. -/
def rowDeclaration : Declaration where
  id := "row"
  name := "row"
  origin := .root ⟨{ kind := .element "li" },
    [⟨{ kind := .text "", watches := [⟨.props, .setText⟩] }, []⟩]⟩ {}

/-- A board, which shows its props in a row of their own and its state as a note and a list. -/
def boardDeclaration : Declaration where
  id := "board"
  name := "board"
  origin := .root ⟨{ kind := .element "div" }, [
    ⟨{ kind := .element "h1", nested := some ⟨0, .props, none, true⟩ }, []⟩,
    ⟨{ kind := .text "", watches := [⟨.state [.field "note"], .setText⟩] }, []⟩,
    ⟨{ kind := .element "ul" }, [
      ⟨{ kind := .element "li",
         nested := some ⟨0, .props, some ⟨.state [.field "rows"], none, none⟩, false⟩ }, []⟩]⟩]⟩ {}

/-- The library of rows and boards. -/
def boardLibrary : Traced Library :=
  (Library.define [rowDeclaration, boardDeclaration]).toOption.getD ⟨[], []⟩

/-- The session after a step, or as it was if the step ends it. -/
def after (s : Session) (step : Step) : Session := (s.step step).toOption.elim s (·.2)

/-- A session that was reached stays so after another plain step. -/
theorem Reached.after {library : Traced Library} (h : Reached library s) (step : Step)
    (plain : step.Plain) : Reached library (s.after step) := by
  unfold Session.after
  cases hs : s.step step with
  | ok r => exact h.step plain hs
  | error e => exact h

/-- A board whose state has been set and is not shown yet. -/
def boardSession : Session :=
  (((start boardLibrary).after (.onInstance (.construct "board" 1 (.str "Title") none))).after
    (.onInstance (.setState "board"
      (.map [("note", .str "New"), ("rows", .list [.int 1, .int 2])]))))

/-- An update of the board shows the note and two rows; another update has no effects. -/
theorem second_update_of_board :
    Library.define [rowDeclaration, boardDeclaration] = .ok boardLibrary ∧
      boardLibrary.value.Ranked ∧ Reached boardLibrary boardSession ∧
      ∃ report later again latest,
        boardSession.step (.onInstance (.update "board")) = .ok (report, later) ∧
        report.outcome = .ok (.stats ⟨3, 0, 1, 2⟩) ∧
        later.step (.onInstance (.update "board")) = .ok (again, latest) ∧
        again.outcome = .ok (.stats ⟨3, 0, 0, 2⟩) ∧
        later.keepNamed.world.Alike latest.world := by
  have defined : Library.define [rowDeclaration, boardDeclaration] = .ok boardLibrary := by
    have ok : (Library.define [rowDeclaration, boardDeclaration]).isOk = true := by
      decide +kernel
    unfold boardLibrary
    cases h : Library.define [rowDeclaration, boardDeclaration] with
    | ok library => rfl
    | error e =>
      rw [h] at ok
      cases ok
  have builtIn : ∀ d ∈ [rowDeclaration, boardDeclaration], d.BuiltIn := by decide +kernel
  have ranked : boardLibrary.value.Ranked := by decide +kernel
  have reached : Reached boardLibrary boardSession :=
    (Reached.start.after (.onInstance _) trivial).after (.onInstance _) trivial
  obtain ⟨report, later, updated, went⟩ : ∃ report later,
      boardSession.step (.onInstance (.update "board")) = .ok (report, later) ∧
      report.outcome = .ok (.stats ⟨3, 0, 1, 2⟩) := by
    have ok : (match boardSession.step (.onInstance (.update "board")) with
        | .ok (⟨.ok (.stats stats), _, _, _, _, _⟩, _) => decide (stats = ⟨3, 0, 1, 2⟩)
        | _ => false) = true := by decide +kernel
    split at ok
    · next stats _ _ _ _ _ later h => exact ⟨_, later, h, by rw [of_decide_eq_true ok]⟩
    · cases ok
  obtain ⟨again, latest, updated', went', -, alike⟩ :=
    second_update defined builtIn ranked reached updated went
  exact ⟨defined, ranked, reached, report, later, again, latest, updated, went, updated', went',
    alike⟩

end Session

end ComponentView
