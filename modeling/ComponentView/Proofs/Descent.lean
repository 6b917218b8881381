import ComponentView.Proofs.Descent.Steps

/-! # Nobody waits for an instance that is held

An instance is held while it is updated and while one of its handlers runs, and whoever enters it then
stops the run. Handlers and mounts look first: whatever runs, they leave a held instance alone and say so
in the log (`Run.handle_of_busy`, `Run.renderFrom_of_busy`). Nested children and the rows of repeaters are
entered without looking. Where the definitions have ranks, and what an instance raises or publishes does
not go up, they are never held when this happens, in any session (`Session.unclashed_of_descends`). Where a
child writes an observable that its holder is mounted on, they are (`Session.clash_of_console`). -/

namespace ComponentView

/-! ## Held instances are left alone -/

namespace Run

/-- A handler of an instance that is held only leaves a line in the log. -/
theorem handle_of_busy (engine : Engine) (event : Event) {owner : InstanceId} (handler : Handler)
    {w : World} (used : w.inUse owner = true) (busy : owner ∈ w.busy) :
    handle engine event owner handler w =
      log .error ("`" ++ event.name ++ "` listener fired during an update of the same instance") w := by
  have got : (get : Run World) w = .ok w w := rfl
  unfold handle
  rw [bind_ok got, if_pos used, if_pos busy]

/-- A mount of an instance that is held only leaves a line in the log. -/
theorem renderFrom_of_busy (engine : Engine) {i : InstanceId} (source : Observable) {w : World}
    (busy : i ∈ w.busy) :
    renderFrom engine i source w =
      log .error "render skipped: component is already being updated" w := by
  have got : (get : Run World) w = .ok w w := rfl
  unfold renderFrom
  rw [bind_ok got, if_pos busy]

end Run

/-! ## Sessions -/

variable {rank : DefinitionId → ℕ} {lib : Library}

namespace Session

/-- The sessions that come about by steps that keep to ranks, some of which may have failed. -/
inductive Descending (library : Traced Library) (rank : DefinitionId → ℕ) : Session → Prop where
  | start : Descending library rank (start library)
  | step {s later : Session} {step : Step} {report : Report} (before : Descending library rank s)
    (keeps : step.Descends library.value rank s) (run : s.step step = .ok (report, later)) :
    Descending library rank later

variable {library : Traced Library} {s later : Session}

/-- A step of a graded session that keeps to ranks. -/
theorem Graded.performs (h : s.Graded lib rank) (descends : lib.Descends rank) {step : Step}
    (keeps : step.Descends lib rank s) :
    Ends (s.keepNamed = ·) (step.perform s.engine) (fun _ => Session.Graded lib rank)
      (Session.Cleared lib rank) := by
  obtain ⟨st, hs⟩ := h
  have engine : s.engine = .nested lib Engine.depthLimit := by
    rw [Session.engine, hs.library]
    rfl
  rw [engine]
  refine (step.perform_sinks descends (Engine.nested_sinks descends _)).pre ?_
  rintro _ rfl
  exact ⟨keeps, st, hs.quiet rfl rfl rfl rfl rfl (.refl _) rfl⟩

/-- A session that descends is graded. -/
theorem Descending.graded (h : s.Descending library rank) (descends : library.value.Descends rank) :
    s.Graded library.value rank := by
  induction h with
  | start => exact graded_start library
  | step _ keeps run ih =>
    have performed := ih.performs descends keeps _ rfl
    have forgets {s : Session} (h : s.Graded library.value rank) : Session.Graded library.value rank
        { s with world := { s.world with journal := [] } } := by
      obtain ⟨st, hs⟩ := h
      exact ⟨st, hs.quiet rfl rfl rfl rfl rfl (.refl _) rfl⟩
    obtain ⟨after, rfl, ⟨reply, -, hx⟩ | ⟨refusal, o, -, given, hx⟩⟩ := of_step run
    · rw [hx] at performed
      exact forgets performed
    · rw [hx] at performed
      exact forgets (performed.2 given)

/-- Let the definitions of a library have ranks that go down from a definition to those it refers to,
and do not go up to those that listen for what it raises. In every session of which the steps keep to
these ranks, no further step that does so asks for an instance that is held, whatever is nested in what,
however long handlers and mounts go on setting each other off, and whether or not they fail. And where a
handler or a mount comes upon an instance that is held, whatever the library and the session, it is
passed over with a line in the log, and the run goes on. -/
theorem unclashed_of_descends (descends : library.value.Descends rank)
    (h : s.Descending library rank) :
    (∀ step : Step, step.Descends library.value rank s → ∀ i,
      s.step step ≠ .error (.abort (.alreadyHeld i))) ∧
      ∀ (engine : Engine) (w : World) (i : InstanceId), i ∈ w.busy →
        (∀ event handler, w.inUse i = true → Run.handle engine event i handler w = Run.log .error
          ("`" ++ event.name ++ "` listener fired during an update of the same instance") w) ∧
        ∀ source, Run.renderFrom engine i source w =
          Run.log .error "render skipped: component is already being updated" w := by
  refine ⟨fun step keeps i stopped => ?_, fun engine w i busy =>
    ⟨fun event handler used => Run.handle_of_busy engine event handler used busy,
      fun source => Run.renderFrom_of_busy engine source busy⟩⟩
  have performed := (h.graded descends).performs descends keeps _ rfl
  unfold Session.step at stopped
  cases hx : step.perform s.engine s.keepNamed with
  | ok reply after =>
    rw [hx] at stopped
    cases stopped
  | error o after =>
    rw [hx] at performed stopped
    cases o with
    | abort cause =>
      obtain rfl := Breakdown.abort.inj (Except.error.inj stopped)
      exact performed.1 ⟨i, rfl⟩
    | fault cause => cases stopped
    | noNode => cases stopped
    | unknownName name => cases stopped

/-! A dial writes an observable when it is turned. It is nested in a console. Rendering a gauge from the
observable leaves the dial alone, and rendering the console does not. -/

/-- A session that descends does so after another step that does. -/
theorem Descending.after (h : s.Descending library rank) (step : Step)
    (keeps : step.Descends library.value rank s) : (s.after step).Descending library rank := by
  unfold Session.after
  cases hs : s.step step with
  | ok r => exact h.step keeps hs
  | error e => exact h

def dialDeclaration : Declaration where
  id := "dial"
  name := "dial"
  origin := .root ⟨{ kind := .element "button"
                     listeners := [⟨"click", .publish "model" (.map [("label", .str "new")])⟩] }, []⟩ {}

def consoleDeclaration : Declaration where
  id := "console"
  name := "console"
  origin := .root ⟨{ kind := .element "div" }, [
    ⟨{ kind := .element "x-dial", nested := some ⟨0, .prop [.field "label"], none, false⟩ }, []⟩]⟩ {}

def gaugeDeclaration : Declaration where
  id := "gauge"
  name := "gauge"
  origin := .root ⟨{ kind := .element "p", watches := [⟨.prop [.field "label"], .setText⟩] }, []⟩ {}

/-- The library of dials, consoles and gauges. -/
def dialLibrary : Traced Library :=
  (Library.define [dialDeclaration, consoleDeclaration, gaugeDeclaration]).toOption.getD ⟨[], []⟩

/-- A console ranks above its dial, and a gauge below it. -/
def dialRank (id : DefinitionId) : ℕ := [1, 2, 0].getD id 0

/-- A console and a gauge, of which one is mounted on the observable that the dial writes. -/
def dialSession (mounted : String) : Session :=
  let old := Value.map [("label", .str "old")]
  ((((start dialLibrary).after (.onObservable (.create "model" old true))).after
    (.onInstance (.construct "console" 1 old none))).after
      (.onInstance (.construct "gauge" 2 old none))).after
        (.onMount (.mount "mount" mounted "model")) |>.after (.onInstance (.child "console" 0 "dial"))

/-- The dial is turned. -/
def turn : Step := .onNode (.dispatch (.root "dial") "click" .null)

/-- The console may be mounted on what no dial writes, and the gauge on anything. -/
theorem unclashed_of_gauge :
    dialLibrary.value.Descends dialRank ∧ (dialSession "gauge").Descending dialLibrary dialRank ∧
      (∀ i, (dialSession "gauge").step turn ≠ .error (.abort (.alreadyHeld i))) ∧
      ((dialSession "gauge").step turn).toOption.any
        (fun r => r.1.html.get? "gauge" = some "<p>new</p>") = true := by
  have descends : dialLibrary.value.Descends dialRank :=
    ⟨by decide +kernel, by decide +kernel⟩
  have descending : (dialSession "gauge").Descending dialLibrary dialRank := by
    refine ((((Descending.start.after _ ?_).after _ ?_).after _ ?_).after _ ?_).after _ ?_
    · trivial
    · trivial
    · trivial
    · unfold Step.Descends World.Beneath
      decide +kernel
    · trivial
  exact ⟨descends, descending, (unclashed_of_descends descends descending).1 turn trivial,
    by decide +kernel⟩

/-- Where the console itself is mounted on what its dial writes, it is rendered while a handler of the
dial runs, and asks for the dial. -/
theorem clash_of_console :
    (dialSession "console").step turn = .error (.abort (.alreadyHeld 0)) := by
  have stopped : (match (dialSession "console").step turn with
      | .error b => decide (b = .abort (.alreadyHeld 0))
      | .ok _ => false) = true := by decide +kernel
  cases hs : (dialSession "console").step turn with
  | ok r =>
    rw [hs] at stopped
    cases stopped
  | error b =>
    rw [hs] at stopped
    exact congrArg Except.error (of_decide_eq_true stopped)

end Session

end ComponentView
