import ComponentView.Proofs.Cascade

/-! # Spare instances that fail to render

A new instance of which the first update fails is destroyed before the failure goes on. A spare one is
taken out of its pool before it is rendered, and where that fails nobody puts it back or destroys it.
It is lost then (`Session.Lost`): nothing leads to it any more, and its nodes have not been released
(`Session.lost_of_acquire`). -/

namespace ComponentView

/-! ## What an instance in hand has -/

namespace World

variable {L : Reserve} {δ : Deeds} {busy lost hand : List InstanceId} {w : World}
  {i k : InstanceId} {inst : Instance}

/-- The root of an instance that is not destroyed is live. -/
theorem Tidy.live_root (h : w.Tidy L δ busy lost hand) (hi : δ.alive i)
    (get : w.instances[i]? = some inst) : w.document.isLive inst.root = true := by
  rw [← root_of_get get]
  exact h.valid.live (h.node_root hi)

/-- What an instance at rest has at its slots are nodes of its own, and roots of what it holds. -/
theorem Tidy.whose (h : w.Tidy L δ busy lost hand) (hi : δ.alive i) (hb : i ∉ busy)
    (get : w.instances[i]? = some inst) {x : NodeId} (hx : x ∈ inst.elements) :
    (∃ n, δ.node inst.root n = some x) ∨ ∃ k ∈ inst.held, δ.alive k ∧ w.root k = x := by
  obtain ⟨shows, held⟩ := h.shows hi hb get
  obtain ⟨d, hd, fits, -⟩ := (h.orderly.sound get hb).shaped
  obtain ⟨slot, hslot⟩ := List.getElem?_of_mem hx
  -- There are no more slots than entries that have one.
  have hlt : slot < (L.plan inst.definition).layout.owners.length := by
    have := (List.getElem?_eq_some_iff.mp hslot).1
    rwa [fits.elements, (h.draws hd).slots, List.length_map] at this
  obtain ⟨y, hy, whose⟩ := shows.whose (List.getElem?_eq_getElem hlt)
  obtain rfl : y = x := Option.some.inj (hy.symm.trans hslot)
  exact whose.imp id fun ⟨k, hk, root⟩ => ⟨k, hk, held k hk, root⟩

/-- They are live. -/
theorem Tidy.live_elements (h : w.Tidy L δ busy lost hand) (hi : δ.alive i) (hb : i ∉ busy)
    (get : w.instances[i]? = some inst) : ∀ x ∈ inst.elements, w.document.isLive x = true := by
  intro x hx
  obtain ⟨n, own⟩ | ⟨k, -, alive, rfl⟩ := h.whose hi hb get hx
  · exact h.valid.live own
  · exact h.valid.live (h.node_root alive)

/-- Nothing in the tree of an instance is destroyed unless the instance is. -/
theorem Tidy.alive_of_mem_tree (h : w.Tidy L δ [] lost hand) (hi : δ.alive i) (hk : k ∈ w.tree i) :
    δ.alive k := by
  induction hk with
  | refl => exact hi
  | tail _ holds ih =>
    obtain ⟨inst, get, held⟩ := holds
    exact (h.shows ih List.not_mem_nil get).2 _ held

end World

/-! ## Lost instances -/

namespace Session

/-- Nothing leads to the instance: it is in no pool, no instance holds it, and no name means it. But
its root and all that it has at its slots are live, and its root is that of nothing in the pools. -/
structure Lost (s : Session) (i : InstanceId) : Prop where
  unpooled : ∀ id, i ∉ s.world.pool id
  unheld : ∀ {k : InstanceId} {inst : Instance}, s.world.instances[k]? = some inst → i ∉ inst.held
  unnamed : ∀ name, s.instances.get? name ≠ some i
  live : ∃ inst, s.world.instances[i]? = some inst ∧
    s.world.document.isLive inst.root = true ∧
    ∀ x ∈ inst.elements, s.world.document.isLive x = true
  alone : ∀ id, ∀ k ∈ s.world.pool id, ∀ j ∈ s.world.tree k, s.world.root j ≠ s.world.root i

variable {L : Reserve} {hand : List InstanceId} {s later : Session} {id : DefinitionId}
  {i : InstanceId} {rest : List InstanceId}

/-- An instance that is in hand, but goes by no name, is lost. -/
theorem lost_of_hand (named : ∀ e ∈ s.instances, e.2 ∈ hand)
    (neat : s.world.Neat L [] [] (i :: hand)) : s.Lost i := by
  obtain ⟨δ, tidy⟩ := neat
  have alive : δ.alive i := tidy.inHand i (List.mem_cons_self ..)
  -- In hand it is at no other place.
  have inHand : i ∈ s.world.placed (i :: hand) .hand := List.mem_cons_self ..
  have elsewhere {p : Place} (hp : i ∈ s.world.placed (i :: hand) p) : p = .hand :=
    tidy.orderly.spread.apart hp inHand
  have unpooled (id : DefinitionId) : i ∉ s.world.pool id := fun hi =>
    Place.noConfusion (elsewhere (p := .pool id) hi)
  have unheld {k : InstanceId} {inst : Instance} (get : s.world.instances[k]? = some inst) :
      i ∉ inst.held := by
    intro hi
    have atRest : k ∉ s.world.busy := by
      rw [tidy.orderly.busy_eq]
      exact List.not_mem_nil
    have listed : s.world.placed (i :: hand) (.stash k) = inst.held :=
      World.mem_placed_stash atRest get
    exact Place.noConfusion (elsewhere (listed ▸ hi))
  refine ⟨unpooled, unheld, fun name hi => ?_, ?_, fun id k hk j hj same => ?_⟩
  · obtain ⟨n, hn, -⟩ := NameTable.exists_position hi
    exact (List.nodup_cons.mp tidy.nodup_hand).1 (named _ (List.mem_of_getElem? hn))
  · obtain ⟨inst, get, -⟩ := tidy.owner alive
    exact ⟨inst, get, tidy.live_root alive get, tidy.live_elements alive List.not_mem_nil get⟩
  · obtain rfl := tidy.apart (tidy.alive_of_mem_tree (tidy.pooled hk) hj) alive same
    rcases Relation.ReflTransGen.cases_tail hj with rfl | ⟨b, -, inst, get, held⟩
    · exact unpooled id hk
    · exact unheld get held

end Session

/-! ## Acquiring a spare instance -/

section Acquire

variable {engine : Engine} (orderly : engine.Orderly) (tidies : engine.Tidies) {L : Reserve}
  {busy lost hand : List InstanceId} (hl : L.library = engine.library) {id : DefinitionId}
  {i : InstanceId} {rest : List InstanceId}

/-- The spare instance returned last is the one that comes into hand. -/
theorem Run.popPool_fresh {E : Stop → World → Prop} :
    Ends (fun w => w.pool id = i :: rest ∧ w.Neat L busy lost hand) (popPool id)
      (fun spare w => spare = some i ∧ w.Fresh L busy lost hand id i) E := by
  have first : Ends (fun w => w.pool id = i :: rest) (popPool id) (fun spare _ => spare = some i)
      E := .modifyGet fun w hp => by rw [hp]
  refine (first.and (popPool_tidy (E := E) id)).mono (fun _ h => h) (fun spare w h => ?_)
    fun _ _ h => h.1
  obtain ⟨rfl, fresh, -⟩ := h
  exact ⟨rfl, fresh i rfl⟩

include orderly tidies hl

/-- If there is a spare instance, it is the one that is acquired; and also if that fails it has come
into hand. -/
theorem Run.acquire_fresh (props : Value) (controller : Controller) :
    Ends (fun w => w.pool id = i :: rest ∧ w.Neat L busy lost hand)
      (acquire engine id true props controller)
      (fun j w => j = i ∧ w.Fresh L busy lost hand id i)
      (Failing (World.Fresh L busy lost hand id i)) := by
  unfold acquire
  refine Ends.bind (Q := fun _ w => w.pool id = i :: rest ∧ w.Neat L busy lost hand)
    ((Ends.definition fun _ _ => .of_abort).post fun _ _ h => h.2) fun d => ?_
  dsimp only
  rw [if_pos rfl]
  refine popPool_fresh.bind fun spare => .assume ?_
  rintro rfl
  exact (reuse_fresh orderly tidies hl _ props controller).mono (fun _ h => h) (fun _ _ h => h)
    fun _ _ h => h.mono And.right

open Session in
/-- A step that fails to acquire a spare instance has lost it. -/
theorem InstanceStep.acquire_lost (name : String) (props : Value) (controller : Controller) :
    Ends (fun s => s.world.pool id = i :: rest ∧ s.Neat L hand)
      ((InstanceStep.acquire name id true props controller).perform engine) (fun _ _ => True)
      (Hindered fun s => s.Lost i) := by
  have acquired : Ends (fun w => w.pool id = i :: rest ∧ w.Neat L [] [] hand)
      (Run.acquire engine id true props controller)
      (fun j w => j = i ∧ w.Fresh L [] [] hand id i) (Failing (World.Fresh L [] [] hand id i)) :=
    Run.acquire_fresh orderly tidies hl props controller
  refine Ends.bind ((Work.onWorld_ends (A := fun s => ∀ e ∈ s.instances, e.2 ∈ hand)
    (fun _ h => h) acquired).mono (fun s h => ⟨h.2.named, h.1, h.2.neat⟩) (fun _ _ h => h)
    fun _ s h given => lost_of_hand (h given).1 (h given).2.neat) fun j => ?_
  -- What has been acquired has a root, or the run is given up.
  have rooted : Ends (fun _ => True) (Work.onWorld (Run.rootOf j)) (fun _ _ => True)
      (Hindered fun s => s.Lost i) :=
    (Work.onWorld_ends (A := fun _ => True) (P := fun _ => True) (R := fun _ => False)
      (fun _ h => h) (.rootOf (fun _ _ => .of_abort) fun _ _ => .of_abort)).mono
      (fun _ _ => ⟨trivial, trivial⟩) (fun _ _ _ => trivial) fun _ _ h given => (h given).2.elim
  refine Ends.bind (Q := fun _ _ => True) ?_ fun _ => .pure fun _ h => h
  exact (rooted.pre fun _ _ => trivial).bind fun _ =>
    Ends.bind (Q := fun _ _ => True) (.modify fun _ h => h) fun _ => .pure fun _ h => h

end Acquire

namespace Session

variable {library : Traced Library} {declarations : List Declaration} {s later : Session}
  {report : Report} {refusal : Refusal} {id : DefinitionId} {i : InstanceId} {rest : List InstanceId}

/-- In a library in which watches move no nodes, and write texts only where there is nothing else, take a
session that came about by upkeep, and a definition that has a spare instance. Whatever makes the
acquisition of that instance fail, be it an effect or a repeater of its own or of anything below it, the
instance is lost: it is in no pool any more, and its nodes have not been released. -/
theorem lost_of_acquire (defined : Library.define declarations = .ok library)
    (roots : ∀ d ∈ declarations, d.Roots fun node => node.InPlace ∧ node.WritesLeaves)
    (ranked : library.value.Ranked) (upkept : (start library).Upkept s)
    (spare : s.world.pool id = i :: rest) {name : String} {props : Value} {controller : Controller}
    (run : s.step (.onInstance (.acquire name id true props controller)) = .ok (report, later))
    (failed : report.outcome = .error refusal) : later.Lost i := by
  obtain ⟨plan, drawn⟩ := Library.exists_blueprints defined roots
  obtain ⟨hand, neat⟩ := upkept.tidy (L := .start library.value plan) (secluded_start library) ranked
    (Library.silent_of_inPlace defined roots) (tidy_start fun hd => drawn _ _ hd)
  obtain ⟨orderly, same⟩ := Engine.nested_orderly ranked Engine.depthLimit
  have engine_eq : s.engine = .nested library.value Engine.depthLimit := by
    rw [engine, neat.library]
    rfl
  have before : s.keepNamed.world.pool id = i :: rest ∧
      s.keepNamed.Neat (.start library.value plan) hand :=
    ⟨spare, neat.congr rfl rfl rfl rfl rfl rfl⟩
  obtain ⟨after, rfl, ⟨reply, ok, -⟩ | ⟨_, o, -, given, hx⟩⟩ := of_step run
  · rw [failed] at ok
    cases ok
  · rw [engine_eq] at hx
    have lost : after.Lost i :=
      (InstanceStep.acquire_lost orderly (Engine.nested_tidy ranked Engine.depthLimit) same.symm name
        props controller).of_error before hx given
    -- The journal does not matter.
    exact { lost with }

/-! A wall of panels of lamps. A panel that is not on the wall any more is acquired with a lamp that
fails. -/

/-- A lamp, which fails when it is broken. -/
def lampDeclaration : Declaration where
  id := "lamp"
  name := "lamp"
  origin := .root ⟨{ kind := .element "b"
                     watches := [⟨.prop [.field "broken"], .failWhen "no light"⟩] }, []⟩ {}

/-- A component that shows the members of a list of its props. -/
def frameDeclaration (id : String) (part : DefinitionId) (parts : String) : Declaration where
  id := id
  name := id
  origin := .root ⟨{ kind := .element "div" }, [
    ⟨{ kind := .element "div",
       nested := some ⟨part, .props, some ⟨.prop [.field parts], none, none⟩, false⟩ }, []⟩]⟩ {}

def wallDeclarations : List Declaration :=
  [lampDeclaration, frameDeclaration "panel" 0 "lamps", frameDeclaration "wall" 1 "panels"]

/-- The library of lamps, panels and walls. -/
def wallLibrary : Traced Library := (Library.define wallDeclarations).toOption.getD ⟨[], []⟩

/-- What a panel shows that has one lamp. -/
def panelProps (broken : Bool) : Value :=
  .map [("lamps", .list [.map [("broken", .bool broken)]])]

/-- The wall is built with one panel and cleared. -/
def wallSession : Session :=
  ((start wallLibrary).after
    (.onInstance (.construct "wall" 2 (.map [("panels", .list [panelProps false])]) none))).after
      (.onInstance (.render "wall" (.map [("panels", .list [])]) none))

/-- A panel is to show a lamp that is broken. -/
def misuse : Step := .onInstance (.acquire "panel" 1 true (panelProps true) none)

/-- The spare panel of the wall is lost when it is acquired to show a lamp that is broken. -/
theorem lost_of_wall :
    Library.define wallDeclarations = .ok wallLibrary ∧
      (∀ d ∈ wallDeclarations, d.Roots fun node => node.InPlace ∧ node.WritesLeaves) ∧
      wallLibrary.value.Ranked ∧ (start wallLibrary).Upkept wallSession ∧
      wallSession.world.pool 1 = [1] ∧
      ∃ report later, wallSession.step misuse = .ok (report, later) ∧
        report.outcome = .error (.fault (.effect "no light")) ∧ later.Lost 1 := by
  have defined : Library.define wallDeclarations = .ok wallLibrary :=
    eq_ok_of_isOk (by decide +kernel) _
  have roots : ∀ d ∈ wallDeclarations, d.Roots fun node => node.InPlace ∧ node.WritesLeaves := by
    decide +kernel
  have ranked : wallLibrary.value.Ranked := by decide +kernel
  have upkept : (start wallLibrary).Upkept wallSession :=
    (Upkept.refl.after (.onInstance (.construct ..)) trivial).after (.onInstance (.render ..)) trivial
  have spare : wallSession.world.pool 1 = [1] := by decide +kernel
  have refused : (wallSession.step misuse).toOption.any (fun r => match r.1.outcome with
      | .error refusal => decide (refusal = .fault (.effect "no light"))
      | .ok _ => false) = true := by decide +kernel
  cases run : wallSession.step misuse with
  | error e =>
    rw [run] at refused
    cases refused
  | ok r =>
    rw [run] at refused
    obtain ⟨report, later⟩ := r
    have failed : report.outcome = .error (.fault (.effect "no light")) := by
      cases outcome : report.outcome with
      | ok reply => simp [Except.toOption, outcome] at refused
      | error refusal => simpa [Except.toOption, outcome] using refused
    exact ⟨defined, roots, ranked, upkept, spare, report, later, rfl, failed,
      lost_of_acquire defined roots ranked upkept spare run failed⟩

end Session

end ComponentView
