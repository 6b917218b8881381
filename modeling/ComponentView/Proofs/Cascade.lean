import ComponentView.Proofs.Cascade.Retire
import ComponentView.Proofs.Containers
import ComponentView.Proofs.OnePlace
import ComponentView.Proofs.Tight
import Mathlib.Data.Set.Card

/-! # What comes back when an instance is dismounted

Below an instance stand instances in instances, nested, held by private repeaters or on loan to shared
ones. When it is dismounted the whole tree is, and all that was on loan anywhere in it comes back: each
instance once, to the pool of its definition, with its root taken out of the document. What was not on
loan stays where it was (`Session.cascade_of_dismount`). -/

namespace ComponentView

namespace World

/-- From `w` to `later` the tree of an instance has been dismounted. What was on loan in it has come
back in front, everything to the pool of its definition, and its roots have been taken out of the
document; nothing else has changed. -/
structure Cascade (i : InstanceId) (w later : World) : Prop where
  tree : ∀ k ∈ w.tree i, later.instances[k]? = w.instances[k]?.map Instance.dismounted
  others : ∀ k ∉ w.tree i, later.instances[k]? = w.instances[k]?
  pools : ∀ id, ∃ back, later.pool id = back ++ w.pool id ∧ back.Nodup ∧
    (∀ j ∈ back, j ∉ w.pool id) ∧ ∀ j, j ∈ back ↔ j ∈ w.loans i ∧ w.definition? j = some id
  document : Document.Parted (w.roots (w.loans i)) w.document later.document

variable {w later : World} {i : InstanceId} {lib : Library}

/-- Once a whole tree is done, it has been dismounted. -/
theorem Cascading.cascade (h : w.Arranged lib)
    (done : w.Cascading [] (w.tree i) (w.loans i) (w.loans i) later) : w.Cascade i later where
  tree := done.past
  others := done.rest
  document := done.document
  pools id := by
    obtain ⟨back, pool, nodup, mem⟩ := done.pools id
    refine ⟨back, pool, nodup, fun j hj => ?_, mem⟩
    obtain ⟨k, -, inst, get, held⟩ := exists_holder_of_mem_loans ((mem j).mp hj).1
    exact h.not_mem_pool get held id

/-- The pool of a definition grows by as many instances as were on loan. -/
theorem Cascade.length_pool (h : w.Cascade i later) (id : DefinitionId) :
    (later.pool id).length =
      (w.pool id).length + {j | j ∈ w.loans i ∧ w.definition? j = some id}.ncard := by
  obtain ⟨back, pool, nodup, -, mem⟩ := h.pools id
  have same : {j | j ∈ w.loans i ∧ w.definition? j = some id} = (back.toFinset : Set InstanceId) :=
    Set.ext fun j => by rw [Finset.mem_coe, List.mem_toFinset, mem]; rfl
  rw [pool, List.length_append, same, Set.ncard_coe_finset, List.toFinset_card_of_nodup nodup,
    Nat.add_comm]

end World

namespace Session

variable {library : Traced Library} {declarations : List Declaration} {own : List InstanceId}
  {s later : Session} {name : String} {i : InstanceId} {inst : Instance}

/-- A session that is fairly reached comes of the first. -/
theorem FairlyReached.comesTo (h : FairlyReached library own s) :
    (Session.start library).ComesTo s := by
  induction h with
  | start => exact .refl
  | step _ _ run ih => exact ih.step run

/-- Between the steps of a session all that instances hold stands in trees. -/
theorem FairlyReached.arranged (h : FairlyReached library own s)
    (defined : Library.define declarations = .ok library)
    (roots : ∀ d ∈ declarations, d.Roots Node.Own) (ranked : library.value.Ranked) :
    s.world.Arranged library.value where
  orderly := by
    obtain ⟨definition, stocks⟩ := (h.orderly ranked).stocks
    exact ⟨_, stocks.orderly⟩
  tight := (h.comesTo.tight (Library.tight_of_elements defined roots)
    (tight_start library)).world

/-- A named instance is dismounted as its tree is. -/
theorem step_dismount (named : s.instances.get? name = some i) {w : World}
    (h : Run.retire .dismount i s.keepNamed.world = .ok () w) :
    ∃ report later, s.step (.onInstance (.dismount name)) = .ok (report, later) ∧
      report.outcome = .ok .done ∧ later.world = { w with journal := [] } := by
  have performed : (Step.onInstance (.dismount name)).perform s.engine s.keepNamed
      = .ok .done { s.keepNamed with world := w } := by
    have named : s.keepNamed.instances.get? name = some i := named
    refine (bind_ok (Work.named_eq Session.instances named)).trans ?_
    refine bind_ok (a := ()) ?_
    rw [Work.onWorld, h]
  unfold Session.step
  rw [performed]
  exact ⟨_, _, rfl, rfl, rfl⟩

/-! ## Roots -/

/-- A session that has an instance has its tree. -/
theorem Has.of_mem_tree (h : s.Has i) {k : InstanceId} (hk : k ∈ s.world.tree i) : s.Has k := by
  induction hk with
  | refl => exact h
  | tail _ holds ih =>
    obtain ⟨inst, get, held⟩ := holds
    exact ih.held get held

/-- In a session that came about by upkeep different instances have different roots. -/
theorem Upkept.eq_of_root (h : (Session.start library).Upkept s)
    (defined : Library.define declarations = .ok library)
    (roots : ∀ d ∈ declarations, d.Roots fun node => node.BuiltIn ∧ node.WritesLeaves)
    (ranked : library.value.Ranked) {j k : InstanceId} (hj : s.Has j) (hk : s.Has k)
    (same : s.world.root j = s.world.root k) : j = k := by
  have inPlace : ∀ d ∈ declarations, d.Roots fun node => node.InPlace ∧ node.WritesLeaves :=
    fun d hd => (roots d hd).imp fun _ good => ⟨good.1.inPlace, good.2⟩
  obtain ⟨plan, drawn⟩ := Library.exists_blueprints defined inPlace
  obtain ⟨hand, -, named, δ, tidy⟩ := h.tidy (L := .start library.value plan)
    (secluded_start library) ranked (Library.silent_of_inPlace defined inPlace)
    (tidy_start fun hd => drawn _ _ hd)
  exact tidy.apart (hj.alive named tidy) (hk.alive named tidy) same

/-! ## Dismounting -/

/-- In a library in which watches only write to their nodes, and write texts only where there is
nothing else, take an instance in a session in which nobody has put held instances into pools by hand.
Dismounting it goes well and dismounts its tree: shared repeaters anywhere in it are empty then, and
what they held has come to the pools, each instance once and with its root taken out of the document.
Nested children and private repeaters hold what they held; all other links in the document are as they
were, and it has as many nodes. If the session came about by upkeep, roots of what is not on loan
stand where they stood. -/
theorem cascade_of_dismount (defined : Library.define declarations = .ok library)
    (roots : ∀ d ∈ declarations, d.Roots fun node => node.BuiltIn ∧ node.WritesLeaves)
    (ranked : library.value.Ranked) (reached : FairlyReached library own s)
    (named : s.instances.get? name = some i) (get : s.world.instances[i]? = some inst) :
    ∃ report later, s.step (.onInstance (.dismount name)) = .ok (report, later) ∧
      report.outcome = .ok .done ∧ s.world.Cascade i later.world ∧
      (∀ id, (later.world.pool id).length = (s.world.pool id).length +
        {j | j ∈ s.world.loans i ∧ s.world.definition? j = some id}.ncard) ∧
      later.world.document.liveCount = s.world.document.liveCount ∧
      ((start library).Upkept s → ∀ k ∈ s.world.tree i, k ∉ s.world.loans i →
        later.world.document.parent? (s.world.root k) = s.world.document.parent? (s.world.root k)) := by
  have own : ∀ d ∈ declarations, d.Roots Node.Own := fun d hd =>
    (roots d hd).imp fun _ good => good.1.own
  have arranged := reached.arranged defined own ranked
  -- The step only notes first which instances are kept from outside.
  have before : s.world.Cascading [] ∅ ∅ ∅ s.keepNamed.world := by
    have := World.Cascading.start s.world
    rw [arranged.tight.busy_eq] at this
    exact { this with }
  have ends := Run.retire_cascades arranged get ∅ ∅ ∅ (fun _ _ hk => hk) _ before
  cases hx : Run.retire .dismount i s.keepNamed.world with
  | error stop w => rw [hx] at ends; exact ends.elim
  | ok _ w =>
    rw [hx] at ends
    obtain ⟨-, done⟩ := ends
    rw [Set.empty_union, Set.empty_union] at done
    have cascade : s.world.Cascade i { w with journal := [] } :=
      World.Cascading.cascade arranged { done with }
    obtain ⟨report, later, run, outcome, world⟩ := step_dismount named hx
    rw [← world] at cascade
    refine ⟨report, later, run, outcome, cascade, cascade.length_pool, cascade.document.liveCount,
      fun upkept k hk stays => cascade.document.rest _ ?_⟩
    -- No root of what is on loan is the root of what is not.
    rintro ⟨j, hj, hroot⟩
    have has : s.Has i := .named named
    have same : s.world.root j = s.world.root k := by rw [World.root, hroot]; rfl
    have := upkept.eq_of_root defined roots ranked
      (has.of_mem_tree (World.loans_subset_tree _ _ hj)) (has.of_mem_tree hk) same
    exact stays (this ▸ hj)

/-! A cabinet with a shelf on top, one aside, shelves of its own, one of them spare, and a shelf that is
on loan. Each shelf has rows on loan and rows of its own. -/

/-- A shelf, which shows two lists of its props. -/
def shelfDeclaration : Declaration where
  id := "shelf"
  name := "shelf"
  origin := .root ⟨{ kind := .element "div" }, [
    ⟨{ kind := .element "ul" }, [
      ⟨{ kind := .element "li",
         nested := some ⟨0, .props, some ⟨.prop [.field "lent"], none, none⟩, false⟩ }, []⟩]⟩,
    ⟨{ kind := .element "ol" }, [
      ⟨{ kind := .element "li",
         nested := some ⟨0, .props, some ⟨.prop [.field "own"], some [], some false⟩, false⟩ },
        []⟩]⟩]⟩ {}

def cabinetDeclaration : Declaration where
  id := "cabinet"
  name := "cabinet"
  stubs := [("side", 1)]
  origin := .root ⟨{ kind := .element "div" }, [
    ⟨{ kind := .element "div", nested := some ⟨1, .prop [.field "top"], none, true⟩ }, []⟩,
    ⟨{ kind := .element "div", stub := some ⟨"side", .prop [.field "top"]⟩ }, []⟩,
    ⟨{ kind := .element "div" }, [
      ⟨{ kind := .element "div",
         nested := some ⟨1, .props, some ⟨.prop [.field "fixed"], none, some false⟩, false⟩ },
        []⟩]⟩,
    ⟨{ kind := .element "div" }, [
      ⟨{ kind := .element "div",
         nested := some ⟨1, .props, some ⟨.prop [.field "loose"], some [.field "id"], none⟩,
           false⟩ }, []⟩]⟩]⟩ {}

/-- The library of rows, shelves and cabinets. -/
def cabinetLibrary : Traced Library :=
  (Library.define [rowDeclaration, shelfDeclaration, cabinetDeclaration]).toOption.getD ⟨[], []⟩

/-- What a shelf shows. -/
def shelfProps (id : Value) (lent own : List Value) : Value :=
  .map [("id", id), ("lent", .list lent), ("own", .list own)]

/-- What a cabinet shows that has these shelves of its own. -/
def cabinetProps (fixed : List Value) : Value :=
  .map [("fixed", .list fixed), ("loose", .list [shelfProps (.int 4) [.int 7] [.int 8]]),
    ("top", shelfProps (.int 1) [.int 1] [.int 2])]

/-- The cabinet is built with two shelves of its own and then shows one of them. -/
def cabinetSteps : List Step := [
  .onInstance (.construct "cabinet" 2
    (cabinetProps [shelfProps (.int 2) [.int 3, .int 4] [.int 5], shelfProps (.int 3) [.int 6] []])
    none),
  .onInstance (.render "cabinet" (cabinetProps [shelfProps (.int 2) [.int 3, .int 4] [.int 5]])
    none)]

def cabinetSession : Session := cabinetSteps.foldl after (start cabinetLibrary)

/-- Keeping count of the own instances does not change the steps. -/
theorem snd_foldl_tend (now : List InstanceId × Session) (steps : List Step) :
    (steps.foldl tend now).2 = steps.foldl after now.2 := by
  induction steps generalizing now with
  | nil => rfl
  | cons step steps ih =>
    have same : (tend now step).2 = now.2.after step := by
      unfold tend after
      cases now.2.step step <;> rfl
    rw [List.foldl_cons, ih, same, List.foldl_cons]

/-- Steps of the upkeep that are taken one after another are upkeep. -/
theorem Upkept.foldl_after {later : Session} (h : s.Upkept later) {steps : List Step}
    (upkeep : ∀ step ∈ steps, step.Upkeep) :
    s.Upkept (steps.foldl Session.after later) := by
  induction steps generalizing later with
  | nil => exact h
  | cons step steps ih =>
    rw [List.forall_mem_cons] at upkeep
    exact ih (h.after step upkeep.1) upkeep.2

/-- The six rows on loan, on whatever shelf they are, and the shelf on loan come back. -/
theorem cascade_of_cabinet :
    Library.define [rowDeclaration, shelfDeclaration, cabinetDeclaration] = .ok cabinetLibrary ∧
      (∀ d ∈ [rowDeclaration, shelfDeclaration, cabinetDeclaration],
        d.Roots fun node => node.BuiltIn ∧ node.WritesLeaves) ∧
      cabinetLibrary.value.Ranked ∧ FairlyReached cabinetLibrary [2] cabinetSession ∧
      (start cabinetLibrary).Upkept cabinetSession ∧
      cabinetSession.world.pools = #[[], [], []] ∧
      ∃ report later, cabinetSession.step (.onInstance (.dismount "cabinet")) = .ok (report, later) ∧
        report.outcome = .ok .done ∧ cabinetSession.world.Cascade 2 later.world ∧
        later.world.pools = #[[14, 12, 9, 8, 5, 3], [13], []] ∧
        ∀ k ∈ cabinetSession.world.tree 2, k ∉ cabinetSession.world.loans 2 →
          later.world.document.parent? (cabinetSession.world.root k)
            = cabinetSession.world.document.parent? (cabinetSession.world.root k) := by
  have defined : Library.define [rowDeclaration, shelfDeclaration, cabinetDeclaration]
      = .ok cabinetLibrary := eq_ok_of_isOk (by decide +kernel) _
  have roots : ∀ d ∈ [rowDeclaration, shelfDeclaration, cabinetDeclaration],
      d.Roots fun node => node.BuiltIn ∧ node.WritesLeaves := by decide +kernel
  have ranked : cabinetLibrary.value.Ranked := by decide +kernel
  have reached : FairlyReached cabinetLibrary [2] cabinetSession := by
    have fold : FairlyReached cabinetLibrary (cabinetSteps.foldl tend ([], start cabinetLibrary)).1
        (cabinetSteps.foldl tend ([], start cabinetLibrary)).2 :=
      FairlyReached.start.foldl_tend ⟨trivial, trivial, trivial⟩
    have own : (cabinetSteps.foldl tend ([], start cabinetLibrary)).1 = [2] := by decide +kernel
    rwa [own, snd_foldl_tend] at fold
  have upkept : (start cabinetLibrary).Upkept cabinetSession :=
    Upkept.refl.foldl_after (List.forall_mem_cons.mpr ⟨trivial,
      List.forall_mem_singleton.mpr trivial⟩)
  have named : cabinetSession.instances.get? "cabinet" = some 2 := by decide +kernel
  obtain ⟨inst, get⟩ : ∃ inst, cabinetSession.world.instances[2]? = some inst :=
    Option.isSome_iff_exists.mp (by decide +kernel)
  obtain ⟨report, later, run, outcome, cascade, -, -, stays⟩ :=
    cascade_of_dismount defined roots ranked reached named get
  have after : cabinetSession.after (.onInstance (.dismount "cabinet")) = later := by
    rw [Session.after, run]
    rfl
  have pools : later.world.pools = #[[14, 12, 9, 8, 5, 3], [13], []] := by
    rw [← after]
    decide +kernel
  exact ⟨defined, roots, ranked, reached, upkept, by decide +kernel, report, later, run, outcome,
    cascade, pools, stays upkept⟩

end Session

end ComponentView
