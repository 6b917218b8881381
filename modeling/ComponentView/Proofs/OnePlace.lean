import ComponentView.Proofs.Ownership.Session

/-! # Every instance stands at one place

Pools, repeaters and the stashes of other instances hold instances, and an instance goes from one to
another whenever a repeater gives it back or takes it up again. A caller holds the instances that he
has constructed or acquired, until he puts them into a pool. As long as he puts nothing else into
pools (`Step.Fair`), no instance ever stands at two places or at one place twice, whatever effects and
handlers do and wherever they fail (`Session.nodup_places`). -/

namespace ComponentView

/-! ## Places -/

/-- What stands at different places are different instances. -/
theorem Spread.nodup_flatMap {listed : Place → List InstanceId} (h : Spread listed)
    {ps : List Place} (hp : ps.Nodup) : (ps.flatMap listed).Nodup := by
  rw [List.nodup_flatMap]
  exact ⟨fun p _ => h.nodup p, hp.imp fun hne i hi hj => hne (h.apart hi hj)⟩

/-- The elements of an array are those at its positions. -/
theorem flatMap_range_size {α β : Type} (a : Array α) (f : α → List β) :
    (List.range a.size).flatMap (fun i => a[i]?.elim [] f) = a.toList.flatMap f := by
  have listed : (List.range a.size).map (fun i => a[i]?.elim [] f) = a.toList.map f :=
    List.ext_getElem (by simp) fun i hi _ => by
      have : i < a.size := by simpa using hi
      simp [this]
  rw [List.flatMap_def, listed, ← List.flatMap_def]

namespace Session

/-- What pools, stashes and repeaters hold. -/
def occupants (s : Session) : List InstanceId :=
  s.world.pools.toList.flatten ++ s.world.instances.toList.flatMap Instance.held ++
    s.repeaters.flatMap (·.2.held)

variable {lib : Library} {own : List InstanceId} {s : Session}

/-- In a session in order no instance stands at two places, and a caller's own stand at none. -/
theorem Orderly.nodup_occupants (h : s.Orderly lib own) : (own ++ s.occupants).Nodup := by
  obtain ⟨definition, stocks⟩ := h.stocks
  let hand := s.entries.flatMap StashItem.held ++ own
  let ps := .hand :: ((List.range s.world.pools.size).map Place.pool ++
    (List.range s.world.instances.size).map Place.stash)
  have distinct : ps.Nodup := by
    have pools : ((List.range s.world.pools.size).map Place.pool).Nodup :=
      List.nodup_range.map fun _ _ he => Place.pool.inj he
    have stashes : ((List.range s.world.instances.size).map Place.stash).Nodup :=
      List.nodup_range.map fun _ _ he => Place.stash.inj he
    simp only [ps, List.nodup_cons, List.nodup_append]
    exact ⟨by simp, pools, stashes, by simp⟩
  have all : (ps.flatMap (s.world.placed hand)).Nodup :=
    stocks.orderly.spread.nodup_flatMap distinct
  have spare (k : DefinitionId) :
      s.world.placed hand (.pool k) = s.world.pools[k]?.elim [] id := by
    cases h : s.world.pools[k]? <;> simp [World.placed, World.pool, h]
  have stash (i : InstanceId) :
      s.world.placed hand (.stash i) = s.world.instances[i]?.elim [] Instance.held := by
    simp [World.placed, stocks.orderly.busy_eq]
  have repeaters : s.entries.flatMap StashItem.held = s.repeaters.flatMap (·.2.held) := by
    rw [entries, List.flatMap_map]
    exact List.flatMap_congr fun e _ => by cases e.2 <;> rfl
  simp only [ps, List.flatMap_cons, List.flatMap_append, List.flatMap_map, spare, stash,
    flatMap_range_size, List.flatMap_id] at all
  refine (List.Perm.nodup_iff ?_).mp all
  show (s.entries.flatMap StashItem.held ++ own ++ _).Perm _
  rw [repeaters, occupants, List.append_assoc]
  exact List.perm_append_comm.trans (by rw [List.append_assoc])

end Session

/-! ## Callers -/

/-- What a caller may do with the instances that are his own: he puts none but these into pools, each
into the pool of its definition. -/
def Step.Fair (own : List InstanceId) (s : Session) : Step → Prop
  | .onPool (.release definition target) => ∃ i ∈ own,
      s.instances.get? target = some i ∧ s.world.definition? i = some definition
  | step => step.Plain

/-- The instances that are a caller's own after a step: those that he constructs or acquires become
his own, and those that he puts into a pool no longer are. -/
def Step.own (own : List InstanceId) (s later : Session) (report : Report) :
    Step → List InstanceId
  | .onInstance (.construct name _ _ _) | .onInstance (.acquire name _ _ _ _) =>
    if report.outcome.isOk then (later.instances.get? name).toList ++ own else own
  | .onPool (.release _ target) => (s.instances.get? target).elim own own.erase
  | _ => own

namespace Work

variable {lib : Library} {own : List InstanceId} {id : DefinitionId} {x : Run InstanceId}

/-- An instance that is brought into hand and named is the caller's own. -/
theorem brings (h : Run.Brings lib id x) (name : String) :
    Ends (Session.Orderly lib own)
      (do
        let i ← onWorld x
        return .node (← nameInstance name i))
      (fun (_ : Reply) s => ∃ i, s.instances.get? name = some i ∧ s.Orderly lib (i :: own))
      fun o s => (∀ cause, o ≠ .abort cause) → s.Orderly lib own := by
  have fewer {i : InstanceId} {s : Session} (hs : s.Orderly lib (i :: own)) : s.Orderly lib own := by
    obtain ⟨library, id, stocks⟩ := hs
    refine ⟨library, id, stocks.orderly.shrink ?_, stocks.ranks, stocks.aside⟩
    exact ((List.sublist_cons_self _ _).append_left _).subperm
  refine Ends.bind (Q := fun i => Session.Orderly lib (i :: own)) ?_ fun i => ?_
  · rintro s ⟨library, id, stocks⟩
    have run := h.stocks rfl (fun _ hs => hs) stocks _ rfl
    unfold onWorld
    cases hx : x s.world with
    | ok i w =>
      rw [hx] at run
      exact ⟨library, id, run⟩
    | error stop w =>
      rw [hx] at run
      intro given
      cases stop with
      | fault cause => exact ⟨library, id, run cause rfl⟩
      | abort cause => exact absurd rfl (given cause)
  · have named : Ends (Session.Orderly lib (i :: own)) (nameInstance name i)
        (fun _ s => s.instances.get? name = some i ∧ s.Orderly lib (i :: own))
        fun o s => (∀ cause, o ≠ .abort cause) → s.Orderly lib own := by
      refine Ends.bind (((Work.Keeps.onWorld (.rootOf i)) (i :: own)).mono (fun _ h => h)
        (fun _ _ h => h) fun _ _ h given => fewer (h given)) fun root => ?_
      refine Ends.bind (Q := fun _ s => s.instances.get? name = some i ∧
        s.Orderly lib (i :: own)) (.modify fun s hs => ?_) fun _ => .pure fun _ h => h
      exact ⟨NameTable.get?_set_self .., hs.congr rfl rfl rfl rfl rfl⟩
    exact named.bind fun _ => .pure fun s hs => ⟨i, hs⟩

end Work

namespace Session

variable {lib : Library} {own : List InstanceId} {s later : Session}

/-- An instance that is put into the pool of its definition is not the caller's own any more. -/
theorem Orderly.release (h : s.Orderly lib own) {target : String} {i : InstanceId} (hi : i ∈ own)
    (named : s.instances.get? target = some i) {definition : DefinitionId}
    (hd : s.world.definition? i = some definition) :
    Ends (s = ·) (PoolStep.release definition target).perform
      (fun _ => Session.Orderly lib (own.erase i)) fun o _ => ∃ cause, o = .abort cause := by
  obtain ⟨library, id, stocks⟩ := h
  have before : s.world.Orderly (.plain lib) []
      (i :: (s.entries.flatMap StashItem.held ++ own.erase i)) :=
    stocks.orderly.perm (List.perm_middle.symm.trans
      ((List.perm_cons_erase hi).symm.append_left _))
  let wide := Frame.widen (.plain lib) s.world []
  have gives : Ends (World.Orderly wide [] (i :: (s.entries.flatMap StashItem.held ++ own.erase i)))
      (Retire.giveBack Run.retire definition i)
      (fun _ => World.Orderly wide [] (s.entries.flatMap StashItem.held ++ own.erase i))
      fun stop _ => stop.GivenUp :=
    Retire.giveBack_orderly Run.retire_orderly hd (Frame.not_still_widen _ (fun _ hs => hs) i)
  have given := gives _ (before.widen (List.nil_subset _))
  refine Ends.bind (Q := fun j t => j = i ∧ s = t) ?_ fun j => .assume fun hj => ?_
  · unfold Work.named
    refine Ends.get.bind fun t => ?_
    split
    · next j hj =>
      refine .pure ?_
      rintro _ ⟨rfl, rfl⟩
      exact ⟨Option.some.inj (hj.symm.trans named), rfl⟩
    · next hn =>
      refine .throw ?_
      rintro _ ⟨rfl, rfl⟩
      cases hn.symm.trans named
  subst hj
  refine Ends.bind (Q := fun _ => Session.Orderly lib (own.erase j)) ?_ fun _ => .pure fun _ h => h
  rintro _ rfl
  unfold Work.onWorld
  cases hx : Retire.giveBack Run.retire definition j s.world with
  | ok _ w =>
    rw [hx] at given
    obtain ⟨orderly, since⟩ := before.narrow given
    exact ⟨library, id, orderly, fun item hm => (stocks.ranks item hm).grows since.grown,
      stocks.aside⟩
  | error stop w =>
    rw [hx] at given
    obtain ⟨cause, rfl⟩ := given
    exact ⟨cause, rfl⟩

/-- A fair step keeps the session in order. -/
theorem Orderly.fair_step (h : s.Orderly lib own) (ranked : lib.Ranked) {step : Step}
    (fair : step.Fair own s) {report : Report} (hs : s.step step = .ok (report, later)) :
    later.Orderly lib (step.own own s later report) := by
  obtain ⟨orderly, library⟩ := Engine.nested_orderly ranked Engine.depthLimit
  rw [← h.engine_eq] at orderly library
  have kept : s.keepNamed.Orderly lib own := h.congr rfl rfl rfl rfl rfl
  -- A caller may get an instance, give one back, or do neither.
  have gets {id : DefinitionId} {x : Run InstanceId} {name : String} (hx : Run.Brings lib id x)
      (perform : step.perform s.engine = do
        let i ← Work.onWorld x
        return .node (← Work.nameInstance name i)) :
      later.Orderly lib
        (if report.outcome.isOk then (later.instances.get? name).toList ++ own else own) := by
    have run := Work.brings hx name s.keepNamed kept
    rw [← perform] at run
    obtain ⟨after, rfl, ⟨reply, outcome, hx⟩ | ⟨refusal, o, outcome, given, hx⟩⟩ := of_step hs
    · rw [hx] at run
      obtain ⟨i, named, orderly⟩ := run
      rw [if_pos (show report.outcome.isOk = true by rw [outcome]; rfl), named]
      exact orderly.congr rfl rfl rfl rfl rfl
    · rw [hx] at run
      rw [if_neg (show ¬ report.outcome.isOk = true by rw [outcome]; exact Bool.false_ne_true)]
      exact (run given).congr rfl rfl rfl rfl rfl
  have keeps (plain : step.Plain) : later.Orderly lib own := h.step ranked plain hs
  cases step with
  | onInstance step =>
    cases step with
    | construct name definition props controller =>
      exact gets (library ▸ Run.construct_brings orderly (library.symm ▸ ranked) definition props
        controller) rfl
    | acquire name definition share props controller =>
      exact gets (library ▸ Run.acquire_brings orderly (library.symm ▸ ranked) definition share
        props controller) rfl
    | _ => exact keeps trivial
  | onPool step =>
    cases step with
    | release definition target =>
      obtain ⟨i, hi, named, hd⟩ := fair
      have run := kept.release hi named hd _ rfl
      show later.Orderly lib ((s.instances.get? target).elim own own.erase)
      rw [named]
      obtain ⟨after, rfl, ⟨reply, -, hx⟩ | ⟨refusal, o, -, given, hx⟩⟩ := of_step hs
      · rw [show (PoolStep.release definition target).perform s.keepNamed = _ from hx] at run
        exact run.congr rfl rfl rfl rfl rfl
      · rw [show (PoolStep.release definition target).perform s.keepNamed = _ from hx] at run
        obtain ⟨cause, rfl⟩ := run
        exact absurd rfl (given cause)
    | _ => exact keeps trivial
  | onRepeater step =>
    cases step with
    | create name r => exact keeps fair
    | _ => exact keeps trivial
  | _ => exact keeps trivial

/-- Sessions with a library that come about by fair steps, each with the instances that are then the
caller's own. -/
inductive FairlyReached (library : Traced Library) : List InstanceId → Session → Prop
  | start : FairlyReached library [] (start library)
  | step {own : List InstanceId} {s later : Session} {step : Step} {report : Report}
    (h : FairlyReached library own s) (fair : step.Fair own s)
    (hs : s.step step = .ok (report, later)) :
    FairlyReached library (step.own own s later report) later

/-- There is order in every session that comes about by fair steps. -/
theorem FairlyReached.orderly {library : Traced Library} (ranked : library.value.Ranked)
    (h : FairlyReached library own s) : s.Orderly library.value own := by
  induction h with
  | start => exact orderly_start library
  | step _ fair hs ih => exact ih.fair_step ranked fair hs

/-- Whatever a session has come through by fair steps, pools, stashes and repeaters hold no instance
twice, and none that is the caller's own. -/
theorem nodup_places {library : Traced Library} (ranked : library.value.Ranked)
    (h : FairlyReached library own s) : (own ++ s.occupants).Nodup :=
  (h.orderly ranked).nodup_occupants

/-! A desk with two lists of slips, of which one is by key. A slip that one list gives back is taken
up by the other, and a slip of the caller joins the pool. -/

/-- A slip, which shows its props. -/
def slipDeclaration : Declaration where
  id := "slip"
  name := "slip"
  origin := .root ⟨{ kind := .element "li" },
    [⟨{ kind := .text "", watches := [⟨.props, .setText⟩] }, []⟩]⟩ {}

/-- A desk, which shows two lists of its state. -/
def deskDeclaration : Declaration where
  id := "desk"
  name := "desk"
  origin := .root ⟨{ kind := .element "div" }, [
    ⟨{ kind := .element "ul" }, [
      ⟨{ kind := .element "li",
         nested := some ⟨0, .props, some ⟨.state [.field "done"], none, none⟩, false⟩ }, []⟩]⟩,
    ⟨{ kind := .element "ol" }, [
      ⟨{ kind := .element "li",
         nested := some ⟨0, .props, some ⟨.state [.field "open"], some [], none⟩, false⟩ }, []⟩]⟩]⟩ {}

/-- The library of slips and desks. -/
def deskLibrary : Traced Library :=
  (Library.define [slipDeclaration, deskDeclaration]).toOption.getD ⟨[], []⟩

/-- The session after a step with what is then the caller's own, or as it was if the step ends it. -/
def tend (now : List InstanceId × Session) (step : Step) : List InstanceId × Session :=
  match now.2.step step with
  | .ok (report, later) => (step.own now.1 now.2 later report, later)
  | .error _ => now

/-- Every step is fair when it is taken. -/
def AllFair (now : List InstanceId × Session) : List Step → Prop
  | [] => True
  | step :: steps => step.Fair now.1 now.2 ∧ AllFair (tend now step) steps

/-- A session stays fairly reached over more steps that are fair. -/
theorem FairlyReached.foldl_tend {library : Traced Library} (h : FairlyReached library own s)
    {steps : List Step} (fair : AllFair (own, s) steps) :
    FairlyReached library (steps.foldl tend (own, s)).1 (steps.foldl tend (own, s)).2 := by
  induction steps generalizing own s with
  | nil => exact h
  | cons step steps ih =>
    refine ih ?_ fair.2
    dsimp only
    cases hs : s.step step with
    | ok r => exact h.step fair.1 hs
    | error e => exact h

/-- A step that sets the lists of the desk. -/
def listSlips (done opened : Value) : Step :=
  .onInstance (.setState "desk" (.map [("done", done), ("open", opened)]))

/-- Two slips are done, then one of them is opened again, then an update fails after it has taken up
the other. A slip of the caller's own joins the pool. -/
def deskSteps : List Step := [
  .onInstance (.construct "desk" 1 .null none),
  listSlips (.list [.int 1, .int 2]) (.list []),
  .onInstance (.update "desk"),
  listSlips (.list []) (.list [.int 7]),
  .onInstance (.update "desk"),
  listSlips (.list [.int 1]) (.bool true),
  .onInstance (.update "desk"),
  .onInstance (.construct "slip" 0 (.int 5) none),
  .onPool (.release 0 "slip")]

/-- The session after these steps, and what is then the caller's own. -/
def deskSession : List InstanceId × Session := deskSteps.foldl tend ([], start deskLibrary)

/-- The pool, the list that is done and the one that is open hold a slip each, and the desk is the
caller's own. -/
theorem nodup_places_of_desk :
    deskLibrary.value.Ranked ∧ FairlyReached deskLibrary [0] deskSession.2 ∧
      deskSession.2.occupants = [3, 1, 2] ∧ ([0] ++ deskSession.2.occupants).Nodup := by
  have ranked : deskLibrary.value.Ranked := by decide +kernel
  have own : deskSession.1 = [0] := by decide +kernel
  have fair : AllFair ([], start deskLibrary) deskSteps :=
    ⟨trivial, trivial, trivial, trivial, trivial, trivial, trivial, trivial,
      ⟨3, by decide +kernel, by decide +kernel, by decide +kernel⟩, trivial⟩
  have reached : FairlyReached deskLibrary deskSession.1 deskSession.2 :=
    FairlyReached.start.foldl_tend fair
  rw [own] at reached
  exact ⟨ranked, reached, by decide +kernel, nodup_places ranked reached⟩

end Session

end ComponentView
