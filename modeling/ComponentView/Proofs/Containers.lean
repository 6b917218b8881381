import ComponentView.Proofs.Upkeep

/-! # What stands in a container

An element may have several repeaters among its children, between static, nested and hidden ones. Each
of them grows and shrinks by itself, before an anchor that it looks for at that moment. Yet the
element always has the children that its component gives it, in order: the node of a child of its own,
the root of a nested instance, and the roots of what a repeater has attached (`World.Stands`). This is
so after every step that constructs, renders, updates or dismounts instances or raises events, also
where it fails, and each child keeps its node throughout (`Session.contents_of_upkept`). -/

namespace ComponentView

/-! ## What an instance puts into an element -/

namespace World

/-- What an instance puts among the children of an element for a child entry of its component: the
node of the entry itself; the root of the nested instance that stands for it; or the roots of the
instances that a repeater has attached, in the order of the repeater. -/
inductive Stands (w : World) (l : Layout) (node : Nat → Option NodeId) (stash : List StashItem)
    (m : Nat) (h : NodeHead) : List NodeId → Prop where
  | own {x : NodeId} (plain : h.isComponent = false) (at_node : node m = some x) :
    Stands w l node stash m h [x]
  | nested {key : StashIndex} {i : InstanceId} {x : NodeId} (component : h.isComponent = true)
    (single : h.isRepeated = false) (seats : l.Seats key m) (held : stash[key]? = some (.child i))
    (root : w.root? i = some x) : Stands w l node stash m h [x]
  | sequence {key : StashIndex} {r : Sequential} {xs : List NodeId} (repeated : h.isRepeated = true)
    (repeats : l.Repeats m key) (held : stash[key]? = some (.sequential r))
    (roots : List.Forall₂ (fun i x => w.root? i = some x) (r.instances.take r.attached) xs) :
    Stands w l node stash m h xs
  | keyed {key : StashIndex} {r : Keyed} {xs : List NodeId} (repeated : h.isRepeated = true)
    (repeats : l.Repeats m key) (held : stash[key]? = some (.keyed r))
    (roots : List.Forall₂ (fun i x => w.root? i = some x) r.inOrder xs) :
    Stands w l node stash m h xs

/-- The nodes of the instance are of the entries of its component, each in its slot if the entry has
one; and the children of each element that has a repeated child, and none that leaves it, are what its
child entries put there, in order. -/
structure Contains (w : World) (l : Layout) (o : Outline) (node : Nat → Option NodeId)
    (inst : Instance) : Prop where
  top : node 0 = some inst.root
  kind : ∀ {n x}, node n = some x →
    ∃ e, o[n]? = some e ∧ (w.document.node x).kind = some e.node.head.docKind
  inj : ∀ {n m x}, node n = some x → node m = some x → n = m
  slots : ∀ {slot n e}, l.Owns slot n → o[n]? = some e → e.node.head.isComponent = false →
    ∃ x, inst.elements[slot]? = some x ∧ node n = some x
  contents : ∀ {n e}, o[n]? = some e → e.node.head.isElement = true →
    (∃ child ∈ e.node.children, child.head.isRepeated = true) →
    (∀ child ∈ e.node.children, child.head.canDetach = false) →
    ∃ slot x blocks, l.Owns slot n ∧ inst.elements[slot]? = some x ∧
      List.Forall₂ (fun m block => ∃ e, o[m]? = some e ∧
        w.Stands l node inst.stash m e.node.head block) (o.childrenOf n) blocks ∧
      w.document.children x = blocks.flatten

variable {L : Reserve} {δ : Deeds} {busy lost hand : List InstanceId} {w : World}
  {i : InstanceId} {inst : Instance}

/-- An instance that is alive has its root. -/
theorem Tidy.root?_eq (h : w.Tidy L δ busy lost hand) (hi : δ.alive i) :
    w.root? i = some (w.root i) := by
  obtain ⟨inst, hinst, -⟩ := h.owner hi
  rw [root_of_get hinst, root?, hinst]
  rfl

/-- What a cell shows of a child entry is what the instance puts there. -/
theorem Tidy.stands (h : w.Tidy L δ busy lost hand) {B : Blueprint} {t : Template}
    (draws : B.Draws t) {node : Nat → Option NodeId} {children : NodeId → List NodeId}
    {elements : List NodeId} {stash : List StashItem}
    (shows : B.Shows node w.root children elements stash)
    (alive : ∀ k ∈ stash.flatMap StashItem.held, δ.alive k) {m : Nat} {e : OutlineEntry}
    (he : B.outline[m]? = some e) (whole : B.layout.keyOf m = none → (node m).isSome) :
    w.Stands B.layout node stash m e.node.head (B.cell node w.root stash m) := by
  have known := draws.regular.isSome_keyOf he
  cases hk : B.layout.keyOf m with
  | none =>
    rw [hk] at known
    obtain ⟨x, hx⟩ := Option.isSome_iff_exists.mp (whole hk)
    rw [Blueprint.cell_of_none hk, hx]
    exact .own known.symm hx
  | some key =>
    rw [hk] at known
    -- The entry of the stash is there, and it is of the kind that was planned.
    have planned {plan : StashPlan} (hp : B.layout.stash[key]? = some plan) : ∃ item,
        stash[key]? = some item ∧ item.kind = plan.kind ∧
          B.cell node w.root stash m = item.shown.map w.root ∧
          ∀ i ∈ item.shown, w.root? i = some (w.root i) := by
      obtain ⟨item, hi⟩ := shows.full (List.getElem?_eq_some_iff.mp hp).1
      refine ⟨item, hi, (shows.plans hi hp).1, Blueprint.cell_of_key hk hi, fun i hs => ?_⟩
      have hm := List.mem_of_getElem? hi
      exact h.root?_eq (alive i (List.mem_flatMap.mpr
        ⟨item, hm, StashItem.shown_subset (shows.even item hm) hs⟩))
    have roots {is : List InstanceId} (his : ∀ i ∈ is, w.root? i = some (w.root i)) :
        List.Forall₂ (fun i x => w.root? i = some x) is (is.map w.root) := by
      rw [List.forall₂_map_right_iff, List.forall₂_same]
      exact his
    have seats := draws.regular.keyOf_eq_some_iff.mp hk
    rcases seats with ⟨slot, source, b, plans, owns⟩ | repeats
    · obtain ⟨item, hi, kind, cell, shown⟩ := planned (Layout.plans_child.mp plans)
      obtain ⟨e', he', single⟩ := draws.regular.owners_plain m (List.mem_of_getElem? owns)
      obtain rfl := Option.some.inj (he.symm.trans he')
      cases item with
      | child i =>
        rw [cell]
        exact .nested known.symm single (Or.inl ⟨slot, source, b, plans, owns⟩) hi
          (shown i (List.mem_singleton_self i))
      | _ => cases kind
    · obtain ⟨-, e', he', repeated, p, hp, repeater⟩ := draws.regular.repeats repeats
      obtain rfl := Option.some.inj (he.symm.trans he')
      obtain ⟨plan, hplan, rfl⟩ : ∃ plan, B.layout.stash[key]? = some plan ∧ plan.bare = p := by
        rwa [Layout.Plans, List.getElem?_map, Option.map_eq_some_iff] at hp
      obtain ⟨item, hi, kind, cell, shown⟩ := planned hplan
      rw [cell]
      cases item with
      | sequential r => exact .sequence repeated repeats hi (roots shown)
      | keyed r => exact .keyed repeated repeats hi (roots shown)
      | _ => cases plan with
        | sequential | keyed => cases kind
        | _ => cases repeater

/-- An instance at rest contains what its component says. -/
theorem Tidy.contains (h : w.Tidy L δ busy lost hand) (hi : δ.alive i) (hb : i ∉ busy)
    (hinst : w.instances[i]? = some inst) {options : CompileSettings} {name : String} {root : Node}
    {t : Template} (compiled : Template.compile options name root = .ok t)
    (plan : L.plan inst.definition = ⟨root, Lay.finished options (.ofRoot root)⟩)
    (draws : (L.plan inst.definition).Draws t) :
    w.Contains (Lay.finished options (.ofRoot root)) (.ofRoot root) (δ.node inst.root) inst := by
  obtain ⟨shows, held⟩ := h.shows hi hb hinst
  have outline : δ.outline L.plan inst.root = .ofRoot root := by
    rw [Deeds.outline, h.definition_of_get hi hinst, plan]
    rfl
  obtain ⟨accepts, -⟩ := Template.accepts_of_compile compiled
  rw [plan] at shows draws
  -- A slot of an entry that no component stands for has the node of the entry.
  have slots {slot n : Nat} {e : OutlineEntry} (owns : (Lay.finished options (.ofRoot root)).Owns slot n)
      (he : (Outline.ofRoot root)[n]? = some e) (plain : e.node.head.isComponent = false) :
      ∃ x, inst.elements[slot]? = some x ∧ δ.node inst.root n = some x := by
    obtain ⟨x, hx, cell⟩ := shows.slots owns
    have key := draws.regular.isSome_keyOf he
    rw [plain, Option.isSome_eq_false_iff, Option.isNone_iff_eq_none] at key
    rw [Blueprint.cell_of_none key] at cell
    exact ⟨x, hx, Option.toList_eq_singleton_iff.mp cell⟩
  constructor
  · rw [← root_of_get (w := w) hinst]
    exact h.node_root hi
  · intro n x hx
    have := h.valid.kind hx
    rwa [outline] at this
  · exact fun hn hm => (h.valid.inj hn hm).2
  · exact slots
  · rintro n e he element ⟨child, hc, repeated⟩ stays
    -- The entry of the repeated child.
    obtain ⟨k, hk⟩ := List.getElem?_of_mem hc
    have hlt := (List.getElem?_eq_some_iff.mp hk).1
    rw [← Outline.length_starts (n + 1), ← Outline.childrenOf_eq he] at hlt
    have entry := Outline.getElem?_child he (List.getElem?_eq_getElem hlt) hk
    obtain ⟨-, above, ha, plain⟩ := draws.sound.parent entry rfl
    obtain rfl := Option.some.inj (ha.symm.trans he)
    obtain ⟨slot, owns⟩ := Lay.exists_container accepts.sound options entry repeated rfl
    obtain ⟨x, hx, hn⟩ := slots owns he plain
    have regular : Blueprint.Regular ⟨root, Lay.finished options (.ofRoot root)⟩ n :=
      ⟨above, he, by rw [NodeHead.isPlain, element, plain]; rfl, List.ne_nil_of_mem hc, stays⟩
    refine ⟨slot, x, _, owns, hx, ?_, (shows.contents regular hn).trans List.flatMap_def⟩
    rw [List.forall₂_map_right_iff]
    refine List.forall₂_same.mpr fun m hm => ?_
    obtain ⟨e', he', -⟩ := Outline.mem_childrenOf.mp hm
    exact ⟨e', he', h.stands draws shows (fun k hk => held k hk) he' (shows.whole regular hn hm)⟩

end World

/-! ## Tidy sessions -/

namespace Session

/-- The named instances are in hand in a tidy world. -/
structure Neat (L : Reserve) (hand : List InstanceId) (s : Session) : Prop where
  library : s.library = L.library
  named : ∀ e ∈ s.instances, e.2 ∈ hand
  neat : s.world.Neat L [] [] hand

/-- A session is neat, whatever is in hand. -/
def Tidy (L : Reserve) (s : Session) : Prop := ∃ hand, s.Neat L hand

variable {L : Reserve} {hand : List InstanceId} {s later : Session} {i : InstanceId}

/-- Only the library, the names of instances, the document, the instances, the pools and the list of
held instances matter. -/
theorem Neat.congr (h : s.Neat L hand) (library : later.library = s.library)
    (names : later.instances = s.instances) (document : later.world.document = s.world.document)
    (instances : later.world.instances = s.world.instances)
    (pools : later.world.pools = s.world.pools) (busy : later.world.busy = s.world.busy) :
    later.Neat L hand := by
  obtain ⟨δ, tidy⟩ := h.neat
  exact ⟨library.trans h.library, names ▸ h.named, δ, tidy.congr document instances pools busy⟩

end Session

/-! ## Steps -/

namespace Work

open Session

variable {α : Type} {L : Reserve} {hand : List InstanceId} {target name : String}

/-- What a computation makes of the world is what it makes of the world of the session. -/
theorem onWorld_ends {x : Run α} {P R : World → Prop} {Q : α → World → Prop} {A : Session → Prop}
    (beside : ∀ {s} (world : World), A s → A { s with world }) (h : Ends P x Q (Failing R)) :
    Ends (fun s => A s ∧ P s.world) (onWorld x) (fun a s => A s ∧ Q a s.world)
      (Hindered fun s => A s ∧ R s.world) := by
  rintro s ⟨rest, pre⟩
  have run := h s.world pre
  unfold onWorld
  cases hx : x s.world with
  | ok a w =>
    rw [hx] at run
    exact ⟨beside w rest, run⟩
  | error stop w =>
    rw [hx] at run
    intro given
    cases stop with
    | fault cause => exact ⟨beside w rest, run cause rfl⟩
    | abort cause => exact absurd rfl (given cause)

/-- What keeps the world neat keeps the session tidy. -/
theorem onWorld_neat {x : Run α} {Q : α → World → Prop}
    (h : Ends (World.Neat L [] [] hand) x Q (Failing (World.Neat L [] [] hand))) :
    Ends (Neat L hand) (onWorld x)
      (fun a s => s.library = L.library ∧ (∀ e ∈ s.instances, e.2 ∈ hand) ∧ Q a s.world)
      (Hindered (Session.Tidy L)) :=
  (onWorld_ends (A := fun s => s.library = L.library ∧ ∀ e ∈ s.instances, e.2 ∈ hand)
    (fun _ h => h) h).mono (fun _ h => ⟨⟨h.library, h.named⟩, h.neat⟩)
    (fun _ _ h => ⟨h.1.1, h.1.2, h.2⟩)
    fun _ _ h given => ⟨hand, (h given).1.1, (h given).1.2, (h given).2⟩

/-- A named instance is in hand. -/
theorem named_neat : Ends (Neat L hand) (named Session.instances target)
    (fun i s => i ∈ hand ∧ s.Neat L hand) (Hindered (Session.Tidy L)) := by
  intro s hs
  cases hi : s.instances.get? target with
  | none =>
    rw [named_none Session.instances hi]
    exact fun _ => ⟨hand, hs⟩
  | some i =>
    rw [named_eq Session.instances hi]
    obtain ⟨n, hn, -⟩ := NameTable.exists_position hi
    exact ⟨hs.named _ (List.mem_of_getElem? hn), hs⟩

/-- What leaves the world tidy leaves the session tidy. -/
theorem onWorld_tidy {x : Run α} (h : Ends (World.Neat L [] [] hand) x
      (fun _ => World.Neat L [] [] hand) (Failing (World.Neat L [] [] hand))) :
    Ends (Neat L hand) (onWorld x) (fun _ => Session.Tidy L) (Hindered (Session.Tidy L)) :=
  (onWorld_neat h).post fun _ _ hs => ⟨hand, hs.1, hs.2.1, hs.2.2⟩

/-- Holding a named instance leaves the session tidy if holding any in hand leaves the world tidy. -/
theorem holding_tidy {x : Holding Instance α} (reply : α → Reply) (h : ∀ i ∈ hand,
      Ends (World.Neat L [] [] hand) (Run.hold i x) (fun _ => World.Neat L [] [] hand)
        (Failing (World.Neat L [] [] hand))) :
    Ends (Neat L hand) (do return reply (← holding target x)) (fun _ => Session.Tidy L)
      (Hindered (Session.Tidy L)) := by
  refine Ends.bind (Q := fun _ => Session.Tidy L) ?_ fun _ => .pure fun _ h => h
  exact named_neat.bind fun i => .assume fun hi => onWorld_tidy (h i hi)

/-- An instance that comes into hand is named. -/
theorem brings_tidy {x : Run InstanceId} {id : DefinitionId}
    (h : Ends (World.Neat L [] [] hand) x (World.Fresh L [] [] hand id)
      (Failing (World.Neat L [] [] hand))) :
    Ends (Neat L hand)
      (do
        let i ← onWorld x
        return Reply.node (← nameInstance name i))
      (fun _ => Session.Tidy L) (Hindered (Session.Tidy L)) := by
  refine Ends.bind (Q := fun i => Neat L (i :: hand)) ((onWorld_neat h).post fun i s hs =>
    ⟨hs.1, fun e he => List.mem_cons_of_mem _ (hs.2.1 e he), hs.2.2.neat⟩) fun i => ?_
  refine Ends.bind (Q := fun _ => Session.Tidy L) ?_ fun _ => .pure fun _ h => h
  unfold nameInstance
  refine Ends.bind (Q := fun _ => Neat L (i :: hand))
    ((onWorld_neat (.rootOf (fun _ _ => .of_abort) fun _ _ => .of_abort)).post fun _ _ hs =>
      ⟨hs.1, hs.2.1, hs.2.2.2.2⟩) fun root => ?_
  refine Ends.bind (Q := fun _ => Session.Tidy L) (.modify fun s hs => ?_) fun _ => .pure fun _ h => h
  refine ⟨i :: hand, hs.library, fun e he => ?_, hs.neat⟩
  rcases NameTable.mem_set he with he | rfl
  · exact hs.named e he
  · exact List.mem_cons_self ..

end Work

section Steps

open Session Work

variable {engine : Engine} (orderly : engine.Orderly) (tidies : engine.Tidies) {L : Reserve}
  {hand : List InstanceId} (hl : L.library = engine.library)

include orderly tidies hl

/-- A step that makes, renders, updates or dismounts an instance leaves the session tidy, also if it
fails. -/
theorem InstanceStep.perform_tidy (ranked : engine.library.Ranked) {step : InstanceStep}
    (upkeep : Step.Upkeep (.onInstance step)) :
    Ends (Neat L hand) (step.perform engine) (fun _ => Session.Tidy L)
      (Hindered (Session.Tidy L)) := by
  cases step with
  | construct name definition props controller =>
    exact brings_tidy (Run.construct_tidy orderly tidies hl ranked definition props controller)
  | acquire name definition share props controller =>
    exact brings_tidy (Run.acquire_tidy orderly tidies hl ranked definition share props controller)
  | render target props controller =>
    exact holding_tidy .stats fun i hi => Run.hold_render_tidy orderly tidies hl hi props controller
  | update target =>
    exact holding_tidy .stats fun i hi => Run.hold_update_tidy orderly tidies hl hi
  | updateWindow target start stop =>
    exact holding_tidy .stats fun i hi =>
      Run.hold_updateWindow_tidy orderly tidies hl hi start stop
  | updatePart target part =>
    exact holding_tidy .stats fun i hi => Run.hold_updatePart_tidy orderly tidies hl hi part
  | dismount target =>
    refine named_neat.bind fun i => .assume fun hi => ?_
    exact (onWorld_tidy (Run.retire_tidy.dismount L [] [] hand i hi).failing).bind fun _ =>
      .pure fun _ h => h
  | setState target value =>
    exact holding_tidy (fun _ => .done) fun i hi =>
      Run.hold_change_tidy hl hi fun _ => ⟨rfl, rfl, rfl, rfl, rfl⟩
  | writeState target path value =>
    exact holding_tidy .flag fun i hi => Run.hold_writeState_tidy hl hi path value
  | forget target =>
    refine Ends.bind (Q := fun _ => Session.Tidy L) (.modify fun s hs => ?_) fun _ => .pure fun _ h => h
    exact ⟨hand, hs.library, fun e he => hs.named e (List.mem_of_mem_filter he), hs.neat⟩
  | _ => exact upkeep.elim

/-- Raising an event leaves the session tidy, whatever its handlers do. -/
theorem NodeStep.dispatch_tidy {lib : Library} (lasts : engine.Lasts lib) (silent : lib.Silent)
    (hears : engine.Hears) (raises : engine.Raises) (ref : NodeRef) (event : String) (value : Value) :
    Ends (fun s => s.world.Heeds hand ∧ Neat L hand s)
      ((NodeStep.dispatch ref event value).perform engine) (fun _ => Session.Tidy L)
      (Hindered (Session.Tidy L)) := by
  refine Ends.bind (Q := fun _ s => s.world.Heeds hand ∧ Neat L hand s) (.pointwise fun s hs => ?_)
    fun i => ?_
  · exact (asks_eq.node ref s).mono (fun _ h => h) (by rintro _ _ rfl; exact hs)
      (by rintro _ _ rfl -; exact ⟨hand, hs.2⟩)
  · refine Ends.bind (Q := fun _ => Session.Tidy L) ?_ fun _ => .pure fun _ h => h
    exact (onWorld_ends (A := fun s => s.library = L.library ∧ ∀ e ∈ s.instances, e.2 ∈ hand)
      (fun _ h => h)
      (Run.dispatch_tidy orderly tidies hears raises hl lasts silent i event value)).mono
      (fun _ h => ⟨⟨h.2.library, h.2.named⟩, h.1, h.2.neat⟩)
      (fun _ _ h => ⟨hand, h.1.1, h.1.2, h.2.2⟩)
      fun _ _ h given => ⟨hand, (h given).1.1, (h given).1.2, (h given).2⟩

end Steps

namespace Session

variable {L : Reserve} {hand : List InstanceId} {s later : Session} {report : Report}

/-- In a secluded session whoever is in use is in hand, or held by those who are, when a step begins. -/
theorem Secluded.heeds (h : s.Secluded) (neat : s.Neat L hand) : s.keepNamed.world.Heeds hand where
  published := h.published
  kept i hi := by
    rw [show s.keepNamed.world.kept = s.kept from rfl, h.kept] at hi
    obtain ⟨e, he, rfl⟩ := List.mem_map.mp hi
    exact neat.named e he
  newcomers i hi := by
    rw [show s.keepNamed.world.newcomers = s.world.newcomers from rfl, h.newcomers] at hi
    cases hi
  held i hi := by
    obtain ⟨δ, tidy⟩ := neat.neat
    rw [show s.keepNamed.world.busy = s.world.busy from rfl, tidy.orderly.busy_eq] at hi
    cases hi

/-- A step that is upkeep leaves a session of a silent library tidy. -/
theorem Tidy.step (h : s.Tidy L) (secluded : s.Secluded) (ranked : L.library.Ranked)
    (silent : L.library.Silent) {step : Step} (upkeep : step.Upkeep)
    (run : s.step step = .ok (report, later)) : later.Tidy L := by
  obtain ⟨orderly, library⟩ := Engine.nested_orderly ranked Engine.depthLimit
  have tidies := Engine.nested_tidy ranked Engine.depthLimit
  obtain ⟨hand, neat⟩ := h
  have engine_eq : s.engine = .nested L.library Engine.depthLimit := by
    rw [engine, neat.library]
    rfl
  have performs : Ends (fun s => s.world.Heeds hand ∧ Session.Neat L hand s) (step.perform s.engine)
      (fun _ => Session.Tidy L) (Hindered (Session.Tidy L)) := by
    rw [engine_eq]
    cases step with
    | onInstance step =>
      exact (step.perform_tidy orderly tidies library.symm (library.symm ▸ ranked) upkeep).pre
        fun _ h => h.2
    | onNode step =>
      cases step with
      | dispatch ref event value =>
        exact NodeStep.dispatch_tidy orderly tidies library.symm
          (Engine.nested_lasts silent Engine.depthLimit) silent
          (Engine.nested_hears silent Engine.depthLimit)
          (Engine.nested_raises ranked silent Engine.depthLimit) ref event value
      | _ => exact upkeep.elim
    | _ => exact upkeep.elim
  -- The journal does not matter.
  have quiet {after : Session} (h : after.Tidy L) :
      Session.Tidy L { after with world := { after.world with journal := [] } } := by
    obtain ⟨hand, neat⟩ := h
    exact ⟨hand, neat.congr rfl rfl rfl rfl rfl rfl⟩
  have ends := performs s.keepNamed ⟨secluded.heeds neat, neat.congr rfl rfl rfl rfl rfl rfl⟩
  obtain ⟨after, rfl, ⟨reply, -, hx⟩ | ⟨refusal, o, -, given, hx⟩⟩ := of_step run
  · rw [hx] at ends
    exact quiet ends
  · rw [hx] at ends
    exact quiet (ends given)

/-- Upkeep leaves a session of a silent library tidy. -/
theorem Upkept.tidy (h : s.Upkept later) (secluded : s.Secluded) (ranked : L.library.Ranked)
    (silent : L.library.Silent) (tidy : s.Tidy L) : later.Tidy L := by
  have same : s.library = L.library := tidy.choose_spec.library
  induction h with
  | refl => exact tidy
  | step before upkeep run ih =>
    exact ih.step (secluded.lasts (before.lasts (same ▸ silent))) ranked silent upkeep run

end Session

/-- What an operation has to respect before there is any instance. -/
def Reserve.start (library : Library) (plan : DefinitionId → Blueprint) : Reserve where
  library := library
  plan := plan
  known := 0
  root _ := 0
  definition _ := none
  deeds := ⟨fun _ _ => none, fun _ => 0, fun _ => False⟩
  host _ := False
  lodges _ _ := False
  still _ := False
  children _ := []
  spared _ := False

namespace Session

/-- A session is tidy at its start. -/
theorem tidy_start {library : Traced Library} {plan : DefinitionId → Blueprint}
    (draws : ∀ {id d}, library.value[id]? = some d → (plan id).Draws d.template) :
    (start library).Tidy (.start library.value plan) := by
  obtain ⟨id, stocks⟩ := (orderly_start library).stocks
  have spare (id : DefinitionId) (i : InstanceId) : i ∉ (start library).world.pool id := fun hi => by
    unfold World.pool start World.empty at hi
    by_cases h : id < library.value.length <;> simp [h] at hi
  refine ⟨[], rfl, List.forall_mem_nil _, (Reserve.start library.value plan).deeds, ?_⟩
  exact
    { orderly := stocks.orderly
      valid :=
        { wellFormed := Document.wellFormed_empty
          live := nofun, top := nofun, inj := nofun, kind := nofun, up := nofun, seat := nofun }
      owner := nofun, apart := nofun, host := nofun, ready := nofun, spared := nofun, inHand := nofun
      pooled := fun hi => absurd hi (spare _ _)
      shows := nofun, seat := nofun
      known := Nat.le_refl 0
      roots := nofun, defined := nofun, same := nofun, hosts := nofun, still := nofun
      rooted := nofun
      draws }

/-- What a tidy session has is not destroyed. -/
theorem Has.alive {s : Session} {i : InstanceId} (h : s.Has i) {L : Reserve} {δ : Deeds}
    {hand : List InstanceId} (named : ∀ e ∈ s.instances, e.2 ∈ hand)
    (tidy : s.world.Tidy L δ [] [] hand) : δ.alive i := by
  induction h with
  | named hi =>
    obtain ⟨n, hn, -⟩ := NameTable.exists_position hi
    exact tidy.inHand _ (named _ (List.mem_of_getElem? hn))
  | held _ get held ih => exact (tidy.shows ih List.not_mem_nil get).2 _ held

/-- In a library in which watches only write to their nodes, and write texts only where there is
nothing else, take a definition that a component compiles to, and a session that came about by
upkeep. Each instance has a node for each entry of the component that has one, and whatever upkeep
follows, as long as the session has the instance, it contains what the component says, with these
nodes: the children of each element that has a repeated child, and none that leaves it, are what its
child entries put there, in order. -/
theorem contents_of_upkept {declarations : List Declaration} {library : Traced Library}
    (defined : Library.define declarations = .ok library)
    (roots : ∀ d ∈ declarations, d.Roots fun node => node.BuiltIn ∧ node.WritesLeaves)
    (ranked : library.value.Ranked) {id : DefinitionId} {d : Definition}
    (hd : library.value[id]? = some d) {options : CompileSettings} {name : String} {root : Node}
    (compiled : Template.compile options name root = .ok d.template) (builtIn : root.BuiltIn)
    (leaves : root.WritesLeaves) {s : Session} (before : (start library).Upkept s) :
    ∃ node : InstanceId → Nat → Option NodeId, ∀ later, s.Upkept later →
      ∀ i < s.world.instances.size, later.Has i →
        ∀ inst, later.world.instances[i]? = some inst → inst.definition = id →
          later.world.Contains (Lay.finished options (.ofRoot root)) (.ofRoot root) (node i)
            inst := by
  have inPlace : ∀ d ∈ declarations, d.Roots fun node => node.InPlace ∧ node.WritesLeaves :=
    fun d hd => (roots d hd).imp fun _ good => ⟨good.1.inPlace, good.2⟩
  obtain ⟨others, drawn⟩ := Library.exists_blueprints defined inPlace
  have silent : library.value.Silent := Library.silent_of_inPlace defined inPlace
  -- The definition is read off from the component; the others from whatever they were compiled from.
  let plan (k : DefinitionId) : Blueprint :=
    if k = id then ⟨root, Lay.finished options (.ofRoot root)⟩ else others k
  have draws {k : DefinitionId} {d' : Definition} (hk : library.value[k]? = some d') :
      (plan k).Draws d'.template := by
    by_cases he : k = id
    · subst he
      obtain rfl := Option.some.inj (hd.symm.trans hk)
      simp only [plan, if_pos]
      exact Blueprint.draws_of_compile compiled builtIn.inPlace leaves
    · simp only [plan, if_neg he]
      exact drawn k d' hk
  obtain ⟨hand, library', named, δ, tidy⟩ := before.tidy (secluded_start library) ranked silent
    (tidy_start draws)
  have frozen : s.Tidy ((Reserve.start library.value plan).freeze s.world δ fun _ => False) :=
    ⟨hand, library', named, δ, tidy.freeze _⟩
  refine ⟨fun i => δ.node (s.world.root i), fun later after i hi has inst get hid => ?_⟩
  obtain ⟨hand', -, named', δ', tidy'⟩ := after.tidy (before.secluded silent) ranked silent frozen
  have alive := has.alive named' tidy'
  have same : δ'.node inst.root = δ.node (s.world.root i) := by
    rw [← World.root_of_get (w := later.world) get, (tidy'.same alive hi).2, tidy'.roots i hi]
    rfl
  have planned : plan inst.definition = ⟨root, Lay.finished options (.ofRoot root)⟩ := if_pos hid
  show later.world.Contains _ _ (δ.node (s.world.root i)) inst
  rw [← same]
  refine tidy'.contains alive List.not_mem_nil get compiled planned ?_
  exact hid ▸ draws hd

/-! A sheet with a head, two repeaters of rows, a note that may be hidden, a row of its own and a text
in one list, and a session in which both repeaters grow, one runs empty and both fill again. -/

/-- The sheet, whose repeaters show two members of the state. -/
def sheet : Node :=
  ⟨{ kind := .element "ul" }, [
    ⟨{ kind := .element "li" }, []⟩,
    ⟨{ kind := .element "li",
       nested := some ⟨0, .props, some ⟨.state [.field "front"], none, some true⟩, true⟩ }, []⟩,
    ⟨{ kind := .element "b", visibility := some ⟨.state [.field "note"], false, .hide⟩ }, []⟩,
    ⟨{ kind := .element "li",
       nested := some ⟨0, .props, some ⟨.state [.field "back"], some [], none⟩, true⟩ }, []⟩,
    ⟨{ kind := .element "li", nested := some ⟨0, .state [.field "note"], none, true⟩ }, []⟩,
    ⟨{ kind := .text "end" }, []⟩]⟩

def sheetDeclaration : Declaration where
  id := "sheet"
  name := "sheet"
  origin := .root sheet {}

/-- The library of rows and sheets. -/
def sheetLibrary : Traced Library :=
  (Library.define [rowDeclaration, sheetDeclaration]).toOption.getD ⟨[], []⟩

/-- The sheet is given a state and updated. -/
def shownSheet (s : Session) (note : Value) (front back : List Value) : Session :=
  (s.after (.onInstance (.setState "sheet"
    (.map [("back", .list back), ("front", .list front), ("note", note)])))).after
      (.onInstance (.update "sheet"))

/-- The sheet after its repeaters have grown, shrunk and grown. -/
def sheetSession : Session :=
  shownSheet (shownSheet (shownSheet
    ((start sheetLibrary).after (.onInstance (.construct "sheet" 1 .null none)))
    (.str "a") [.int 1, .int 2] [.str "x", .str "y"]) .null [] [.str "y"])
    (.str "b") [.int 3] [.str "z", .str "y"]

/-- A session that is upkept is so after the sheet was shown. -/
theorem Upkept.shownSheet {s later : Session} (h : s.Upkept later) (note : Value)
    (front back : List Value) : s.Upkept (later.shownSheet note front back) :=
  (h.after (.onInstance (.setState ..)) trivial).after (.onInstance (.update _)) trivial

/-- The two repeaters keep to their places between the other children of the list. -/
theorem contents_of_sheet :
    Library.define [rowDeclaration, sheetDeclaration] = .ok sheetLibrary ∧
      sheetLibrary.value.Ranked ∧ (start sheetLibrary).Upkept sheetSession ∧
      ∃ node inst, sheetSession.world.instances[1]? = some inst ∧
        sheetSession.world.Contains (Lay.finished {} (.ofRoot sheet)) (.ofRoot sheet) node inst ∧
        sheetSession.world.document.children inst.root = [1, 10, 2, 8, 12, 5, 4] := by
  have defined : Library.define [rowDeclaration, sheetDeclaration] = .ok sheetLibrary := by
    obtain ⟨library, h⟩ := exists_of_isOk (x := Library.define [rowDeclaration, sheetDeclaration])
      (by decide +kernel)
    rw [sheetLibrary, h]
    rfl
  have ranked : sheetLibrary.value.Ranked := by decide +kernel
  have roots : ∀ d ∈ [rowDeclaration, sheetDeclaration],
      d.Roots fun node => node.BuiltIn ∧ node.WritesLeaves := by decide +kernel
  have upkept : (start sheetLibrary).Upkept sheetSession :=
    (((Upkept.refl.after (.onInstance (.construct ..)) trivial).shownSheet _ _ _).shownSheet
      _ _ _).shownSheet _ _ _
  obtain ⟨d, hd, compiled⟩ : ∃ d, sheetLibrary.value[1]? = some d ∧
      Template.compile {} "sheet" sheet = .ok d.template := by
    obtain ⟨t, ht⟩ := exists_of_isOk (x := Template.compile {} "sheet" sheet) (by decide +kernel)
    obtain ⟨row, hrow⟩ := exists_of_isOk (x := rowDeclaration.define []) (by decide +kernel)
    have made (lib : Library) : sheetDeclaration.define lib
        = .ok ⟨.new "sheet" t, [.log .debug (t.summary "sheet")]⟩ := by
      unfold Declaration.define Declaration.start sheetDeclaration
      simp only [ht]
      rfl
    have library := defined
    simp only [Library.define, List.foldlM_cons, List.foldlM_nil, hrow, made] at library
    rw [← Except.ok.inj library]
    exact ⟨_, rfl, ht⟩
  obtain ⟨inst, get, id, children⟩ : ∃ inst, sheetSession.world.instances[1]? = some inst ∧
      inst.definition = 1 ∧
      sheetSession.world.document.children inst.root = [1, 10, 2, 8, 12, 5, 4] := by
    have ok : sheetSession.world.instances[1]?.any (fun inst => decide (inst.definition = 1 ∧
        sheetSession.world.document.children inst.root = [1, 10, 2, 8, 12, 5, 4])) = true := by
      decide +kernel
    cases get : sheetSession.world.instances[1]? with
    | none =>
      rw [get] at ok
      cases ok
    | some inst =>
      rw [get] at ok
      exact ⟨inst, rfl, of_decide_eq_true ok⟩
  obtain ⟨node, contains⟩ := contents_of_upkept defined roots ranked hd compiled
    (by decide +kernel) (by decide +kernel) upkept
  have shown : sheetSession.instances.get? "sheet" = some 1 := by decide +kernel
  exact ⟨defined, ranked, upkept, node 1, inst, get,
    contains sheetSession .refl 1 (Array.getElem?_eq_some_iff.mp get).1 (.named shown) inst get id, children⟩

end Session

end ComponentView
