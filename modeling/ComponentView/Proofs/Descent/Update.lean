import ComponentView.Proofs.Descent.Repeat
import ComponentView.Proofs.Stillness.Pass
import ComponentView.Proofs.Throughout

/-! # Updates go down

What an effect renders is held by its instance, and what it raises or publishes reaches no instance of
a greater rank. So an update goes down from the instance that it updates (`Instance.update_sinks`). -/

namespace ComponentView

variable {rank : DefinitionId → ℕ} {lib : Library} {st : Stage rank} {k : DefinitionId}
  {d : Definition}

namespace Library.Descends

variable (h : lib.Descends rank) (hd : lib[k]? = some d)

include h hd

/-- What a definition refers to ranks below it. -/
theorem lt_of_refers {plan : StashPlan} (hp : plan ∈ d.template.stash) {k' : DefinitionId}
    (hk : plan.refers d = some k') : rank k' < rank k :=
  h.refers (d, k) (List.mem_zipIdx_iff_getElem?.mpr hd) plan hp k' hk

/-- Who listens for what instances of a definition raise does not rank above it. -/
theorem le_of_raises {event : String} (he : event ∈ d.template.raises) {k' : DefinitionId}
    {handler : Handler} (hears : lib.Hears k' event handler) : rank k' ≤ rank k := by
  obtain ⟨d', hd', l, hl, rfl, -⟩ := hears
  exact h.raises (d, k) (List.mem_zipIdx_iff_getElem?.mpr hd) (d', k')
    (List.mem_zipIdx_iff_getElem?.mpr hd') l hl he

end Library.Descends

/-! ## Passes -/

namespace Pass

variable {s : Setting} {α : Type} {bound : ℕ∞}

/-- Evaluating an expression sinks. -/
theorem evaluate_sinks (key : LookupKey) :
    Holding.Sinks lib st (.pass rank bound) (evaluate s key) :=
  Holding.Gives.held.bind fun _ => (Holding.Gives.outside (.traced _)).bind fun _ =>
    Holding.Gives.bind (.change fun _ _ _ h => h) fun _ => .pure trivial

/-- What is found in the stash ranks below the bound. -/
theorem fetch_sinks {claim : Claim α} {key : StashIndex} {kind : StashKind}
    {pick : StashItem → Option α} (hpick : ∀ {known : Knowledge} {item a}, pick item = some a →
      item.Below rank known bound → claim.holds known a) :
    Holding.Gives lib st (.pass rank bound) claim (fetch s key kind pick) := by
  refine Holding.Gives.held.bind_known fun st' p _ hp => .outside ?_
  unfold Run.fetch
  dsimp only
  split
  · next a ha =>
    obtain ⟨item, hi, ha⟩ := Option.bind_eq_some_iff.mp ha
    exact .pure (hpick ha (hp item (List.mem_of_getElem? hi)))
  · exact (Run.Gives.log _ _).bind fun _ => .fail

/-- An entry is replaced by one that ranks below the bound. -/
theorem below_store {known : Knowledge} {p : Pass} (hp : (Claim.pass rank bound).holds known p)
    {item : StashItem} (hi : item.Below rank known bound) (key : StashIndex) :
    (Claim.pass rank bound).holds known (p.store key item) := fun other hm => by
  rcases List.mem_or_eq_of_mem_set hm with hm | rfl
  · exact hp other hm
  · exact hi

/-- Working on a part of the stash that stays below the bound. -/
theorem revise_sinks {good : Claim α} {entry : α → StashItem} {a : α} {x : Holding α Unit}
    (ha : good.holds st.known a)
    (below : ∀ {known : Knowledge} {b}, good.holds known b → (entry b).Below rank known bound)
    (hx : Holding.Sinks lib st good x) (key : StashIndex) :
    Holding.Sinks lib st (.pass rank bound) (revise key entry a x) :=
  Holding.Gives.bind (.within (fun _ _ grows _ => good.steady grows ha)
    (fun _ _ _ _ grows hb hp => below_store ((Claim.pass rank bound).steady grows hp) (below hb) key) hx)
    fun _ => Holding.Gives.held.bind fun _ => .outside (.showStash _)

/-- Asking for the items of a value sinks. -/
theorem itemsOf_sinks (v : Value) : Run.Sinks lib st (Effect.itemsOf v) := by
  unfold Effect.itemsOf
  split
  · exact .pure trivial
  · exact .pure trivial
  · exact .fail

/-- The first item of a repeater is not held. -/
theorem anchorIn_sinks {stash : List StashItem}
    (below : (Claim.entry rank st.bound).all.holds st.known stash) (container : NodeId)
    (anchors : List Anchor) : Run.Sinks lib st (Effect.anchorIn s stash container anchors) := by
  induction anchors with
  | nil => exact .pure trivial
  | cons anchor rest ih =>
    cases anchor with
    | slot slot =>
      unfold Effect.anchorIn
      refine .get_bind fun st' w leads _ _ => ?_
      dsimp only
      split
      · exact .pure trivial
      · exact ih.leads leads
    | repeater key =>
      unfold Effect.anchorIn
      split
      · next i hi =>
        obtain ⟨item, hk, hi⟩ := Option.bind_eq_some_iff.mp hi
        have held := (below item (List.mem_of_getElem? hk)).of_mem_held (head?_mem_held hi)
        exact (Run.Gives.rootOf held.admits.free).bind fun _ => .pure trivial
      · exact ih

section Sinks

variable (sinks : s.engine.Sinks lib rank) (own : st.bound = rank k)

include own

/-- A repeater is found and patched. -/
theorem repeat_sinks {kind : StashKind} {pick : StashItem → Option α} {entry : α → StashItem}
    {claim : DefinitionId → Claim α} (definition : α → DefinitionId) {anchors : α → List Anchor}
    {patch : Option NodeId → List Value → Holding α Unit}
    (hpick : ∀ {known : Knowledge} {item a}, pick item = some a → item.Below rank known (rank k) →
      (claim (definition a)).holds known a ∧ (rank (definition a) : ℕ∞) < rank k)
    (below : ∀ {known : Knowledge} {id b}, (claim id).holds known b → (rank id : ℕ∞) < rank k →
      (entry b).Below rank known (rank k))
    (hx : ∀ (st' : Stage rank) id anchor items, (rank id : ℕ∞) < st'.bound →
      Holding.Sinks lib st' (claim id) (patch anchor items))
    (container : NodeId) (key : StashIndex) (items : LookupKey) :
    Holding.Sinks lib st (.pass rank (rank k)) (do
      let items ← Holding.outside (Effect.itemsOf (← evaluate s items))
      let r ← fetch s key kind pick
      let anchor ← Holding.outside
        (Effect.anchorIn s (← Holding.held).stash container (anchors r))
      revise key entry r (patch anchor items)) := by
  refine (evaluate_sinks items).bind fun v => (Holding.Gives.outside (itemsOf_sinks v)).bind
    fun list => ?_
  let found : Claim α := ⟨fun known r => (claim (definition r)).holds known r ∧
    (rank (definition r) : ℕ∞) < rank k, fun grows h => ⟨(claim _).steady grows h.1, h.2⟩⟩
  have fetched : Holding.Gives lib st (.pass rank (rank k)) found (fetch s key kind pick) :=
    fetch_sinks hpick
  refine fetched.bind_known fun st' r leads ⟨hr, low⟩ => ?_
  refine Holding.Gives.held.bind_known fun st'' p leads' hp => ?_
  have here : st''.bound = rank k := (leads.trans leads').bound.trans own
  refine (Holding.Gives.outside (anchorIn_sinks (here ▸ hp) container _)).bind fun anchor => ?_
  exact revise_sinks ((claim _).steady leads'.known hr) (fun hb => below hb low)
    (hx st'' _ anchor list (here ▸ low)) key

variable (descends : lib.Descends rank) (known : lib[k]? = some s.definition)

include sinks descends known

/-- An effect of the definition enters what its instance holds, and sends to instances of no greater
rank. -/
theorem effect_sinks (node : NodeId) (value : Value) {f : Effect} (hf : f ∈ s.template.effects) :
    Holding.Sinks lib st (.pass rank (rank k)) (f.run s node value) := by
  cases f with
  | setText => exact .outside (.onDocument fun d => .setText d node _)
  | setAttribute name => exact .outside (.onDocument fun d => .setAttribute d node name _)
  | switchClass name => exact .outside (.onDocument fun d => .setClass d node name _)
  | switchClasses names =>
    exact .forM fun name _ => .outside (.onDocument fun d => .setClass d node name _)
  | setStyle property =>
    simp only [Effect.run]
    exact .outside (.onDocument fun d => Document.Hushed.setAttribute d node _ _)
  | renderChild key props =>
    refine (evaluate_sinks props).bind fun v => ?_
    have fetched : Holding.Gives lib st (.pass rank (rank k)) (.below rank (rank k))
        (fetch s key .child StashItem.child?) := fetch_sinks fun {_ item _} ha below => by
      cases item with
      | child i => exact Option.some.inj ha ▸ below
      | _ => cases ha
    refine fetched.bind_known fun st' child leads hc => ?_
    have admits : st'.Admits child :=
      Knowledge.Below.admits (by rw [leads.bound, own]; exact hc)
    exact (Holding.Gives.outside (sinks.render st' child v s.controller admits)).bind
      fun _ => .pure trivial
  | renderSequence key items =>
    refine repeat_sinks own Sequential.definition (fun {_ item _} ha below => ?_)
      Claim.below_of_sequential (fun st' id anchor items low =>
        Sequential.patch_sinks sinks s.controller low node anchor items) node key items
    cases item with
    | sequential r => exact Option.some.inj ha ▸ ⟨⟨rfl, below.2⟩, below.1⟩
    | _ => cases ha
  | renderKeyed key items =>
    refine repeat_sinks own Keyed.definition (fun {_ item _} ha below => ?_)
      Claim.below_of_keyed (fun st' id anchor items low =>
        Keyed.patch_sinks sinks s.controller low node anchor items) node key items
    cases item with
    | keyed r => exact Option.some.inj ha ▸ ⟨⟨rfl, below.2⟩, below.1⟩
    | _ => cases ha
  | record tag => exact .outside (.record _)
  | failWhen message =>
    simp only [Effect.run]
    split
    · exact .outside .fail
    · exact .pure trivial
  | recordLookup key => exact (evaluate_sinks key).bind fun _ => .outside (.record _)
  | recordScope => exact .outside (.record _)
  | dispatch event =>
    have raised : event ∈ s.template.raises :=
      List.mem_append_left _ (List.mem_filterMap.mpr ⟨_, hf, rfl⟩)
    refine .outside ((sinks.dispatch st node event value fun k' _ hears => ?_).bind fun _ =>
      .record _)
    rw [own]
    exact_mod_cast descends.le_of_raises known raised hears
  | publish name =>
    have published : name ∈ s.template.publishes :=
      List.mem_append_left _ (List.mem_filterMap.mpr ⟨_, hf, rfl⟩)
    exact .outside ((sinks.publish st name value
      ⟨k, Library.mem_publishers known published, own.ge⟩).bind fun _ => .record _)

/-- Running the callbacks of a watch sinks. -/
theorem runCallbacks_sinks (node : NodeId) {watch : Nat} {w : Watch}
    (hw : s.template.watches[watch]? = some w) :
    Holding.Sinks lib st (.pass rank (rank k)) (runCallbacks s node watch w) := by
  refine .forM fun (c, position) hc => ?_
  have effects (value : Value) : Holding.Sinks lib st (.pass rank (rank k))
      (c.effects.forM (Effect.run s node value)) := .forM fun f hf => by
    refine effect_sinks sinks own descends known node value ?_
    have there : c ∈ w.callbacks := List.mem_of_getElem? (List.mem_zipIdx_iff_getElem?.mp hc)
    exact List.mem_flatMap.mpr ⟨w, List.mem_of_getElem? hw, List.mem_flatMap.mpr ⟨c, there, hf⟩⟩
  show Holding.Sinks lib st (.pass rank (rank k)) (runCallback s node watch position c)
  unfold runCallback
  split
  · exact (effects .null).bind fun _ => .change fun _ _ _ h => h
  · refine (evaluate_sinks _).bind fun value => Holding.Gives.held.bind fun p => ?_
    split
    · exact .pure trivial
    · exact (effects value).bind fun _ => .change fun _ _ _ h => h

omit known own sinks descends in
/-- Asking for the node of a slot sinks. -/
theorem node_sinks (slot : Nat) : Run.Sinks lib st (s.node slot) := by
  unfold Setting.node
  split
  · exact .pure trivial
  · exact .giveUp nofun

omit known own sinks descends in
/-- Moving a node changes the document and a tracker. -/
theorem applyShield_sinks {bound : ℕ∞} (shield : Shield) (node : NodeId) :
    Holding.Sinks lib st (.pass rank bound) (applyShield s shield node) := by
  have visible : Holding.Sinks lib st (.pass rank bound) (isVisible s shield) :=
    (evaluate_sinks _).bind fun _ => .pure trivial
  have moved (plan : DetachPlan) (visible : Bool) :
      Holding.Sinks lib st (.pass rank bound) (moveNode s plan node visible) := by
    refine (Holding.Gives.outside (node_sinks plan.parent)).bind fun parent => ?_
    refine Holding.Gives.bind (?_ : Holding.Sinks lib st (.pass rank bound) _) fun t =>
      Holding.Gives.bind (?_ : Holding.Sinks lib st (.pass rank bound) _) fun t' =>
        .change fun _ _ _ h => below_store h (show (StashItem.tracker t').Below rank _ _ from trivial) _
    · exact fetch_sinks fun _ _ => trivial
    refine .outside (.modifyGet fun st' w _ hw => ⟨trivial, hw.quiet rfl rfl rfl rfl ?_⟩)
    exact t.apply_hushed _ _ _ _ _
  unfold applyShield
  refine visible.bind fun v => ?_
  split
  · exact (moved _ v).bind fun _ => .pure trivial
  · exact (Holding.Gives.outside (.onDocument fun d => .setAttribute d node _ _)).bind
      fun _ => .pure trivial

/-- A visit sinks. -/
theorem visit_sinks {watch : Nat} {w : Watch} (hw : s.template.watches[watch]? = some w) (rest : Nat) :
    Holding.Sinks lib st (.pass rank (rank k)) (visit s watch w rest) := by
  refine (Holding.Gives.outside (node_sinks w.slot)).bind fun node => Holding.Gives.bind
    (.change fun _ _ _ h => h) fun _ => ?_
  have called := runCallbacks_sinks sinks own descends known node hw
  split
  · exact called.bind fun _ => .pure trivial
  · refine (applyShield_sinks _ node).bind fun visible => ?_
    split
    · exact called.bind fun _ => .pure trivial
    · exact (Holding.Gives.outside (.log _ _)).bind fun _ => Holding.Gives.bind
        (.change fun _ _ _ h => h) fun _ => .pure trivial

/-- A walk over watches of the definition goes down. -/
theorem walk_sinks (skip : Nat) {ws : List (Watch × Nat)}
    (hws : ∀ x ∈ ws, s.template.watches[x.2]? = some x.1) :
    Holding.Sinks lib st (.pass rank (rank k)) (walk s skip ws) := by
  induction ws generalizing skip with
  | nil => cases skip <;> exact .pure trivial
  | cons x ws ih =>
    rw [List.forall_mem_cons] at hws
    obtain ⟨w, watch⟩ := x
    cases skip with
    | zero =>
      exact (visit_sinks sinks own descends known hws.1 ws.length).bind fun skip => ih skip hws.2
    | succ skip => exact ih skip hws.2

end Sinks

end Pass

/-! ## Updates -/

namespace Instance

variable {engine : Engine} (sinks : engine.Sinks lib rank) (descends : lib.Descends rank)
  (own : st.bound = rank k)

include sinks descends own

/-- An update of an instance goes down from it. -/
theorem updateWindow_sinks (start stop : Nat) :
    Holding.Sinks lib st (.ranked rank k) (updateWindow engine start stop) := by
  refine Holding.Gives.held.bind_known fun st' inst leads ⟨definition, _⟩ => ?_
  have found : Run.Gives lib st' ⟨fun _ d => lib[k]? = some d, fun _ h => h⟩
      (engine.library.definition inst.definition) := fun _ _ => by
    rw [sinks.library, definition]
    exact (Ends.definition fun _ _ => .of_abort nofun)
  refine (Holding.Gives.outside found).bind_known fun st'' d leads' hd => ?_
  have here : st''.bound = rank k := (leads.trans leads').bound.trans own
  have walked : Holding.Sinks lib st'' (.pass rank (rank k))
      (Pass.walk (.ofInstance engine d inst) 0 (d.template.window start stop)) :=
    Pass.walk_sinks sinks here descends hd 0 fun x hx =>
      List.mem_zipIdx_iff_getElem?.mp (List.mem_of_mem_take (List.mem_of_mem_drop hx))
  exact .within (fun _ _ _ h => h.2) (fun _ _ _ _ _ hp h => ⟨h.1, hp⟩) (walked.bind fun _ =>
    Holding.Gives.held.bind fun _ => .pure trivial)

/-- An update sinks. -/
theorem update_sinks : Holding.Sinks lib st (.ranked rank k) (update engine) :=
  Holding.Gives.held.bind fun _ => (Holding.Gives.outside (.definition _ _)).bind fun d =>
    updateWindow_sinks sinks descends own 0 d.template.watches.length

/-- An update of a part sinks. -/
theorem updatePart_sinks (name : String) :
    Holding.Sinks lib st (.ranked rank k) (updatePart engine name) := by
  refine Holding.Gives.held.bind fun _ => (Holding.Gives.outside (.definition _ _)).bind fun d => ?_
  split
  · exact updateWindow_sinks sinks descends own _ _
  · exact .outside .fail

/-- A render sinks. -/
theorem render_sinks (props : Value) (controller : Controller) :
    Holding.Sinks lib st (.ranked rank k) (render engine props controller) :=
  Holding.Gives.bind (.change fun _ _ _ h => h) fun _ => update_sinks sinks descends own

end Instance

end ComponentView
