import ComponentView.Proofs.Ownership.Walk
import ComponentView.Proofs.Tight.Repeat

/-! # Updates of tight instances

Each effect of a tight template finds the entry of the stash that it asks for, each watch its node,
and an update leaves the instance as its template says (`Instance.updateWindow_safe`). -/

namespace ComponentView

variable {lib : Library}

/-! ## Passes -/

namespace Pass

variable {s : Setting} {α : Type}

/-- The cache and the stash of the pass are as the template says. -/
abbrev Follows (s : Setting) (p : Pass) : Prop := s.template.Backs p.cache p.stash

/-- Evaluating an expression is safe. -/
theorem evaluate_safe (key : LookupKey) : Holding.Safe lib (Follows s) (evaluate s key) := by
  refine Holding.Safe.held.bind fun _ => (Holding.Safe.outside (.traced _)).bind fun r => ?_
  exact Preserves.bind (Holding.Safe.change fun _ h => h) fun _ => .pure _

/-- What is planned is found, and suits its plan. -/
theorem fetch_safe {key : StashIndex} {kind : StashKind} {pick : StashItem → Option α}
    (stashes : s.template.Stashes key kind)
    (hpick : ∀ item, item.kind = kind → ∃ a, pick item = some a) (busy : List InstanceId) :
    Ends (Focus.Tight (Follows s) lib busy) (fetch s key kind pick)
      (fun a f => (∃ plan item, s.template.stash[key]? = some plan ∧ item.Suits plan ∧
        pick item = some a) ∧ Focus.Tight (Follows s) lib busy f)
      (Safely (Focus.Tight (Follows s) lib busy)) := by
  refine Ends.held.bind fun p => Ends.outside fun p' w h => ?_
  obtain ⟨rfl, h⟩ := h
  obtain ⟨plan, item, hp, hi, suits, hk⟩ := h.1.stash_at stashes
  obtain ⟨a, ha⟩ := hpick item (suits.kind.trans hk)
  unfold Run.fetch
  simp only [hi, Option.bind_some, ha]
  exact ⟨⟨plan, item, hp, suits, ha⟩, h⟩

/-- An entry is replaced by one that suits its plan. -/
theorem Follows.store {p : Pass} (h : Follows s p) {key : StashIndex} {item : StashItem}
    {plan : StashPlan} (hp : s.template.stash[key]? = some plan) (suits : item.Suits plan) :
    Follows s (p.store key item) := ⟨h.cache, StashItem.Suits.set h.stash hp suits⟩

/-- Working on a repeater of the stash is safe if that keeps its anchors and leaves it even. -/
theorem revise_safe {entry : α → StashItem} {key : StashIndex} {a : α} {x : Holding α Unit}
    {plan : StashPlan} (hp : s.template.stash[key]? = some plan) (suits : (entry a).Suits plan)
    (kind : ∀ b, (entry b).kind = (entry a).kind)
    (hx : Holding.Safe lib (fun b => True → (entry b).Kept (entry a).anchors) x) :
    Holding.Safe lib (Follows s) (revise key entry a x) :=
  Preserves.bind (Holding.Safe.within (fun _ _ _ => ⟨rfl, suits.even⟩) (fun b _ kept follows =>
    follows.store hp ⟨(kind b).trans suits.kind, (kept trivial).anchors.trans suits.anchors,
      (kept trivial).even⟩) hx) fun _ => Holding.Safe.held.bind fun _ => Holding.Safe.outside (.showStash _)

/-- Asking for the items of a value is safe. -/
theorem itemsOf_safe (v : Value) : Run.Safe lib (Effect.itemsOf v) := by
  unfold Effect.itemsOf
  split
  · exact .pure _
  · exact .pure _
  · exact Run.Safe.fail id

/-- Looking for an anchor stops over no misfit, whatever the anchors are. -/
theorem anchorIn_safe (stash : List StashItem) (container : NodeId) (anchors : List Anchor) :
    Run.Safe lib (Effect.anchorIn s stash container anchors) := by
  induction anchors with
  | nil => exact .pure _
  | cons anchor rest ih =>
    cases anchor with
    | slot slot =>
      unfold Effect.anchorIn
      refine Preserves.get.bind fun w => ?_
      dsimp only
      split
      · exact .pure _
      · exact ih
    | repeater key =>
      unfold Effect.anchorIn
      split
      · exact (Run.Safe.rootOf _).bind fun _ => .pure _
      · exact ih

section Tight

variable (safe : s.engine.Safe lib) (elements : s.elements.length = s.template.slots.length)

/-- A repeater is found and patched. -/
theorem repeat_safe {kind : StashKind} {pick : StashItem → Option α} {entry : α → StashItem}
    {anchors : α → List Anchor} {patch : Option NodeId → List Value → Holding α Unit}
    (hpick : ∀ item, item.kind = kind → ∃ a, pick item = some a)
    (back : ∀ item a, pick item = some a → item = entry a)
    (kinds : ∀ a b, (entry a).kind = (entry b).kind)
    (hx : ∀ a anchor items,
      Holding.Safe lib (fun b => True → (entry b).Kept (entry a).anchors) (patch anchor items))
    (container : NodeId) {key : StashIndex} {items : LookupKey}
    (stashes : s.template.Stashes key kind) :
    Holding.Safe lib (Follows s) (do
      let items ← Holding.outside (Effect.itemsOf (← evaluate s items))
      let r ← fetch s key kind pick
      let anchor ← Holding.outside
        (Effect.anchorIn s (← Holding.held).stash container (anchors r))
      revise key entry r (patch anchor items)) := by
  refine (evaluate_safe items).bind fun v => (Holding.Safe.outside (itemsOf_safe v)).bind
    fun list busy => ?_
  refine (fetch_safe stashes hpick busy).bind fun r => .assume ?_
  rintro ⟨plan, item, hp, suits, ha⟩
  obtain rfl := back item r ha
  exact (Holding.Safe.held.bind fun _ => (Holding.Safe.outside (anchorIn_safe _ _ _)).bind
    fun anchor => revise_safe hp suits (fun b => kinds b r) (hx r anchor list)) busy

include safe

/-- An effect of a tight template finds the entry that it renders. -/
theorem effect_safe (node : NodeId) (value : Value) {f : Effect} (hf : f.Tight s.template) :
    Holding.Safe lib (Follows s) (f.run s node value) := by
  cases f with
  | setText | setAttribute | switchClass | setStyle =>
    unfold Effect.run
    exact .outside (.onDocument _)
  | switchClasses names => exact .forM fun _ _ => Holding.Safe.outside (.onDocument _)
  -- Only the effects that render look up an entry of the stash.
  | renderChild key props =>
    refine (evaluate_safe props).bind fun v busy => ?_
    refine (fetch_safe hf.1 (fun item hi => ?_) busy).bind fun child => .assume fun _ => ?_
    · cases item with
      | child i => exact ⟨i, rfl⟩
      | _ => cases hi
    · exact ((Holding.Safe.outside (safe.render child v s.controller)).bind fun _ => .pure _) busy
  | renderSequence key items =>
    refine repeat_safe (fun item hi => ?_) (fun item r h => ?_) (fun _ _ => rfl)
      (fun r anchor list => Sequential.patch_safe safe s.controller True r.anchors node anchor list)
      node hf.1
    · cases item with
      | sequential r => exact ⟨r, rfl⟩
      | _ => cases hi
    · cases item with
      | sequential r' => exact congrArg _ (Option.some.inj h)
      | _ => cases h
  | renderKeyed key items =>
    refine repeat_safe (fun item hi => ?_) (fun item r h => ?_) (fun _ _ => rfl)
      (fun r anchor list => Keyed.patch_safe safe s.controller True r.anchors node anchor list)
      node hf.1
    · cases item with
      | keyed r => exact ⟨r, rfl⟩
      | _ => cases hi
    · cases item with
      | keyed r' => exact congrArg _ (Option.some.inj h)
      | _ => cases h
  | record | recordScope =>
    unfold Effect.run
    exact .outside (.record _)
  | failWhen message =>
    show Holding.Safe lib _ (if value.isTruthy then _ else _)
    split
    · exact .outside (.fail id)
    · exact .pure _
  | recordLookup key => exact (evaluate_safe key).bind fun _ => Holding.Safe.outside (.record _)
  | dispatch event =>
    exact .outside ((safe.dispatch node event value).bind fun _ => Run.Safe.record _)
  | publish name => exact .outside ((safe.publish name value).bind fun _ => Run.Safe.record _)

/-- The callbacks of a watch run safely, and the cache keeps its shape. -/
theorem runCallbacks_safe (node : NodeId) (k : Nat) {w : Watch} (hw : w.Tight s.template) :
    Holding.Safe lib (Follows s) (runCallbacks s node k w) := by
  refine .forM fun x hx => ?_
  obtain ⟨c, position⟩ := x
  have hc := List.mem_of_getElem? (List.mem_zipIdx_iff_getElem?.mp hx)
  have effects (value : Value) :
      Holding.Safe lib (Follows s) (c.effects.forM (Effect.run s node value)) :=
    .forM fun f hf => effect_safe safe node value (hw.effects c hc f hf)
  show Holding.Safe lib (Follows s) (runCallback s node k position c)
  unfold runCallback
  split
  · exact (effects .null).bind fun _ => Holding.Safe.change fun _ h => h
  · refine (evaluate_safe _).bind fun value => Holding.Safe.held.bind fun p => ?_
    split
    · exact .pure _
    · exact (effects value).bind fun _ => Holding.Safe.change fun p h =>
        ⟨Cache.map_length_set.trans h.cache, h.stash⟩

include elements

omit safe in
/-- The node of a slot that the template has. -/
theorem node_safe {slot : Nat} (h : slot < s.template.slots.length) : Run.Safe lib (s.node slot) := by
  rw [Setting.node, List.getElem?_eq_getElem (elements ▸ h)]
  exact .pure _

omit safe in
/-- A shield finds the parent of its node and the tracker of that. -/
theorem applyShield_safe (node : NodeId) {shield : Shield} (hs : shield.Tight s.template) :
    Holding.Safe lib (Follows s) (applyShield s shield node) := by
  refine Preserves.bind ((evaluate_safe _).bind fun _ => .pure _) fun visible => ?_
  split
  · next plan hplan =>
    refine Preserves.bind (fun busy => ?_) fun _ => .pure _
    refine (Holding.Safe.outside (node_safe elements (hs.parent plan hplan)) busy).bind fun parent =>
      (fetch_safe (hs.tracker plan hplan) (fun item hi => ?_) busy).bind fun t => .assume ?_
    · cases item with
      | tracker t => exact ⟨t, rfl⟩
      | _ => cases hi
    · rintro ⟨plan', item, hp, suits, ht⟩
      refine (Preserves.bind (Holding.Safe.outside (.modifyGet fun _ => ⟨rfl, rfl, rfl⟩)) fun t' =>
        Holding.Safe.change fun p h => h.store hp ?_) busy
      cases item with
      | tracker t => exact ⟨suits.kind, suits.anchors, trivial⟩
      | _ => cases ht
  · exact (Holding.Safe.outside (.onDocument _)).bind fun _ => .pure _

/-- Coming to a watch finds its node. -/
theorem visit_safe (k : Nat) {w : Watch} (hw : w.Tight s.template) (rest : Nat) :
    Holding.Safe lib (Follows s) (visit s k w rest) := by
  refine (Holding.Safe.outside (node_safe elements hw.slot)).bind fun node =>
    Preserves.bind (Holding.Safe.change fun _ h => h) fun _ => ?_
  have callbacks := runCallbacks_safe safe node k hw
  split
  · exact callbacks.bind fun _ => .pure _
  · next shield hs =>
    refine (applyShield_safe elements node (hw.shield shield hs)).bind fun visible => ?_
    split
    · exact callbacks.bind fun _ => .pure _
    · exact (Holding.Safe.outside (.log _ _)).bind fun _ =>
        Preserves.bind (Holding.Safe.change fun _ h => h) fun _ => .pure _

/-- Walking a window is safe. -/
theorem walk_safe (tight : s.template.Tight) (skip : Nat) {ws : List (Watch × Nat)}
    (known : ∀ x ∈ ws, x.1 ∈ s.template.watches) :
    Holding.Safe lib (Follows s) (walk s skip ws) := by
  induction ws generalizing skip with
  | nil => exact .pure _
  | cons x ws ih =>
    rw [List.forall_mem_cons] at known
    cases skip with
    | zero =>
      exact (visit_safe safe elements x.2 (tight.watches _ known.1) ws.length).bind fun skip =>
        ih skip known.2
    | succ skip => exact ih skip known.2

end Tight

end Pass

/-! ## Updates -/

namespace Instance

variable {engine : Engine} (safe : engine.Safe lib) (tight : lib.Tight)

include safe tight

/-- An update of any window of an instance that follows its template is safe. -/
theorem updateWindow_safe (start stop : Nat) :
    Holding.Safe lib (Follows lib) (updateWindow engine start stop) := by
  refine fun busy => .pointwise fun f hf => ?_
  obtain ⟨inst, w⟩ := f
  obtain ⟨⟨d, hd, elements, backs⟩, hw⟩ := hf
  have back {p : Pass} (h : Pass.Follows (.ofInstance engine d inst) p) :
      (p.finish inst).Follows lib := ⟨d, hd, elements, h⟩
  refine (updateWindow_ends (P := World.Tight lib busy) (safe.library ▸ hd) ?_).pre
    (by rintro _ rfl; exact ⟨rfl, hw⟩)
  refine (Pass.walk_safe (s := .ofInstance engine d inst) safe elements (tight hd) 0
    (fun x hx => List.mem_of_getElem? (Setting.mem_window.mp hx).2.2) busy).mono ?_
    (fun _ _ h => ⟨back h.1, h.2⟩) fun _ _ h => h.mono fun h => ⟨back h.1, h.2⟩
  rintro ⟨p, v⟩ ⟨rfl, hv⟩
  exact ⟨backs, hv⟩

/-- An update is safe. -/
theorem update_safe : Holding.Safe lib (Follows lib) (update engine) :=
  Holding.Safe.held.bind fun _ => (Holding.Safe.outside (.definition _ _)).bind fun _ =>
    updateWindow_safe safe tight _ _

/-- An update of a part is safe. -/
theorem updatePart_safe (name : String) : Holding.Safe lib (Follows lib) (updatePart engine name) := by
  refine Holding.Safe.held.bind fun _ => (Holding.Safe.outside (.definition _ _)).bind fun d => ?_
  split
  · exact updateWindow_safe safe tight _ _
  · exact Holding.Safe.outside (.fail id)

/-- A render is safe. -/
theorem render_safe (props : Value) (controller : Controller) :
    Holding.Safe lib (Follows lib) (render engine props controller) :=
  Preserves.bind (Holding.Safe.change fun _ h => h) fun _ => update_safe safe tight

end Instance

end ComponentView
