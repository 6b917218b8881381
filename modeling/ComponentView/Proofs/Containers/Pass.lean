import ComponentView.Proofs.Containers.Changes
import ComponentView.Proofs.Ownership.Pass
import ComponentView.Proofs.Stillness.Update

/-! # Passes in a tidy world

During a pass the instance that is held goes on showing the stash of the pass (`Pass.Tended`),
whichever watches the pass comes to (`Pass.walk_tidy`) and wherever it fails. So an instance shows its
stash after an update, a render or an update of a part, be it finished or not
(`Instance.update_tidy`, `Instance.render_tidy`, `Instance.updatePart_tidy`). -/

namespace ComponentView

open Blueprint

/-- At the slot of an entry that no child component stands for there is its node. -/
theorem Blueprint.Shows.node_of_slot {B : Blueprint} {node : Nat → Option NodeId}
    {root : InstanceId → NodeId} {children : NodeId → List NodeId} {elements : List NodeId}
    {stash : List StashItem} (h : B.Shows node root children elements stash) {slot n : Nat}
    {p : NodeId} (owns : B.layout.Owns slot n) (hk : B.layout.keyOf n = none)
    (hp : elements[slot]? = some p) : node n = some p := by
  obtain ⟨x, hx, hc⟩ := h.slots owns
  obtain rfl := Option.some.inj (hp.symm.trans hx)
  rw [cell_of_none hk] at hc
  cases hn : node n <;> simp_all

namespace Pass

variable {s : Setting} {L : Reserve} {id : DefinitionId} {r : NodeId}
  {busy lost hand : List InstanceId} {i n slot : Nat} {e : OutlineEntry} {p : NodeId}
  {key : StashIndex} {trigger : Trigger} {effect : Effect}

/-- During a pass the host shows the stash of the pass. -/
def Tended (s : Setting) (L : Reserve) (id : DefinitionId) (r : NodeId)
    (busy lost hand : List InstanceId) (f : Focus Pass) : Prop :=
  f.world.Minds L id r busy lost hand s.elements f.held.stash

/-! ## Looking things up -/

/-- Evaluating an expression keeps the pass tended. -/
theorem evaluate_tidy (key : LookupKey) {E : Stop → Focus Pass → Prop} :
    Ends (Tended s L id r busy lost hand) (evaluate s key)
      (fun _ => Tended s L id r busy lost hand) E :=
  fun _ h => World.Minds.congr h rfl rfl rfl rfl

/-- What is recorded does not matter. -/
theorem record_tidy (value : Value) {E : Stop → Focus Pass → Prop} :
    Ends (Tended s L id r busy lost hand) (Holding.outside (Run.record value))
      (fun _ => Tended s L id r busy lost hand) E :=
  .outside fun _ => .modify fun _ h => World.Minds.congr h rfl rfl rfl rfl

/-- An entry that is fetched is the one at the key, and the pass is tended. -/
theorem fetch_tidy {α : Type} {expected : StashKind} {pick : StashItem → Option α} :
    Ends (Tended s L id r busy lost hand) (fetch s key expected pick)
      (fun a f => (∃ item, f.held.stash[key]? = some item ∧ pick item = some a) ∧
        Tended s L id r busy lost hand f) (Failing (Tended s L id r busy lost hand)) := by
  unfold fetch Run.fetch
  refine Ends.held.bind fun q => .outside fun q' => .pointwise fun w h => ?_
  obtain ⟨rfl, h⟩ := h
  dsimp only
  split
  · next a ha =>
    refine .pure ?_
    rintro _ rfl
    exact ⟨Option.bind_eq_some_iff.mp ha, h⟩
  · refine Ends.bind (Q := fun _ w => Tended s L id r busy lost hand ⟨q, w⟩) (.modify ?_)
      fun _ _ h _ _ => h
    rintro _ rfl
    exact h.congr rfl rfl rfl rfl

/-- Asking for the items of a value keeps the pass tended. -/
theorem itemsOf_tidy (value : Value) :
    Ends (Tended s L id r busy lost hand) (Holding.outside (Effect.itemsOf value))
      (fun _ => Tended s L id r busy lost hand) (Failing (Tended s L id r busy lost hand)) := by
  refine .outside fun q => ?_
  cases value with
  | null | list => exact .pure fun _ h => h
  | _ => exact fun _ h _ _ => h

/-- What is noted beside the stash does not matter. -/
theorem change_tidy {g : Pass → Pass} (hg : ∀ q, (g q).stash = q.stash)
    {E : Stop → Focus Pass → Prop} :
    Ends (Tended s L id r busy lost hand) (Holding.change g)
      (fun _ => Tended s L id r busy lost hand) E := by
  refine .change fun q w h => ?_
  unfold Tended
  rw [hg]
  exact h

/-! ## Repeaters -/

/-- Showing the stash to the world only touches an instance that is held. -/
theorem showStash_tidy (stash : List StashItem) {E : Stop → Focus Pass → Prop} :
    Ends (Tended s L id r busy lost hand) (Holding.outside (Run.showStash stash))
      (fun _ => Tended s L id r busy lost hand) E := by
  refine .outside fun q => .modify fun w h => ?_
  obtain ⟨δ, tidy⟩ := h.neat
  split
  · next me rest hb =>
    have held : me ∈ busy := tidy.orderly.busy_eq ▸ hb ▸ List.mem_cons_self ..
    exact h.touch held fun _ => ⟨rfl, rfl⟩
  · exact h

/-- Patching a repeater of the stash. -/
theorem revise_tidy {α : Type} {entry : α → StashItem} {a : α} {x : Holding α Unit} {q : Pass}
    {w : World} (hx : Ends (⟨a, w⟩ = ·) x
      (fun _ g => g.world.Minds L id r busy lost hand s.elements (q.stash.set key (entry g.held)))
      (Failing fun g =>
        g.world.Minds L id r busy lost hand s.elements (q.stash.set key (entry g.held)))) :
    Ends (⟨q, w⟩ = ·) (revise key entry a x) (fun _ => Tended s L id r busy lost hand)
      (Failing (Tended s L id r busy lost hand)) := by
  refine Ends.bind (Q := fun _ => Tended s L id r busy lost hand) ?_ fun _ =>
    (Ends.held.post fun _ _ h => h.2).bind fun q => showStash_tidy q.stash
  rintro _ rfl
  have run := hx _ rfl
  unfold Holding.within
  cases h : x ⟨a, w⟩ with
  | ok b g => rw [h] at run; exact run
  | error stop g => rw [h] at run; exact run

/-- An entry of the stash that is a repeater, with its definition and its anchors. -/
structure Repeating {α : Type} (pick : StashItem → Option α) (entry : α → StashItem)
    (definition : α → DefinitionId) (anchors : α → List Anchor) : Prop where
  picked : ∀ {item a}, pick item = some a → item = entry a
  child : ∀ a i, entry a ≠ .child i
  kind : ∀ a b, (entry a).kind = (entry b).kind
  anchors : ∀ a, (entry a).anchors = anchors a
  ranks : ∀ {a w id}, (entry a).Ranks w id → definition a < id ∧
    (∀ k ∈ (entry a).held, w.definition? k = some (definition a)) ∧
      ∀ id, definition a < id → (entry a).Ranks w id

/-- Repeaters by position are entries of the stash that repeat. -/
theorem repeating_sequential : Repeating StashItem.sequential? StashItem.sequential
    Sequential.definition Sequential.anchors where
  picked {item r} h := by cases item <;> simp_all [StashItem.sequential?]
  child _ _ := nofun
  kind _ _ := rfl
  anchors _ := rfl
  ranks h := ⟨h.1, h.2, fun _ hlt => ⟨hlt, h.2⟩⟩

/-- Repeaters by key are entries of the stash that repeat. -/
theorem repeating_keyed : Repeating StashItem.keyed? StashItem.keyed
    Keyed.definition Keyed.anchors where
  picked {item r} h := by cases item <;> simp_all [StashItem.keyed?]
  child _ _ := nofun
  kind _ _ := rfl
  anchors _ := rfl
  ranks h := ⟨h.1, h.2.1, fun _ hlt => ⟨hlt, h.2⟩⟩

section Draws

variable (opens : L.Opens id r hand) (draws : (L.plan id).Draws s.template)

include opens

/-- A repeater of a node of the host is brought in step with some items, before the anchor that it is
given. -/
theorem repeat_tidy {α : Type} {expected : StashKind} {pick : StashItem → Option α}
    {entry : α → StashItem} {definition : α → DefinitionId} {anchors : α → List Anchor}
    (repeating : Repeating pick entry definition anchors)
    {patch : List Value → Option NodeId → Holding α Unit}
    (patched : ∀ {M : Reserve} {b : Block} {other : List InstanceId} {found : List Anchor}
      {anchor : Option NodeId} {a : α} {w : World} (list : List Value), M.library = L.library →
      M.Site r n b other → (b.regular → anchor = b.after.head?) → b.container = p →
      definition a = b.definition → w.Serves M b busy lost other found (entry a) →
        Ends (⟨a, w⟩ = ·) (patch list anchor)
          (fun _ g => g.world.Serves M b busy lost other found (entry g.held))
          (Failing fun g => g.world.Serves M b busy lost other found (entry g.held)))
    (repeats : (L.plan id).layout.Repeats i key)
    (anchored : (L.plan id).layout.Anchored (L.plan id).outline i key)
    (hi : i ∈ (L.plan id).outline.childrenOf n) (hp : L.deeds.node r n = some p)
    (items : LookupKey) :
    Ends (Tended s L id r busy lost hand) (do
      let list ← Holding.outside (Effect.itemsOf (← evaluate s items))
      let a ← fetch s key expected pick
      let anchor ← Holding.outside (Effect.anchorIn s (← Holding.held).stash p (anchors a))
      revise key entry a (patch list anchor)) (fun _ => Tended s L id r busy lost hand)
      (Failing (Tended s L id r busy lost hand)) := by
  refine (evaluate_tidy items).bind fun value => (itemsOf_tidy value).bind fun list => ?_
  refine fetch_tidy.bind fun a => .pointwise fun f hf => ?_
  obtain ⟨⟨item, hs, ha⟩, h⟩ := hf
  obtain rfl := repeating.picked ha
  obtain ⟨q, w⟩ := f
  dsimp only at hs h
  obtain ⟨lower, rows, ranks⟩ := repeating.ranks (h.ranks _ (List.mem_of_getElem? hs))
  obtain ⟨plan, hplan, marks⟩ := anchored
  obtain ⟨entry', he, hpar⟩ := Outline.mem_childrenOf.mp hi
  have found : anchors a = plan.anchors := (repeating.anchors a).symm.trans (h.shows.plans hs hplan).2
  refine .held_at ?_
  refine Ends.bind ((Ends.outside_eq (h.anchorIn opens hp (found ▸ marks entry' n he hpar)
    fun m hm => (List.mem_filter.mp hm).1)).failing) fun anchor => .pointwise fun f hf => ?_
  obtain ⟨rfl, rfl, before⟩ := hf
  -- The repeater is handed over with its container, patched on its own, and taken back.
  obtain ⟨δ, tidy⟩ := h.neat
  have site := tidy.site key opens hi hp lower
  have serves := h.handOver opens tidy hs repeats hi hp rows ranks
  have back {g : Focus α} (hg : g.world.Serves (L.freeze f.world δ (· ≠ p))
      ((L.plan id).block (L.deeds.node r) f.world.root f.held.stash n i p (definition a)) busy lost
      (World.besides f.held.stash key hand) (entry a).anchors (entry g.held)) :
      g.world.Minds L id r busy lost hand s.elements (f.held.stash.set key (entry g.held)) := by
    exact h.takeBack opens tidy hs repeats hi hp hg (repeating.kind g.held a) hg.anchors
      (repeating.child a) lower
  have ends := patched (M := L.freeze f.world δ (· ≠ p)) list rfl site before rfl rfl serves
  exact revise_tidy (ends.mono (fun _ h => h) (fun _ _ hg => back hg) fun _ _ hg => hg.mono back)

/-! ## Effects -/

/-- What only writes to a live node moves nothing. -/
theorem write_tidy {x : NodeId} (owns : (L.plan id).layout.Owns slot n)
    (hx : s.elements[slot]? = some x) {g : Document Listener → Document Listener}
    (same : ∀ d, Document.SameForest d (g d))
    (wellFormed : ∀ d : Document Listener, d.WellFormed → d.isLive x = true → (g d).WellFormed)
    {E : Stop → Focus Pass → Prop} :
    Ends (Tended s L id r busy lost hand) (Holding.outside (Run.onDocument g))
      (fun _ => Tended s L id r busy lost hand) E := by
  refine .outside fun q => .modify fun w h => ?_
  obtain ⟨δ, tidy⟩ := h.neat
  obtain ⟨y, hy, live⟩ := h.live opens owns
  obtain rfl := Option.some.inj (hx.symm.trans hy)
  exact World.Minds.sameForest h (same _) (wellFormed _ tidy.valid.wellFormed live)

/-- Writing an attribute of an element keeps the pass tended. -/
theorem setAttribute_tidy (owns : (L.plan id).layout.Owns slot n) (hx : s.elements[slot]? = some p)
    (name : String) (text : Option String) {E : Stop → Focus Pass → Prop} :
    Ends (Tended s L id r busy lost hand)
      (Holding.outside (Run.onDocument (·.setAttribute p name text)))
      (fun _ => Tended s L id r busy lost hand) E :=
  write_tidy opens owns hx (fun d => Document.sameForest_setAttribute d p name text)
    fun _ hd live => hd.setAttribute live name text

/-- Setting a class of an element keeps the pass tended. -/
theorem setClass_tidy (owns : (L.plan id).layout.Owns slot n) (hx : s.elements[slot]? = some p)
    (name : String) (on : Bool) {E : Stop → Focus Pass → Prop} :
    Ends (Tended s L id r busy lost hand) (Holding.outside (Run.onDocument (·.setClass p name on)))
      (fun _ => Tended s L id r busy lost hand) E :=
  write_tidy opens owns hx (fun d => Document.sameForest_setClass d p name on)
    fun _ hd live => hd.setClass live name on

include draws

omit opens in
/-- A repeated node is shown in the node of its parent, at the slot of which its watch works. -/
theorem container {f : Focus Pass} (h : Tended s L id r busy lost hand f)
    (he : (L.plan id).outline[i]? = some e) (owns : (L.plan id).layout.Owns slot (Layout.workplace i e))
    (hp : s.elements[slot]? = some p) (repeats : (L.plan id).layout.Repeats i key) :
    ∃ n, i ∈ (L.plan id).outline.childrenOf n ∧ L.deeds.node r n = some p := by
  obtain ⟨-, e', he', repeated, -⟩ := draws.regular.repeats repeats
  obtain rfl := Option.some.inj (he.symm.trans he')
  obtain ⟨n, hn⟩ := Option.isSome_iff_exists.mp (draws.sound.repeated he repeated).1
  rw [Layout.workplace, if_pos repeated, hn, Option.getD_some] at owns
  have hi := Outline.mem_childrenOf.mpr ⟨e, he, hn⟩
  exact ⟨n, hi, h.shows.node_of_slot owns (draws.keyOf_parent hi) hp⟩

/-- A watch directive that moves no node writes to its own, and text only to one with nothing below,
or records something, or fails. -/
theorem watched_tidy (he : (L.plan id).outline[i]? = some e)
    (owns : (L.plan id).layout.Owns slot (Layout.workplace i e)) (hp : s.elements[slot]? = some p)
    {d : WatchDirective} (hd : d ∈ e.node.head.watches) (value : Value) :
    Ends (Tended s L id r busy lost hand) (d.effect.run s p value)
      (fun _ => Tended s L id r busy lost hand) (Failing (Tended s L id r busy lost hand)) := by
  have hmem := List.mem_of_getElem? he
  have inPlace := draws.inPlace e hmem d hd
  have leaves := draws.leaves e hmem d hd
  cases effect : d.effect with
  | setText =>
    obtain ⟨leaf, component⟩ := leaves (by rw [effect]; rfl)
    rw [Layout.workplace, NodeHead.isRepeated_of_not_isComponent component, if_neg Bool.false_ne_true] at owns
    have none : (L.plan id).layout.keyOf i = none := Option.not_isSome_iff_eq_none.mp (by
      rw [draws.regular.isSome_keyOf he, component]
      exact Bool.false_ne_true)
    have childless : (L.plan id).outline.childrenOf i = [] := by
      rw [Blueprint.outline, Outline.childrenOf_eq he, leaf]
      rfl
    show Ends _ (Holding.outside (Run.onDocument (·.setText p value.text))) _ _
    refine .outside fun q => .modify fun w h => ?_
    exact h.setText opens (h.shows.node_of_slot owns none hp) childless value.text
  | setAttribute name => exact setAttribute_tidy opens owns hp name _
  | switchClass name => exact setClass_tidy opens owns hp name _
  | switchClasses names => exact .forM fun name _ => setClass_tidy opens owns hp name _
  | setStyle property =>
    exact write_tidy opens owns hp (fun d => Document.sameForest_setStyle d p property _)
      fun d hd live => hd.setStyle live property _
  | record tag => exact record_tidy _
  | failWhen message =>
    show Ends _ (if value.isTruthy then _ else _) _ _
    split
    · exact .outside fun q => .fail
    · exact .pure fun _ h => h
  | recordLookup key => exact (evaluate_tidy key).bind fun v => record_tidy _
  | recordScope => exact record_tidy _
  | _ =>
    rw [effect] at inPlace
    cases inPlace

variable (tidies : s.engine.Tidies) (hl : L.library = s.engine.library)

include tidies hl

/-- An effect that the directives of a component ask for leaves its instances showing their stash. -/
theorem effect_tidy (he : (L.plan id).outline[i]? = some e)
    (owns : (L.plan id).layout.Owns slot (Layout.workplace i e)) (hp : s.elements[slot]? = some p)
    (serves : (L.plan id).layout.Serves i e trigger effect) (value : Value) :
    Ends (Tended s L id r busy lost hand) (effect.run s p value)
      (fun _ => Tended s L id r busy lost hand) (Failing (Tended s L id r busy lost hand)) := by
  cases serves with
  | @watch d key mem _ => exact watched_tidy opens draws he owns hp mem value
  | bind => exact setAttribute_tidy opens owns hp _ _
  | toggle => exact .forM fun name _ => setClass_tidy opens owns hp name _
  | @child _ _ _ key props _ =>
    refine (evaluate_tidy props).bind fun a => fetch_tidy.bind fun k => .pointwise fun f hf => ?_
    obtain ⟨⟨item, hs, hc⟩, h⟩ := hf
    obtain rfl : item = .child k := by cases item <;> simp_all [StashItem.child?]
    refine Ends.bind (Q := fun _ => Tended s L id r busy lost hand) ?_ fun _ => .pure fun _ h => h
    refine .outside fun q => .pointwise fun w hw => ?_
    subst hw
    exact h.render opens tidies hl (List.mem_flatMap.mpr
      ⟨_, List.mem_of_getElem? hs, List.mem_singleton_self k⟩) a s.controller
  | @sequence _ _ key items _ _ repeats _ =>
    refine .pointwise fun f h => ?_
    obtain ⟨n, hi, hn⟩ := container draws h he owns hp repeats
    refine (repeat_tidy opens repeating_sequential (fun list hM site before hc hd hserves => ?_)
      repeats (draws.anchored i key repeats) hi hn items).pre (by rintro _ rfl; exact h)
    exact hc ▸ Sequential.patch_serves site tidies (hM.trans hl) before s.controller list hd hserves
  | @keyed _ _ _ key items _ _ repeats _ =>
    refine .pointwise fun f h => ?_
    obtain ⟨n, hi, hn⟩ := container draws h he owns hp repeats
    refine (repeat_tidy opens repeating_keyed (fun list hM site before hc hd hserves => ?_)
      repeats (draws.anchored i key repeats) hi hn items).pre (by rintro _ rfl; exact h)
    exact hc ▸ Keyed.patch_serves site tidies (hM.trans hl) before s.controller list hd hserves

/-! ## Watches -/

omit opens draws tidies hl in
/-- The node of a slot is the element there, and the pass is tended. -/
theorem node_tidy (slot : Nat) : Ends (Tended s L id r busy lost hand) (Holding.outside (s.node slot))
    (fun x f => s.elements[slot]? = some x ∧ Tended s L id r busy lost hand f)
    (Failing (Tended s L id r busy lost hand)) := by
  refine .outside fun q => ?_
  unfold Setting.node
  split
  · next x hx => exact .pure fun _ h => ⟨hx, h⟩
  · exact fun _ _ => .of_abort

omit tidies hl in
/-- A node that may leave its parent is moved, and that is noted. -/
theorem moveNode_tidy (he : (L.plan id).outline[i]? = some e) (owns : (L.plan id).layout.Owns slot i)
    (hp : s.elements[slot]? = some p) {plan : DetachPlan}
    (detaches : (L.plan id).layout.Detaches e plan) (visible : Bool) :
    Ends (Tended s L id r busy lost hand) (moveNode s plan p visible)
      (fun _ => Tended s L id r busy lost hand) (Failing (Tended s L id r busy lost hand)) := by
  obtain ⟨n, hn, parent, -⟩ := detaches.parent
  have hi := Outline.mem_childrenOf.mpr ⟨e, he, hn⟩
  -- The children of its parent do not all stay, so the parent is not regular.
  have irregular : ¬ (L.plan id).Regular n := by
    rintro ⟨a, ha, -, -, stay⟩
    rcases Outline.parent_ofRoot he with ⟨-, rfl⟩ | ⟨n', -, a', position, ha', hn', child⟩
    · cases hn
    · obtain rfl := Option.some.inj (hn.symm.trans hn')
      obtain rfl := Option.some.inj (ha.symm.trans ha')
      have := stay _ (List.mem_of_getElem? child.node)
      rw [detaches.canDetach] at this
      cases this
  unfold moveNode
  refine (node_tidy plan.parent).bind fun q => .assume fun hq => ?_
  refine fetch_tidy.bind fun t => .pointwise fun f hf => ?_
  obtain ⟨⟨item, hs, ht⟩, h⟩ := hf
  obtain rfl : item = .tracker t := by cases item <;> simp_all [StashItem.tracker?]
  obtain ⟨δ, tidy⟩ := h.neat
  have node := h.shows.node_of_slot parent (draws.keyOf_parent hi) hq
  obtain ⟨x, hx, guest⟩ := h.guest opens tidy owns hi node
  obtain rfl := Option.some.inj (hp.symm.trans hx)
  refine Ends.bind (Q := fun _ g => g.held = f.held ∧
    g.world.Minds L id r busy lost hand s.elements f.held.stash) ?_ fun t' => .change fun q' w hg => ?_
  · refine .outside fun q' => .modifyGet fun w hw => ?_
    subst hw
    exact ⟨rfl, h.apply opens tidy guest irregular t plan.position visible⟩
  · obtain ⟨rfl, hg⟩ := hg
    exact hg.retrack opens hs t'

omit tidies hl in
/-- A shield brings the node of its watch to where it has to be, or marks it. -/
theorem applyShield_tidy {w : Watch} (he : (L.plan id).outline[i]? = some e)
    (works : (L.plan id).Works i e w) (hp : s.elements[w.slot]? = some p) {shield : Shield}
    (hs : w.shield = some shield) :
    Ends (Tended s L id r busy lost hand) (applyShield s shield p)
      (fun _ => Tended s L id r busy lost hand) (Failing (Tended s L id r busy lost hand)) := by
  unfold applyShield isVisible
  refine Ends.bind (Q := fun _ => Tended s L id r busy lost hand)
    ((evaluate_tidy shield.query).bind fun _ => .pure fun _ h => h) fun visible => ?_
  split
  · next plan hplan =>
    have detaches := works.detach shield hs plan hplan
    have repeated : e.node.head.isRepeated = false := Bool.eq_false_iff.mpr fun hr => by
      have hidden := detaches.canDetach
      rw [NodeHead.canDetach, (draws.sound.repeated he hr).2] at hidden
      cases hidden
    have owns := works.slot
    rw [Layout.workplace, repeated, if_neg Bool.false_ne_true] at owns
    exact (moveNode_tidy opens draws he owns hp detaches visible).bind fun _ => .pure fun _ h => h
  · refine Ends.bind (write_tidy opens works.slot hp
      (fun d => Document.sameForest_setAttribute d p s.template.hideAttribute _)
      fun d hd live => hd.setAttribute live _ _) fun _ => .pure fun _ h => h

/-- A visit leaves the host showing its stash. -/
theorem visit_tidy {w : Watch} (hw : w ∈ s.template.watches) (k rest : Nat) :
    Ends (Tended s L id r busy lost hand) (visit s k w rest)
      (fun _ => Tended s L id r busy lost hand) (Failing (Tended s L id r busy lost hand)) := by
  -- The watch works for some entry of the outline, at the slot of its workplace.
  obtain ⟨i, e, he, works⟩ := draws.works w hw
  have callbacks {p : NodeId} (hp : s.elements[w.slot]? = some p) :
      Ends (Tended s L id r busy lost hand) (runCallbacks s p k w)
        (fun _ => Tended s L id r busy lost hand) (Failing (Tended s L id r busy lost hand)) := by
    refine .forM fun x hx => ?_
    obtain ⟨c, position⟩ := x
    have hc : c ∈ w.callbacks := List.mem_of_getElem? (List.mem_zipIdx_iff_getElem?.mp hx)
    have effects (value : Value) : Ends (Tended s L id r busy lost hand)
        (c.effects.forM (Effect.run s p value)) (fun _ => Tended s L id r busy lost hand)
        (Failing (Tended s L id r busy lost hand)) :=
      .forM fun f hf => effect_tidy opens draws tidies hl he works.slot hp
        (works.effects c hc f hf) value
    show Ends _ (runCallback s p k position c) _ _
    unfold runCallback
    split
    · exact (effects .null).bind fun _ => change_tidy (by exact fun _ => rfl)
    · next lookup _ =>
      refine (evaluate_tidy lookup).bind fun value => (Ends.held.post fun _ _ h => h.2).bind fun q => ?_
      split
      · exact .pure fun _ h => h
      · exact (effects value).bind fun _ => change_tidy (by exact fun _ => rfl)
  unfold visit
  refine (node_tidy w.slot).bind fun p => .assume fun hp => ?_
  refine (change_tidy (by exact fun _ => rfl)).bind fun _ => ?_
  split
  · exact (callbacks hp).bind fun _ => .pure fun _ h => h
  · next shield shielded =>
    refine (applyShield_tidy opens draws he works hp shielded).bind fun visible => ?_
    split
    · exact (callbacks hp).bind fun _ => .pure fun _ h => h
    · refine Ends.bind (Q := fun _ => Tended s L id r busy lost hand)
        (.outside fun q => .modify fun w h => ?_) fun _ =>
          (change_tidy (by exact fun _ => rfl)).bind fun _ => .pure fun _ h => h
      exact World.Minds.congr h rfl rfl rfl rfl

/-- A walk leaves the host showing its stash, whichever watches it comes to. -/
theorem walk_tidy (skip : Nat) {ws : List (Watch × Nat)} (hws : ∀ x ∈ ws, x.1 ∈ s.template.watches) :
    Ends (Tended s L id r busy lost hand) (walk s skip ws)
      (fun _ => Tended s L id r busy lost hand) (Failing (Tended s L id r busy lost hand)) := by
  induction ws generalizing skip with
  | nil => exact .pure fun _ h => h
  | cons x ws ih =>
    rw [List.forall_mem_cons] at hws
    cases skip with
    | zero => exact (visit_tidy opens draws tidies hl hws.1 x.2 ws.length).bind fun skip => ih skip hws.2
    | succ skip => exact ih skip hws.2

end Draws

end Pass

/-! ## Updates -/

namespace Instance

variable {engine : Engine} {L : Reserve} {id : DefinitionId} {r : NodeId}
  {busy lost hand : List InstanceId} (opens : L.Opens id r hand)
  (plans : ∀ {id d}, L.library[id]? = some d → (L.plan id).Draws d.template)
  (tidies : engine.Tidies) (hl : L.library = engine.library)

include opens plans tidies hl

/-- After an update of a window the instance shows its stash. -/
theorem updateWindow_tidy (start stop : Nat) :
    Ends (Tended L id r busy lost hand) (updateWindow engine start stop)
      (fun _ => Tended L id r busy lost hand) (Failing (Tended L id r busy lost hand)) := by
  refine .pointwise fun f h => ?_
  obtain ⟨inst, w⟩ := f
  obtain ⟨root, definition, minds⟩ := h
  dsimp only at root definition minds
  cases hd : engine.library[inst.definition]? with
  | none =>
    -- An instance without a definition is not updated.
    unfold updateWindow
    refine .held_at (Ends.bind (Q := fun _ _ => False) (.outside fun _ => ?_) fun _ => nofun)
    refine (Ends.definition fun _ _ => .of_abort).post fun d _ h => ?_
    cases hd.symm.trans h.1
  | some d =>
    have draws := plans (hl ▸ hd)
    rw [definition] at draws
    refine (updateWindow_ends (P := (w = ·)) hd ?_).pre (by rintro _ rfl; exact ⟨rfl, rfl⟩)
    have walked (watches : List (Watch × Nat)) (hw : ∀ x ∈ watches, x.1 ∈ d.template.watches) :
        Ends (Pass.Tended (.ofInstance engine d inst) L id r busy lost hand)
          (Pass.walk (.ofInstance engine d inst) 0 watches)
          (fun _ => Pass.Tended (.ofInstance engine d inst) L id r busy lost hand)
          (Failing (Pass.Tended (.ofInstance engine d inst) L id r busy lost hand)) := by
      apply Pass.walk_tidy <;> assumption
    refine (walked _ fun x hx => List.mem_of_getElem? (Setting.mem_window.mp hx).2.2).mono ?_
      (fun _ later h => ⟨root, definition, h⟩) fun _ _ h => h.mono fun h => ⟨root, definition, h⟩
    rintro ⟨_, _⟩ ⟨rfl, rfl⟩
    exact minds

/-- After an update the instance shows its stash. -/
theorem update_tidy :
    Ends (Tended L id r busy lost hand) (update engine)
      (fun _ => Tended L id r busy lost hand) (Failing (Tended L id r busy lost hand)) := by
  refine (Ends.held.post fun _ _ h => h.2).bind fun inst => ?_
  exact Ends.bind (Q := fun _ => Tended L id r busy lost hand)
    (.outside fun _ => (Ends.definition fun _ _ => .of_abort).post fun _ _ h => h.2)
    fun d => updateWindow_tidy opens plans tidies hl _ _

/-- After an update of a part the instance shows its stash. -/
theorem updatePart_tidy (name : String) :
    Ends (Tended L id r busy lost hand) (updatePart engine name)
      (fun _ => Tended L id r busy lost hand) (Failing (Tended L id r busy lost hand)) := by
  refine (Ends.held.post fun _ _ h => h.2).bind fun inst => ?_
  refine Ends.bind (Q := fun _ => Tended L id r busy lost hand)
    (.outside fun _ => (Ends.definition fun _ _ => .of_abort).post fun _ _ h => h.2) fun d => ?_
  split
  · exact updateWindow_tidy opens plans tidies hl _ _
  · exact .outside fun _ _ h _ _ => h

/-- After a render the instance shows its stash. -/
theorem render_tidy (props : Value) (controller : Controller) :
    Ends (Tended L id r busy lost hand) (render engine props controller)
      (fun _ => Tended L id r busy lost hand) (Failing (Tended L id r busy lost hand)) := by
  refine Ends.bind (Q := fun _ => Tended L id r busy lost hand) (.change fun inst w h => ?_) fun _ =>
    update_tidy opens plans tidies hl
  exact ⟨h.root, h.definition, h.minds⟩

end Instance

end ComponentView
