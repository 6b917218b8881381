import ComponentView.Proofs.Cascade.Tree
import ComponentView.Proofs.Document.Staleness
import ComponentView.Proofs.Lasting
import ComponentView.Proofs.SecondUpdate

/-! # Stale instances

A destroyed instance keeps the numbers of its nodes and may still be rendered, updated and put out of
use. As long as no new node has got one of these numbers the instance is stale, and so are its nested
children: whatever is done with it, the live nodes of the document stay as they are and no node becomes
live (`Engine.nested_stale`). Repeaters are left out, since they may build instances, and so are watches
that raise events or publish something.

What is said of the document and of the nodes of some instances is a parameter (`World.Encloses`): these
instances hold only one another, so retirements and updates stay among them. -/

namespace ComponentView

/-! ## Enclosed instances -/

/-- The entry of a stash is a tracker, or a nested child in `S`. -/
def StashItem.Enclosed (S : Set InstanceId) : StashItem → Prop
  | .tracker _ => True
  | .child i => i ∈ S
  | _ => False

/-- The root and the other nodes of the instance are as `P` says, and it holds nothing but nested
children in `S`. -/
structure Instance.Enclosed (P : NodeId → List NodeId → Prop) (S : Set InstanceId)
    (inst : Instance) : Prop where
  nodes : P inst.root inst.elements
  stash : ∀ item ∈ inst.stash, item.Enclosed S

/-- The document is as `D` says, the nodes of the instances in `S` are as `P` says, and what these hold
are nested children in `S` again. -/
structure World.Encloses (D : Document Listener → Prop) (P : NodeId → List NodeId → Prop)
    (S : Set InstanceId) (w : World) : Prop where
  document : D w.document
  enclosed : ∀ {k inst}, k ∈ S → w.instances[k]? = some inst → inst.Enclosed P S

/-- What is held is as `good` says, and the world encloses the instances in `S`. -/
def Focus.Encloses {α : Type} (good : α → Prop) (D : Document Listener → Prop)
    (P : NodeId → List NodeId → Prop) (S : Set InstanceId) (f : Focus α) : Prop :=
  good f.held ∧ f.world.Encloses D P S

/-- Wherever the computation ends or stops, the world goes on enclosing the instances in `S`. -/
def Run.Encloses {α : Type} (D : Document Listener → Prop) (P : NodeId → List NodeId → Prop)
    (S : Set InstanceId) (x : Run α) : Prop :=
  Preserves (fun (_ : Unit) => World.Encloses D P S) (fun _ _ => World.Encloses D P S) x

/-- So it does, and what is held stays good. -/
def Holding.Encloses {α β : Type} (good : α → Prop) (D : Document Listener → Prop)
    (P : NodeId → List NodeId → Prop) (S : Set InstanceId) (x : Holding α β) : Prop :=
  Preserves (fun (_ : Unit) => Focus.Encloses good D P S) (fun _ _ => Focus.Encloses good D P S) x

variable {D : Document Listener → Prop} {P : NodeId → List NodeId → Prop} {S : Set InstanceId}

/-! ## Over the world -/

namespace Run.Encloses

variable {α : Type}

/-- Only the document and the instances matter. -/
theorem modify {f : World → World} (h : ∀ w, (f w).document = w.document ∧
    (f w).instances = w.instances) : Run.Encloses D P S (modify f) :=
  Preserves.modify fun _ w hw => ⟨(h w).1 ▸ hw.document, fun hk get => hw.enclosed hk ((h w).2 ▸ get)⟩

/-- The document may be changed to one that is as `D` says. -/
theorem onDocument {f : Document Listener → Document Listener} (h : ∀ d, D d → D (f d)) :
    Run.Encloses D P S (onDocument f) :=
  Preserves.modify fun _ _ hw => ⟨h _ hw.document, hw.enclosed⟩

/-- Something may be said. -/
theorem say (entries : List Entry) : Run.Encloses D P S (say entries) := modify fun _ => ⟨rfl, rfl⟩

/-- A computation may speak. -/
theorem traced (r : Traced α) : Run.Encloses D P S (traced r) := (say _).bind fun _ => .pure _

/-- A failure leaves everything as it is. -/
theorem fail (cause : Fault) : Run.Encloses D P S (fail cause : Run α) := .throw fun _ _ h => h

/-- So does giving up. -/
theorem giveUp (cause : Abort) : Run.Encloses D P S (giveUp cause : Run α) := .throw fun _ _ h => h

/-- A definition may be asked for. -/
theorem definition (library : Library) (id : DefinitionId) :
    Run.Encloses D P S (library.definition id) := by
  unfold Library.definition
  split
  · exact .pure _
  · exact giveUp _

/-- An instance in `S` may be held for what leaves it enclosed. -/
theorem hold {i : InstanceId} {x : Holding Instance α} (hi : i ∈ S)
    (h : Holding.Encloses (Instance.Enclosed P S) D P S x) : Run.Encloses D P S (hold i x) := by
  refine fun _ => Ends.hold (fun _ h => h) (fun _ h => h) fun w inst hw get _ => ?_
  have back {f : Focus Instance} (hf : Focus.Encloses (Instance.Enclosed P S) D P S f) :
      (Run.hold.back i w.busy f).Encloses D P S :=
    ⟨hf.2.document, fun hk get => by
      rcases eq_or_get_of_put get with ⟨-, rfl⟩ | ⟨-, get⟩
      · exact hf.1
      · exact hf.2.enclosed hk get⟩
  refine (h ()).mono ?_ (fun _ _ hf => back hf) fun _ _ hf => back hf
  rintro _ rfl
  exact ⟨hw.enclosed hi get, hw.document, hw.enclosed⟩

end Run.Encloses

/-! ## Over what is held -/

namespace Holding.Encloses

variable {α β γ : Type} {good : α → Prop}

/-- What goes on outside does not touch what is held. -/
theorem outside {x : Run β} (h : Run.Encloses D P S x) : Holding.Encloses good D P S (outside x) :=
  fun _ => .outside fun a => .pointwise fun w hw =>
    (h ()).mono (by rintro _ rfl; exact hw.2) (fun _ _ h => ⟨hw.1, h⟩) fun _ _ h => ⟨hw.1, h⟩

/-- Looking at what is held tells that it is good. -/
theorem held_bind {f : α → Holding α β} (h : ∀ a, good a → Holding.Encloses good D P S (f a)) :
    Holding.Encloses good D P S (held >>= f) :=
  fun _ => Ends.held.bind fun a _ hg => h a (hg.1 ▸ hg.2.1) () _ hg.2

/-- What is held may be changed to something good. -/
theorem change {g : α → α} (h : ∀ a, good a → good (g a)) : Holding.Encloses good D P S (change g) :=
  Preserves.modify fun _ f hf => ⟨h f.held hf.1, hf.2⟩

/-- Work on a part of what is held. -/
theorem within {H : γ → Prop} {part : α → γ} {put : γ → α → α} {x : Holding γ β} {a : α}
    (hpart : H (part a)) (hput : ∀ c, H c → good (put c a))
    (h : Holding.Encloses H D P S x) :
    Ends (fun f => f.held = a ∧ f.world.Encloses D P S) (within part put x)
      (fun _ => Focus.Encloses good D P S) fun _ => Focus.Encloses good D P S := by
  rintro f ⟨rfl, hw⟩
  have := h () ⟨part f.held, f.world⟩ ⟨hpart, hw⟩
  unfold Holding.within
  cases hx : x ⟨part f.held, f.world⟩ <;> rw [hx] at this <;> exact ⟨hput _ this.1, this.2⟩

/-- A computation goes on with the definition of a number, if there is one. -/
theorem definition_bind {library : Library} {id : DefinitionId} {f : Definition → Holding α β} {a : α}
    (ha : good a) (h : ∀ definition, library[id]? = some definition →
      Ends (fun f => f.held = a ∧ f.world.Encloses D P S) (f definition)
        (fun _ => Focus.Encloses good D P S) fun _ => Focus.Encloses good D P S) :
    Ends (fun f => f.held = a ∧ f.world.Encloses D P S) (Holding.outside (library.definition id) >>= f)
      (fun _ => Focus.Encloses good D P S) fun _ => Focus.Encloses good D P S := by
  unfold Library.definition
  split
  · next definition hd => exact h definition hd
  · rintro f ⟨rfl, hw⟩
    exact ⟨ha, hw⟩

end Holding.Encloses

/-! ## Retirement -/

namespace Retire

variable {retire : Retire} (releases : ∀ {d root elements}, P root elements → D d → D (d.release root))
  (retires : ∀ mode, ∀ i ∈ S, Run.Encloses D P S (retire mode i))

include releases retires

/-- An enclosed instance may be put out of use. -/
theorem inPlace_encloses (mode : Retirement) :
    Holding.Encloses (Instance.Enclosed P S) D P S (inPlace retire mode) := by
  refine Holding.Encloses.held_bind fun inst hinst _ => ?_
  have entries : Ends (World.Encloses D P S) (inst.stash.mapM (entry retire mode))
      (fun stash w => List.Forall₂ (fun _ item : StashItem => item.Enclosed S) inst.stash stash ∧
        w.Encloses D P S) fun _ => World.Encloses D P S := by
    refine .mapM fun item hm => ?_
    have good := hinst.stash item hm
    cases item with
    | tracker t => exact .pure fun _ h => ⟨trivial, h⟩
    | child i => exact (retires mode i good ()).bind fun _ => .pure fun _ h => ⟨good, h⟩
    | _ => exact good.elim
  refine Ends.bind (Q := fun stash f => (∀ item ∈ stash, item.Enclosed S) ∧
    Focus.Encloses (Instance.Enclosed P S) D P S f) ?_ fun stash => .assume fun hstash => ?_
  · refine .outside fun a => .pointwise fun w hw => ?_
    refine entries.mono (by rintro _ rfl; exact hw.2) (fun stash later h => ⟨?_, hw.1, h.2⟩)
      fun _ _ h => ⟨hw.1, h⟩
    intro item hm
    obtain ⟨k, hk, rfl⟩ := List.getElem_of_mem hm
    exact h.1.get (h.1.length_eq ▸ hk) hk
  · have done : Holding.Encloses (Instance.Enclosed P S) D P S
        (Holding.change fun i : Instance => { i with stash, mounted := false }) :=
      .change fun _ h => ⟨h.nodes, hstash⟩
    split
    · exact Preserves.bind (Holding.Encloses.outside (.onDocument fun _ h => releases hinst.nodes h))
        (fun _ => done) ()
    · exact done ()

end Retire

namespace Run

variable (releases : ∀ {d root elements}, P root elements → D d → D (d.release root))

include releases

/-- However deep a retirement goes, the world goes on enclosing what it has enclosed. -/
theorem retireWithin_encloses (depth : Nat) (mode : Retirement) {i : InstanceId} (hi : i ∈ S) :
    Run.Encloses D P S (retireWithin depth mode i) := by
  induction depth generalizing mode i with
  | zero => exact .giveUp _
  | succ depth ih =>
    exact .hold hi (Retire.inPlace_encloses releases (fun mode _ hi => ih mode hi) mode)

/-- An enclosed instance may be put out of use. -/
theorem retire_encloses (mode : Retirement) {i : InstanceId} (hi : i ∈ S) :
    Run.Encloses D P S (retire mode i) :=
  Preserves.get.bind fun _ => retireWithin_encloses releases _ mode hi

end Run

/-! ## Passes -/

namespace Pass

variable {s : Setting} {α : Type}

/-- The pass holds nothing but nested children in `S`. -/
def Encloses (S : Set InstanceId) (p : Pass) : Prop := ∀ item ∈ p.stash, item.Enclosed S

/-- An expression may be evaluated. -/
theorem evaluate_encloses (key : LookupKey) : Holding.Encloses (Encloses S) D P S (evaluate s key) :=
  .held_bind fun _ _ => (Holding.Encloses.outside (.traced _)).bind fun _ =>
    Preserves.bind (Holding.Encloses.change fun _ h => h) fun _ => .pure _

/-- What is found in the stash is a stale entry of it. -/
theorem fetch_encloses (key : StashIndex) (expected : StashKind) (pick : StashItem → Option α) :
    Ends (Focus.Encloses (Encloses S) D P S) (fetch s key expected pick)
      (fun a f => (∃ item : StashItem, item.Enclosed S ∧ pick item = some a) ∧
        Focus.Encloses (Encloses S) D P S f) fun _ => Focus.Encloses (Encloses S) D P S := by
  refine Ends.held.bind fun p => Ends.outside fun p' =>
    Ends.assume (a := p = p') (P := fun w => Focus.Encloses (Encloses S) D P S ⟨p', w⟩) ?_
  rintro rfl
  unfold Run.fetch
  dsimp only
  split
  · next a ha =>
    obtain ⟨item, hi, ha⟩ := Option.bind_eq_some_iff.mp ha
    exact .pure fun w h => ⟨⟨item, h.1 item (List.mem_of_getElem? hi), ha⟩, h⟩
  · exact Ends.bind (Q := fun _ w => Focus.Encloses (Encloses S) D P S ⟨p, w⟩)
      (.modify fun w h => ⟨h.1, h.2.document, h.2.enclosed⟩) fun _ => .throw fun _ h => h

/-- A repeater is not found. -/
theorem fetch_none (key : StashIndex) (expected : StashKind) {pick : StashItem → Option α}
    (hpick : ∀ item : StashItem, item.Enclosed S → pick item = none) {β : Type}
    (k : α → Holding Pass β) :
    Holding.Encloses (Encloses S) D P S (fetch s key expected pick >>= k) := fun _ =>
  (fetch_encloses key expected pick).bind fun _ => .assume fun ⟨item, hi, ha⟩ =>
    nomatch (hpick item hi).symm.trans ha

/-- The items of a value may be asked for. -/
theorem itemsOf_encloses (v : Value) : Run.Encloses D P S (Effect.itemsOf v) := by
  unfold Effect.itemsOf
  split
  · exact .pure _
  · exact .pure _
  · exact .fail _

section Nodes

variable {d : Document Listener} {N : Set NodeId} (stale : ∀ x ∈ N, d.Stale x)
  (renders : ∀ k ∈ S, ∀ props controller,
    Run.Encloses d.Sustains P S (s.engine.render k props controller))
  (elements : ∀ x ∈ s.elements, x ∈ N)

include stale renders

/-- A silent effect on a stale node writes to nothing, or renders a nested child. -/
theorem effect_stale {node : NodeId} (hn : node ∈ N) (value : Value) {f : Effect} (silent : f.Silent) :
    Holding.Encloses (Encloses S) d.Sustains P S (f.run s node value) := by
  have writes {g : Document Listener → Document Listener}
      (hg : ∀ later, later.isLive node = false → later.Sustains (g later)) :
      Run.Encloses d.Sustains P S (Run.onDocument g) :=
    .onDocument fun later h => h.trans (hg later (h.dead node (stale node hn).1))
  cases f with
  | setText => exact .outside (writes fun _ dead => Document.sustains_setText dead _)
  | setAttribute => exact .outside (writes fun _ dead => Document.sustains_setAttribute dead _ _)
  | switchClass => exact .outside (writes fun _ dead => Document.sustains_setClass dead _ _)
  | switchClasses =>
    exact .forM fun _ _ => Holding.Encloses.outside
      (writes fun _ dead => Document.sustains_setClass dead _ _)
  | setStyle => exact .outside (writes fun _ dead => Document.sustains_setStyle dead _ _)
  | renderChild key props =>
    -- The child is one of the stash, so it is in `S` and may be rendered.
    refine (evaluate_encloses props).bind fun v _ =>
      (fetch_encloses key _ _).bind fun child => .assume ?_
    rintro ⟨item, hi, hc⟩
    have hm : child ∈ S := by
      cases item with
      | child i => exact Option.some.inj hc ▸ hi
      | _ => cases hc
    exact ((Holding.Encloses.outside (renders child hm v s.controller)).bind fun _ => .pure _) ()
  -- There are no repeaters, so the effect fails before it touches the document.
  | renderSequence key items =>
    refine (evaluate_encloses items).bind fun v =>
      (Holding.Encloses.outside (itemsOf_encloses v)).bind fun _ =>
        fetch_none key _ (fun item hi => ?_) _
    cases item with
    | sequential => exact hi.elim
    | _ => rfl
  | renderKeyed key items =>
    refine (evaluate_encloses items).bind fun v =>
      (Holding.Encloses.outside (itemsOf_encloses v)).bind fun _ =>
        fetch_none key _ (fun item hi => ?_) _
    cases item with
    | keyed => exact hi.elim
    | _ => rfl
  | record | recordScope => exact .outside (.say _)
  | failWhen message =>
    show Holding.Encloses _ d.Sustains P S (if value.isTruthy then _ else _)
    split
    · exact .outside (.fail _)
    · exact .pure _
  | recordLookup key => exact (evaluate_encloses key).bind fun _ => Holding.Encloses.outside (.say _)
  | dispatch | publish => exact silent.elim

/-- The callbacks of a watch write to nothing. -/
theorem runCallbacks_stale {node : NodeId} (hn : node ∈ N) (k : Nat) {w : Watch}
    (silent : ∀ c ∈ w.callbacks, ∀ f ∈ c.effects, f.Silent) :
    Holding.Encloses (Encloses S) d.Sustains P S (runCallbacks s node k w) := by
  refine .forM fun x hx => ?_
  obtain ⟨c, position⟩ := x
  have hc := List.mem_of_getElem? (List.mem_zipIdx_iff_getElem?.mp hx)
  have effects (value : Value) :
      Holding.Encloses (Encloses S) d.Sustains P S (c.effects.forM (Effect.run s node value)) :=
    .forM fun f hf => effect_stale stale renders hn value (silent c hc f hf)
  show Holding.Encloses (Encloses S) d.Sustains P S (runCallback s node k position c)
  unfold runCallback
  split
  · exact (effects .null).bind fun _ => Holding.Encloses.change fun _ h => h
  · refine (evaluate_encloses _).bind fun value => Holding.Encloses.held_bind fun p _ => ?_
    split
    · exact .pure _
    · exact (effects value).bind fun _ => Holding.Encloses.change fun _ h => h

omit stale renders in
include elements in
/-- The node of a slot is stale. -/
theorem node_stale {β : Type} (slot : Nat) {k : NodeId → Holding Pass β}
    (h : ∀ x ∈ N, Holding.Encloses (Encloses S) d.Sustains P S (k x)) :
    Holding.Encloses (Encloses S) d.Sustains P S (Holding.outside (s.node slot) >>= k) := by
  unfold Setting.node
  split
  · next x hx => exact h x (elements x (List.mem_of_getElem? hx))
  · exact fun _ => Ends.bind (Q := fun _ _ => False) (fun _ h => h) fun _ _ h => h.elim

omit renders in
include elements in
/-- A shield moves stale nodes only. -/
theorem applyShield_stale {node : NodeId} (hn : node ∈ N) (shield : Shield) :
    Holding.Encloses (Encloses S) d.Sustains P S (applyShield s shield node) := by
  refine Preserves.bind ((evaluate_encloses _).bind fun _ => .pure _) fun visible => ?_
  split
  · next plan _ =>
    refine Preserves.bind (node_stale elements plan.parent fun parent hp _ => ?_) fun _ => .pure _
    refine (fetch_encloses plan.tracker _ _).bind fun t => .assume fun _ => ?_
    refine (Preserves.bind (Holding.Encloses.outside (Preserves.modifyGet fun _ w h => ?_)) fun t' =>
      Holding.Encloses.change fun p h item hm => ?_) ()
    · exact ⟨h.document.trans ((h.document.stale node (stale node hn)).sustains_apply
        (h.document.dead parent (stale parent hp).1) t _ _), h.enclosed⟩
    · rcases List.mem_or_eq_of_mem_set hm with hm | rfl
      · exact h item hm
      · trivial
  · refine Preserves.bind (Holding.Encloses.outside (.onDocument fun _ h => ?_)) fun _ => .pure _
    exact h.trans (Document.sustains_setAttribute (h.dead node (stale node hn).1) _ _)

include elements

/-- Coming to a watch writes to nothing. -/
theorem visit_stale (k : Nat) {w : Watch} (silent : ∀ c ∈ w.callbacks, ∀ f ∈ c.effects, f.Silent)
    (rest : Nat) : Holding.Encloses (Encloses S) d.Sustains P S (visit s k w rest) := by
  refine node_stale elements w.slot fun node hn => ?_
  refine Preserves.bind (Holding.Encloses.change fun _ h => h) fun _ => ?_
  have callbacks := runCallbacks_stale stale renders hn k silent
  split
  · exact callbacks.bind fun _ => .pure _
  · refine (applyShield_stale stale elements hn _).bind fun visible => ?_
    split
    · exact callbacks.bind fun _ => .pure _
    · exact (Holding.Encloses.outside (.say _)).bind fun _ =>
        Preserves.bind (Holding.Encloses.change fun _ h => h) fun _ => .pure _

/-- Walking a window writes to nothing. -/
theorem walk_stale (silent : s.template.Silent) (skip : Nat) {ws : List (Watch × Nat)}
    (known : ∀ x ∈ ws, x.1 ∈ s.template.watches) :
    Holding.Encloses (Encloses S) d.Sustains P S (walk s skip ws) := by
  induction ws generalizing skip with
  | nil => exact .pure _
  | cons x ws ih =>
    rw [List.forall_mem_cons] at known
    cases skip with
    | zero =>
      exact (visit_stale stale renders elements x.2 (silent _ known.1) ws.length).bind fun skip =>
        ih skip known.2
    | succ skip => exact ih skip known.2

end Nodes

end Pass

/-! ## Updates -/

/-- All nodes of the instance are in `N`. -/
def Instance.Among (N : Set NodeId) (root : NodeId) (elements : List NodeId) : Prop :=
  root ∈ N ∧ ∀ x ∈ elements, x ∈ N

section Updates

variable {d : Document Listener} {N : Set NodeId} {S : Set InstanceId}

/-- What the engine renders of the instances in `S` writes to nodes in `N` only. -/
structure Engine.Stale (lib : Library) (d : Document Listener) (N : Set NodeId) (S : Set InstanceId)
    (engine : Engine) : Prop where
  library : engine.library = lib
  render : ∀ k ∈ S, ∀ props controller,
    Run.Encloses d.Sustains (Instance.Among N) S (engine.render k props controller)

namespace Instance

variable {lib : Library} {engine : Engine} (stale : ∀ x ∈ N, d.Stale x) (silent : lib.Silent)
  (renders : engine.Stale lib d N S)

include stale silent renders

/-- An update of any window of a stale instance writes to nothing. -/
theorem updateWindow_stale (start stop : Nat) :
    Holding.Encloses (Enclosed (Among N) S) d.Sustains (Among N) S
      (updateWindow engine start stop) := by
  refine fun _ => .pointwise fun f hf => ?_
  obtain ⟨inst, w⟩ := f
  obtain ⟨good, hw⟩ := hf
  refine (Ends.held_bind (P := World.Encloses d.Sustains (Among N) S)
    (Holding.Encloses.definition_bind good fun definition hd =>
      Holding.Encloses.within (H := Pass.Encloses S) (by exact good.stash)
        (fun _ stash => ⟨good.nodes, by exact stash⟩) ?_)).pre (by rintro _ rfl; exact ⟨rfl, hw⟩)
  refine Preserves.bind (Pass.walk_stale (s := .ofInstance engine definition inst) stale
    renders.render good.nodes.2 (silent (renders.library ▸ hd)) 0 fun x hx =>
      List.mem_of_getElem? (Setting.mem_window.mp hx).2.2) fun _ => ?_
  exact Holding.Encloses.held_bind fun _ _ => Preserves.pure _

/-- Updating a stale instance writes to nothing. -/
theorem update_stale :
    Holding.Encloses (Enclosed (Among N) S) d.Sustains (Among N) S (update engine) :=
  .held_bind fun _ _ => (Holding.Encloses.outside (.definition _ _)).bind fun _ =>
    updateWindow_stale stale silent renders _ _

/-- Neither does updating a part of it. -/
theorem updatePart_stale (name : String) :
    Holding.Encloses (Enclosed (Among N) S) d.Sustains (Among N) S (updatePart engine name) := by
  refine .held_bind fun _ _ => (Holding.Encloses.outside (.definition _ _)).bind fun _ => ?_
  split
  · exact updateWindow_stale stale silent renders _ _
  · exact Holding.Encloses.outside (.fail _)

/-- Nor rendering it. -/
theorem render_stale (props : Value) (controller : Controller) :
    Holding.Encloses (Enclosed (Among N) S) d.Sustains (Among N) S
      (render engine props controller) :=
  Preserves.bind (Holding.Encloses.change fun _ h => ⟨h.nodes, h.stash⟩) fun _ =>
    update_stale stale silent renders

end Instance

/-- At every depth an engine renders stale instances without writing to live nodes. -/
theorem Engine.nested_stale {lib : Library} (stale : ∀ x ∈ N, d.Stale x) (silent : lib.Silent)
    (depth : Nat) : (nested lib depth).Stale lib d N S := by
  induction depth with
  | zero => exact ⟨rfl, fun _ _ _ _ => .giveUp _⟩
  | succ depth ih => exact ⟨rfl, fun _ hk _ _ => .hold hk (Instance.render_stale stale silent ih _ _)⟩

end Updates

end ComponentView
