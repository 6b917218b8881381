import ComponentView.Proofs.Preorder
import ComponentView.Template.Compile

/-! # Laying out a component

The walk over an outline only adds to what has been laid out (`Layout.Grows`): a slot, a key of the
lookup table and a place in the stash mean the same from the moment they are given out. So what a
watch says when it is made (`Layout.Watches`) still holds when the walk has ended. A step of the walk
is described by what it takes for granted and what it gives (`Lay.Gives`). -/

namespace ComponentView

namespace StashPlan

/-- A plan without what is found out only after it was made: the positions that start detached and
the anchors. -/
def bare : StashPlan → StashPlan
  | tracker _ => tracker []
  | child slot source startsDetached => child slot source startsDetached
  | sequential definition share _ => sequential definition share []
  | keyed definition key share _ => keyed definition key share []

/-- Anchors are not part of what a bare plan keeps. -/
@[simp] theorem bare_anchored (anchors : List Anchor) (p : StashPlan) :
    (p.anchored anchors).bare = p.bare := by cases p <;> rfl

/-- Starting positions are not part of what a bare plan keeps. -/
@[simp] theorem bare_startDetached (position : Nat) (p : StashPlan) :
    (p.startDetached position).bare = p.bare := by cases p <;> rfl

/-- Whether the entry becomes a repeater. -/
def isRepeater : StashPlan → Bool
  | sequential .. | keyed .. => true
  | _ => false

end StashPlan

/-! ## Growing layouts -/

namespace Layout

/-- `later` has all that `l` has, in the same places, and no watch beside. -/
structure Grows (l later : Layout) : Prop where
  owners : l.owners <+: later.owners
  lookups : l.lookups.Grows later.lookups
  trackers : l.trackers <+: later.trackers
  repeats : l.repeats <+: later.repeats
  stash : l.stash.map StashPlan.bare <+: later.stash.map StashPlan.bare
  watches : later.watches = l.watches

namespace Grows

variable {l later latest : Layout}

/-- A layout grows from itself. -/
theorem refl (l : Layout) : Grows l l :=
  ⟨List.prefix_rfl, .refl _, List.prefix_rfl, List.prefix_rfl, List.prefix_rfl, rfl⟩

/-- A layout that grows and grows again has grown. -/
theorem trans (h : Grows l later) (h' : Grows later latest) : Grows l latest :=
  ⟨h.owners.trans h'.owners, h.lookups.trans h'.lookups, h.trackers.trans h'.trackers,
    h.repeats.trans h'.repeats, h.stash.trans h'.stash, h'.watches.trans h.watches⟩

end Grows

/-- The slot belongs to the entry of the outline. -/
def Owns (l : Layout) (slot entry : Nat) : Prop := l.owners[slot]? = some entry

/-- The entry of the stash is planned so, as far as that is known when the plan is made. -/
def Plans (l : Layout) (key : StashIndex) (p : StashPlan) : Prop :=
  (l.stash.map StashPlan.bare)[key]? = some p

/-- The key stands for the expression. -/
def Looks (l : Layout) (key : LookupKey) (e : Expr) : Prop := l.lookups.expr? key = some e

/-- The entry of the outline is shown by the repeater. -/
def Repeats (l : Layout) (entry : Nat) (key : StashIndex) : Prop := (entry, key) ∈ l.repeats

/-- The children of the entry of the outline are counted by the tracker. -/
def Tracks (l : Layout) (parent : Nat) (key : StashIndex) : Prop := (parent, key) ∈ l.trackers

section Stable

variable {l later : Layout}

/-- What stands in a prefix stands at the same place in the list. -/
theorem getElem?_of_prefix {α : Type} {xs ys : List α} (h : xs <+: ys) {i : Nat} {a : α}
    (hi : xs[i]? = some a) : ys[i]? = some a := by
  obtain ⟨rest, rfl⟩ := h
  rw [List.getElem?_append_left (List.getElem?_eq_some_iff.mp hi).1]
  exact hi

/-- An entry that owns a slot still owns it when the layout grows. -/
theorem Owns.grows {slot entry : Nat} (h : l.Owns slot entry) (g : Grows l later) :
    later.Owns slot entry := getElem?_of_prefix g.owners h

/-- A plan still stands at its key when the layout grows. -/
theorem Plans.grows {key : StashIndex} {p : StashPlan} (h : l.Plans key p) (g : Grows l later) :
    later.Plans key p := getElem?_of_prefix g.stash h

/-- A key still leads to its expression when the layout grows. -/
theorem Looks.grows {key : LookupKey} {e : Expr} (h : l.Looks key e) (g : Grows l later) :
    later.Looks key e := g.lookups.expr? h

/-- A repeated entry still is one when the layout grows. -/
theorem Repeats.grows {entry : Nat} {key : StashIndex} (h : l.Repeats entry key)
    (g : Grows l later) : later.Repeats entry key := g.repeats.subset h

/-- A tracked parent still is one when the layout grows. -/
theorem Tracks.grows {parent : Nat} {key : StashIndex} (h : l.Tracks parent key)
    (g : Grows l later) : later.Tracks parent key := g.trackers.subset h

end Stable

/-! ## What a watch says -/

/-- Where a watch of an entry works: a repeated node works at its container. -/
def workplace (i : Nat) (e : OutlineEntry) : Nat :=
  if e.node.head.isRepeated then e.parent.getD i else i

/-- An effect that the watch of an entry runs on a trigger, and the directive it comes from. -/
inductive Serves (l : Layout) (i : Nat) (e : OutlineEntry) : Trigger → Effect → Prop where
  | watch {d : WatchDirective} {key : LookupKey} (mem : d ∈ e.node.head.watches)
      (looks : l.Looks key d.expr) : Serves l i e (.lookup key) d.effect
  | bind {d : BindDirective} {key : LookupKey} (mem : d ∈ e.node.head.binds)
      (looks : l.Looks key (.state d.path)) :
      Serves l i e (.lookup key) (.setAttribute d.attributeName)
  | toggle {d : ToggleDirective} {key : LookupKey} (mem : d ∈ e.node.head.toggles)
      (looks : l.Looks key d.expr) :
      Serves l i e (.lookup key) (.switchClasses (Lay.toggledClasses e.node.head.targets d.name))
  | child {slot : Nat} {source : ChildSource} {startsDetached : Bool} {key : StashIndex}
      {props : LookupKey} {expr : Expr}
      (plans : l.Plans key (.child slot source startsDetached)) (owns : l.Owns slot i)
      (looks : l.Looks props expr) : Serves l i e .always (.renderChild key props)
  | sequence {definition : DefinitionId} {share : Bool} {key : StashIndex} {items : LookupKey}
      {expr : Expr} (plans : l.Plans key (.sequential definition share []))
      (repeats : l.Repeats i key) (looks : l.Looks items expr) :
      Serves l i e .always (.renderSequence key items)
  | keyed {definition : DefinitionId} {path : Path} {share : Bool} {key : StashIndex}
      {items : LookupKey} {expr : Expr} (plans : l.Plans key (.keyed definition path share []))
      (repeats : l.Repeats i key) (looks : l.Looks items expr) :
      Serves l i e .always (.renderKeyed key items)

/-- How the node of an entry leaves its parent. -/
structure Detaches (l : Layout) (e : OutlineEntry) (p : DetachPlan) : Prop where
  canDetach : e.node.head.canDetach = true
  place : e.siblingPlace = some p.position
  parent : ∃ parent, e.parent = some parent ∧ l.Owns p.parent parent ∧ l.Tracks parent p.tracker
  tracker : l.Plans p.tracker (.tracker [])

/-- When the node of an entry is visible. -/
structure Shields (l : Layout) (e : OutlineEntry) (v : Visibility) (s : Shield) : Prop where
  query : l.Looks s.query v.query
  reverse : s.reverse = v.reverse
  detach : ∀ p ∈ s.detach, l.Detaches e p

/-- The watch does what the directives of the entry say. -/
structure Watches (l : Layout) (i : Nat) (e : OutlineEntry) (w : Watch) : Prop where
  slot : l.Owns w.slot (workplace i e)
  address : w.address = e.address
  visibility : w.shield.isSome = e.node.head.visibility.isSome
  shield : ∀ s ∈ w.shield, ∀ v ∈ e.node.head.visibility, l.Shields e v s
  effects : ∀ c ∈ w.callbacks, ∀ f ∈ c.effects, l.Serves i e c.trigger f

section Stable

variable {l later : Layout} {i : Nat} {e : OutlineEntry}

/-- An effect still serves its entry when the layout grows. -/
theorem Serves.grows {t : Trigger} {f : Effect} (h : l.Serves i e t f) (g : Grows l later) :
    later.Serves i e t f := by
  cases h with
  | watch mem looks => exact .watch mem (looks.grows g)
  | bind mem looks => exact .bind mem (looks.grows g)
  | toggle mem looks => exact .toggle mem (looks.grows g)
  | child plans owns looks => exact .child (plans.grows g) (owns.grows g) (looks.grows g)
  | sequence plans repeats looks =>
    exact .sequence (plans.grows g) (repeats.grows g) (looks.grows g)
  | keyed plans repeats looks => exact .keyed (plans.grows g) (repeats.grows g) (looks.grows g)

/-- A detach plan still is the one of its entry when the layout grows. -/
theorem Detaches.grows {p : DetachPlan} (h : l.Detaches e p) (g : Grows l later) :
    later.Detaches e p := by
  obtain ⟨parent, hp, ho, ht⟩ := h.parent
  exact ⟨h.canDetach, h.place, ⟨parent, hp, ho.grows g, ht.grows g⟩, h.tracker.grows g⟩

/-- A shield still is the one of its entry when the layout grows. -/
theorem Shields.grows {v : Visibility} {s : Shield} (h : l.Shields e v s) (g : Grows l later) :
    later.Shields e v s :=
  ⟨h.query.grows g, h.reverse, fun p hp => (h.detach p hp).grows g⟩

/-- A watch still is one of its entry when the layout grows. -/
theorem Watches.grows {w : Watch} (h : l.Watches i e w) (g : Grows l later) :
    later.Watches i e w :=
  ⟨h.slot.grows g, h.address, h.visibility, fun s hs v hv => (h.shield s hs v hv).grows g,
    fun c hc f hf => (h.effects c hc f hf).grows g⟩

/-- What a watch says does not depend on the other watches. -/
theorem Watches.beside {w : Watch} (h : l.Watches i e w) (ws : List Watch) :
    Watches { l with watches := ws } i e w where
  slot := h.slot
  address := h.address
  visibility := h.visibility
  shield s hs v hv := { h.shield s hs v hv with
    detach := fun p hp => { (h.shield s hs v hv).detach p hp with } }
  effects c hc f hf := served (h.effects c hc f hf)
where
  served {t : Trigger} {f : Effect} (hf : l.Serves i e t f) :
      Serves { l with watches := ws } i e t f := by
    cases hf with
    | watch mem looks => exact .watch mem looks
    | bind mem looks => exact .bind mem looks
    | toggle mem looks => exact .toggle mem looks
    | child plans owns looks => exact .child plans owns looks
    | sequence plans repeats looks => exact .sequence plans repeats looks
    | keyed plans repeats looks => exact .keyed plans repeats looks

/-- A watch with one more effect still does what the directives say. -/
theorem Watches.add {w : Watch} {t : Trigger} {f : Effect} (h : l.Watches i e w)
    (hf : l.Serves i e t f) : l.Watches i e (w.add t f) :=
  ⟨h.slot, h.address, h.visibility, h.shield, added h.effects⟩
where
  added {cs : List Callback} (hcs : ∀ c ∈ cs, ∀ f ∈ c.effects, l.Serves i e c.trigger f) :
      ∀ c ∈ Watch.add.insert t f cs, ∀ f ∈ c.effects, l.Serves i e c.trigger f := by
    induction cs with
    | nil => simpa [Watch.add.insert] using hf
    | cons c cs ih =>
      rw [List.forall_mem_cons] at hcs
      unfold Watch.add.insert
      split
      · next ht =>
        subst ht
        simpa [or_imp, forall_and] using ⟨⟨hcs.1, hf⟩, hcs.2⟩
      · rw [List.forall_mem_cons]
        exact ⟨hcs.1, ih hcs.2⟩

end Stable

end Layout

end ComponentView
