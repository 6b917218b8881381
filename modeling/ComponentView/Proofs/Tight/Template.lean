import ComponentView.Proofs.Directives
import ComponentView.Proofs.Layout.Apart
import ComponentView.Proofs.Visits

/-! # Tight templates

A template refers to its own parts by number: a watch to slots, lookups and entries of the stash, a
plan to the slots and repeaters that it needs. In a tight template every number that is handed out
leads to something, and every entry of the stash is of the kind that it is used for
(`Template.Tight`). All templates of a library are tight (`Library.tight_of_elements`), as long as the
effects that users declare are their own. -/

namespace ComponentView

/-! ## Numbers that lead somewhere -/

/-- The key stands for an entry of the stash of the kind. -/
def Template.Stashes (t : Template) (key : StashIndex) (kind : StashKind) : Prop :=
  (t.stash.map StashPlan.kind)[key]? = some kind

/-- The expression that a callback waits for is there. -/
def Trigger.Tight (t : Template) : Trigger → Prop
  | always => True
  | lookup key => key < t.lookups.size

/-- What the effect renders is an entry of the stash of its kind, with a lookup that is there. The
other effects know no entry; which lookups user code asks for is its own affair. -/
def Effect.Tight (t : Template) : Effect → Prop
  | renderChild key props => t.Stashes key .child ∧ props < t.lookups.size
  | renderSequence key items => t.Stashes key .sequential ∧ items < t.lookups.size
  | renderKeyed key items => t.Stashes key .keyed ∧ items < t.lookups.size
  | _ => True

/-- A slot that is there, or a repeater. -/
def Anchor.Tight (t : Template) : Anchor → Prop
  | slot n => n < t.slots.length
  | repeater key => t.Stashes key .sequential ∨ t.Stashes key .keyed

/-- The slot that a nested child takes is there, and so are the anchors of a repeater. -/
def StashPlan.Tight (t : Template) : StashPlan → Prop
  | tracker _ => True
  | child slot _ _ => slot < t.slots.length
  | sequential _ _ anchors | keyed _ _ _ anchors => ∀ a ∈ anchors, a.Tight t

/-- The query is there, the slot of the parent is, and its tracker is one. -/
structure Shield.Tight (t : Template) (s : Shield) : Prop where
  query : s.query < t.lookups.size
  parent : ∀ p ∈ s.detach, p.parent < t.slots.length
  tracker : ∀ p ∈ s.detach, t.Stashes p.tracker .tracker

/-- All that the watch refers to is there. -/
structure Watch.Tight (t : Template) (w : Watch) : Prop where
  slot : w.slot < t.slots.length
  shield : ∀ s ∈ w.shield, s.Tight t
  triggers : ∀ c ∈ w.callbacks, c.trigger.Tight t
  effects : ∀ c ∈ w.callbacks, ∀ f ∈ c.effects, f.Tight t

/-- All that the template refers to is there. -/
structure Template.Tight (t : Template) : Prop where
  watches : ∀ w ∈ t.watches, w.Tight t
  stash : ∀ p ∈ t.stash, p.Tight t
  listeners : ∀ l ∈ t.listeners, l.slot < t.slots.length

/-- No effect that the component declares renders an entry of the stash. -/
def Node.Own (root : Node) : Prop :=
  ∀ e ∈ Outline.ofRoot root, ∀ d ∈ e.node.head.watches, d.effect.entry? = none

instance (root : Node) : Decidable root.Own :=
  inferInstanceAs (Decidable (∀ e ∈ Outline.ofRoot root, ∀ d ∈ e.node.head.watches,
    d.effect.entry? = none))

/-- An effect that only writes renders nothing. -/
theorem Node.BuiltIn.own {root : Node} (h : root.BuiltIn) : root.Own :=
  fun e he d hd => (h e he d hd).entry?_eq

/-- Of an effect that renders nothing there is nothing to show. -/
theorem Effect.tight_of_entry? (t : Template) {f : Effect} (h : f.entry? = none) : f.Tight t := by
  cases f with
  | renderChild | renderSequence | renderKeyed => cases h
  | _ => trivial

/-! ## Layouts -/

namespace Layout

variable {l : Layout} {t : Template}

/-- The template has the slots, the lookups and the stash of the layout. -/
structure Backs (l : Layout) (t : Template) : Prop where
  slots : t.slots.length = l.owners.length
  lookups : t.lookups = l.lookups
  stash : t.stash = l.stash

variable (backs : l.Backs t)

include backs

/-- A slot with an owner is a slot of the template. -/
theorem Owns.lt_slots {slot entry : Nat} (h : l.Owns slot entry) : slot < t.slots.length :=
  backs.slots ▸ (List.getElem?_eq_some_iff.mp h).1

/-- A key of an expression is one of the lookup table. -/
theorem Looks.lt_size {key : LookupKey} {x : Expr} (h : l.Looks key x) : key < t.lookups.size :=
  backs.lookups ▸ (List.getElem?_eq_some_iff.mp h).1

/-- A template stashes at a key what is planned there. -/
theorem Plans.stashes {key : StashIndex} {p : StashPlan} (h : l.Plans key p) :
    t.Stashes key p.kind := by
  rw [Plans, List.getElem?_map, Option.map_eq_some_iff] at h
  obtain ⟨plan, hp, rfl⟩ := h
  rw [Template.Stashes, List.getElem?_map, backs.stash, hp]
  cases plan <;> rfl

/-- What an entry of the component asks of its watch is there. -/
theorem Serves.tight {i : Nat} {e : OutlineEntry} {trigger : Trigger} {f : Effect}
    (own : ∀ d ∈ e.node.head.watches, d.effect.entry? = none) (h : l.Serves i e trigger f) :
    trigger.Tight t ∧ f.Tight t := by
  cases h with
  | watch mem looks => exact ⟨looks.lt_size backs, Effect.tight_of_entry? t (own _ mem)⟩
  | bind mem looks | toggle mem looks => exact ⟨looks.lt_size backs, trivial⟩
  | child plans _ looks | sequence plans _ looks | keyed plans _ looks =>
    exact ⟨trivial, plans.stashes backs, looks.lt_size backs⟩

/-- The shield of an entry asks for nothing that the template lacks. -/
theorem Shields.tight {e : OutlineEntry} {v : Visibility} {s : Shield} (h : l.Shields e v s) :
    s.Tight t where
  query := h.query.lt_size backs
  parent p hp := by
    obtain ⟨parent, -, owns, -⟩ := (h.detach p hp).parent
    exact owns.lt_slots backs
  tracker p hp := (h.detach p hp).tracker.stashes backs

/-- A watch that carries the directives of an entry refers to nothing else. -/
theorem Carries.tight {options : CompileSettings} {i : Nat} {e : OutlineEntry} {w : Watch}
    (own : ∀ d ∈ e.node.head.watches, d.effect.entry? = none) (h : l.Carries options i e w) :
    w.Tight t := by
  obtain ⟨bare, ps, qs, hb, hw, -, -⟩ := h.fills
  -- No callback is empty, so each trigger is that of some effect.
  have grouped : w.Grouped := by
    have empty : bare.Grouped := ⟨by simp [Watch.triggers, hb], by simp [hb]⟩
    exact hw ▸ empty.addAll (ps ++ qs)
  refine ⟨h.watches.slot.lt_slots backs, fun s hs => ?_, fun c hc => ?_, fun c hc f hf =>
    ((h.watches.effects c hc f hf).tight backs own).2⟩
  · have shown := h.watches.visibility
    rw [Option.mem_def.mp hs, Option.isSome_some] at shown
    obtain ⟨v, hv⟩ := Option.isSome_iff_exists.mp shown.symm
    exact (h.watches.shield s hs v hv).tight backs
  · obtain ⟨f, hf⟩ := List.exists_mem_of_ne_nil _ (grouped.effects c hc)
    exact ((h.watches.effects c hc f hf).tight backs own).1

omit backs in
/-- What a watch passes over refers to nothing. -/
theorem tight_withSkip {w : Watch} (h : w.Tight t) (later : List Watch) :
    (w.withSkip later).Tight t where
  slot := h.slot
  shield s hs := by
    obtain ⟨s', hs', rfl⟩ := Option.map_eq_some_iff.mp hs
    have tight := h.shield s' hs'
    exact ⟨tight.query, tight.parent, tight.tracker⟩
  triggers := h.triggers
  effects := h.effects

variable {o : Outline}

/-- The later siblings of a repeated entry are there. -/
theorem Marks.tight (regular : l.Regular o o.length) {entry : Nat} {a : Anchor}
    (h : l.Marks o entry a) : a.Tight t := by
  cases a with
  | slot slot => exact h.2.lt_slots backs
  | repeater key =>
    obtain ⟨-, -, -, -, p, plans, repeater⟩ := regular.repeats h
    have stashes := plans.stashes backs
    cases p with
    | sequential => exact Or.inl stashes
    | keyed => exact Or.inr stashes
    | _ => cases repeater

/-- Every plan refers to what is there. -/
theorem tight_plan (ho : o.Sound) (regular : l.Regular o o.length)
    (anchored : ∀ i key, l.Repeats i key → l.Anchored o i key) {p : StashPlan} (hp : p ∈ l.stash) :
    p.Tight t := by
  obtain ⟨key, hk⟩ := List.getElem?_of_mem hp
  have plans : l.Plans key p.bare := by
    rw [Plans, List.getElem?_map, hk]
    rfl
  -- A repeater is that of an entry that has a parent, and got its anchors.
  have anchors (repeater : p.bare.isRepeater = true) : ∀ a ∈ p.anchors, a.Tight t := by
    obtain ⟨i, repeats⟩ := regular.repeater plans repeater
    obtain ⟨-, e, he, repeated, -⟩ := regular.repeats repeats
    obtain ⟨p', hp', marks⟩ := anchored i key repeats
    obtain rfl := Option.some.inj (hk.symm.trans hp')
    obtain ⟨parent, hparent⟩ := Option.isSome_iff_exists.mp (ho.repeated he repeated).1
    intro a ha
    obtain ⟨n, hn, rfl⟩ := List.getElem_of_mem ha
    have siblings := marks e parent he hparent
    exact (siblings.get (siblings.length_eq ▸ hn) hn).tight backs regular
  cases p with
  | tracker => trivial
  | child slot source b =>
    obtain ⟨i, -, e, owns, -⟩ := regular.child plans
    exact owns.lt_slots backs
  | sequential | keyed => exact anchors rfl

end Layout

/-! ## Templates -/

namespace Template

/-- A component whose effects are its own compiles to a tight template. -/
theorem tight_of_compile {options : CompileSettings} {name : String} {root : Node} {t : Template}
    (h : compile options name root = .ok t) (own : root.Own) : t.Tight := by
  obtain ⟨accepts, ht⟩ := accepts_of_compile h
  have told := Lay.walked_told accepts.sound options
  obtain ⟨regular, grows, anchored⟩ := Lay.finished_anchored accepts.sound options
  rw [ofOutline_eq] at ht
  have backs : (Lay.finished options (Outline.ofRoot root)).Backs t :=
    ⟨by rw [ht, List.length_map], by rw [ht], by rw [ht]⟩
  constructor
  · rw [watches_of_compile h]
    intro w hw
    obtain ⟨n, hn⟩ := List.getElem?_of_mem hw
    rw [Watch.withSkips_eq, Option.map_eq_some_iff] at hn
    obtain ⟨v, hv, rfl⟩ := hn
    obtain ⟨hlt, rfl⟩ := List.getElem?_eq_some_iff.mp hv
    have lt := told.watches.length_eq ▸ hlt
    have entry := List.mem_of_mem_filter (List.getElem_mem lt)
    have known := List.mem_of_getElem? (List.mem_zipIdx_iff_getElem?.mp (List.mem_of_mem_take entry))
    have carries := told.watches.get lt hlt
    exact Layout.tight_withSkip ((carries.grows grows).tight backs (own _ known)) _
  · rw [backs.stash]
    exact fun p hp => Layout.tight_plan backs accepts.sound regular anchored hp
  · have same : t.listeners = (Lay.walked options (Outline.ofRoot root)).listeners := by
      rw [ht]
      exact (Lay.finished_hears options _ told.covers.regular.aligned).listeners.trans (List.append_nil _)
    rw [same]
    intro p hp
    obtain ⟨n, hn, rfl⟩ := List.getElem_of_mem hp
    have listens := told.listeners.get (told.listeners.length_eq ▸ hn) hn
    exact (listens.1.grows grows).lt_slots backs

/-- The empty template is tight. -/
theorem tight_default : (default : Definition).template.Tight := ⟨nofun, nofun, nofun⟩

end Template

/-- All templates of a library are tight, those of definitions that extend others included. -/
theorem Library.tight_of_elements {declarations : List Declaration} {library : Traced Library}
    (h : define declarations = .ok library) (own : ∀ d ∈ declarations, d.Roots Node.Own)
    {id : DefinitionId} {d : Definition} (hd : library.value[id]? = some d) : d.template.Tight :=
  templates_of_define Template.tight_default Template.tight_of_compile h own hd

end ComponentView
