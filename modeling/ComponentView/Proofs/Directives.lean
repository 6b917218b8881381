import ComponentView.Proofs.Layout.Directives
import ComponentView.Proofs.Libraries

/-! # The directives of a compiled component

A compiled template has one watch for every node at which an update has something to do, and no
other. The watch carries each directive of its node once (`Template.Carries`), and the listeners of
the template are the handlers of its nodes (`Template.directives_of_compile`). -/

namespace ComponentView

/-! ## After the walk -/

namespace Lay

variable {S : Layout → Prop}

/-- A loop over steps that hand on what lasts hands it on. -/
theorem filterMapM_hands {β γ : Type} {f : γ → Lay (Option β)}
    (hf : ∀ c, Hands S (f c) [] fun _ => S) (cs : List γ) :
    Hands S (cs.filterMapM f) [] fun _ => S := by
  induction cs with
  | nil => exact .pure fun _ h => h
  | cons c cs ih =>
    rw [List.filterMapM_cons]
    refine (hf c).after fun found => ?_
    cases found with
    | none => exact ih
    | some b => exact ih.after fun _ => .pure fun _ h => h

/-- Looking for anchors adds no listener and no expression. -/
theorem laterSiblings_hands (hs : Lasting S) (o : Outline) (i : Nat) :
    Hands S (laterSiblings o i) [] fun _ => S := by
  unfold laterSiblings
  split
  · exact .pure fun _ h => h
  · refine filterMapM_hands (fun sibling => ?_) _
    split
    · exact (hands_of_same (x := get) hs fun _ => ⟨rfl, rfl⟩).after fun _ => .pure fun _ h => h
    · exact (slot_hands hs sibling).after fun _ => .pure fun _ h => h

/-- The anchors of the repeaters add no listener and no expression. -/
theorem finished_hears (options : CompileSettings) (o : Outline)
    (aligned : (walked options o).lookups.Aligned) :
    Layout.Hears [] (walked options o) (finished options o) := by
  have anchored (rest : List (Nat × StashIndex)) {l : Layout} (aligned : l.lookups.Aligned) :
      Layout.Hears [] l (rest.foldl (fun l x => anchor o x.1 x.2 l) l) := by
    induction rest generalizing l with
    | nil => exact .of_same rfl rfl
    | cons x rest ih =>
      have found := (laterSiblings_hands (S := fun _ => True) (fun _ _ => trivial) o x.1 l
        aligned trivial).1
      have step : Layout.Hears [] l (anchor o x.1 x.2 l) := ⟨found.listeners, found.lookups⟩
      exact step.trans (ih (step.lookups.aligned aligned))
  rw [finished, anchors_run]
  exact anchored _ aligned

end Lay

/-! ## What a template carries -/

namespace Template

/-- The slots of the template belong to different nodes, none of them repeated, and each lies at the
place of its node. -/
structure Slots (t : Template) (o : Outline) (owners : List Nat) : Prop where
  nodup : owners.Nodup
  plain : ∀ i ∈ owners, o.Plain i
  places : t.slots = owners.map fun i => (o[i]?.map (·.place)).getD []

/-- The watch carries each directive of an entry once, at the slot of the entry or, if that is
repeated, at the slot of its container. -/
structure Carries (t : Template) (options : CompileSettings) (owners : List Nat) (i : Nat)
    (e : OutlineEntry) (w : Watch) : Prop where
  address : w.address = e.address
  slot : owners[w.slot]? = some (Layout.workplace i e)
  /-- No two callbacks have the same trigger, none is empty, and their keys are those of
  expressions. -/
  triggers : w.triggers.Nodup
  effects : ∀ c ∈ w.callbacks, c.effects ≠ [] ∧ c.effects = w.under c.trigger
  known : ∀ key, Trigger.lookup key ∈ w.triggers → (t.lookups.expr? key).isSome
  /-- Under a key there are the effects that depend on its expression, as they are declared. -/
  lookups : ∀ key x, t.lookups.expr? key = some x →
    w.under (.lookup key) = (e.node.head.jobs.filter (·.1 = x)).map (·.2)
  always : .always ∈ w.triggers ↔ e.node.head.isComponent = true
  /-- The component is shown by one effect, which is handed its expression and its entry. -/
  component : ∀ x plan effect, e.node.head.component options w.slot = some (x, plan, effect) →
    ∃ entry key, w.under .always = [effect entry key] ∧ t.lookups.expr? key = some x ∧
      (t.stash[entry]?).map StashPlan.bare = some plan
  shield : w.shield.map (fun s => (t.lookups.expr? s.query, s.reverse))
    = e.node.head.visibility.map fun v => (some v.query, v.reverse)

/-- A watch of the layout, with a template that has its lookups and its stash. -/
theorem carries_of_filled {t : Template} {options : CompileSettings} {l : Layout}
    (lookups : t.lookups = l.lookups) (stash : t.stash = l.stash)
    (nodup : l.lookups.exprs.Nodup) {i : Nat} {e : OutlineEntry} {w : Watch}
    (h : l.Carries options i e w) : t.Carries options l.owners i e w := by
  obtain ⟨watches, bare, ps, qs, hb, hw, does, shows⟩ := h
  have grouped : w.Grouped := by
    have empty : bare.Grouped := ⟨by simp [Watch.triggers, hb], by simp [hb]⟩
    exact hw ▸ empty.addAll (ps ++ qs)
  have under (t : Trigger) : w.under t
      = (ps.filter (·.1 = t)).map (·.2) ++ (qs.filter (·.1 = t)).map (·.2) := by
    rw [hw, Watch.under_addAll, List.filter_append, List.map_append, Watch.under, hb]
    rfl
  have triggers (t : Trigger) : t ∈ w.triggers ↔ t ∈ ps.map (·.1) ∨ t ∈ qs.map (·.1) := by
    rw [hw, Watch.mem_triggers_addAll, Watch.triggers, hb]
    simp
  -- The jobs run on the keys of expressions, the component on every visit.
  have jobs := Layout.known_of_does does
  have visit : ∀ q ∈ qs, q.1 = .always := fun q hq => by
    have hm := List.mem_map_of_mem (f := (·.1)) hq
    rw [shows.visit] at hm
    split at hm
    · exact List.mem_singleton.mp hm
    · cases hm
  refine ⟨watches.address, watches.slot, grouped.nodup,
    fun c hc => ⟨grouped.effects c hc, (grouped.under_of_mem hc).symm⟩, ?_, ?_, ?_, ?_, ?_⟩
  · intro key hk
    rcases (triggers _).mp hk with hk | hk
    · obtain ⟨p, hp, he⟩ := List.mem_map.mp hk
      obtain ⟨key', x, hp', looks⟩ := jobs p hp
      obtain rfl : key' = key := by simpa [hp'] using he
      rw [lookups]
      exact Option.isSome_of_eq_some looks
    · obtain ⟨q, hq, he⟩ := List.mem_map.mp hk
      rw [visit q hq] at he
      cases he
  · intro key x hx
    rw [lookups] at hx
    have none : qs.filter (·.1 = .lookup key) = [] := by
      rw [List.filter_eq_nil_iff]
      intro q hq
      simp [visit q hq]
    rw [under, none, List.map_nil, List.append_nil]
    exact Layout.filter_does nodup hx does
  · have notJob : .always ∉ ps.map (·.1) := by
      intro hp
      obtain ⟨p, hp, he⟩ := List.mem_map.mp hp
      obtain ⟨key, x, hp', -⟩ := jobs p hp
      rw [hp'] at he
      cases he
    rw [triggers, or_iff_right notJob, shows.visit]
    simp
  · intro x plan effect hc
    rw [Layout.Shows, hc] at shows
    obtain ⟨entry, key, rfl, looks, plans⟩ := shows
    have none : ps.filter (·.1 = .always) = [] := by
      rw [List.filter_eq_nil_iff]
      intro p hp
      obtain ⟨key, x, hp', -⟩ := jobs p hp
      simp [hp']
    refine ⟨entry, key, ?_, lookups ▸ looks, ?_⟩
    · rw [under, none]
      simp
    · rw [stash, ← List.getElem?_map]
      exact plans
  · have shown := watches.visibility
    cases hs : w.shield with
    | none =>
      rw [hs] at shown
      have hidden : e.node.head.visibility = none := by simpa using shown.symm
      rw [hidden, Option.map_none, Option.map_none]
    | some s =>
      rw [hs] at shown
      obtain ⟨v, hv⟩ := Option.isSome_iff_exists.mp shown.symm
      have shields := watches.shield s (by simp [hs]) v (by simp [hv])
      rw [hv, Option.map_some, Option.map_some, lookups, shields.reverse]
      exact congrArg (fun x => some (x, v.reverse)) shields.query

/-- What a watch passes over is no part of what it carries. -/
theorem Carries.withSkip {t : Template} {options : CompileSettings} {owners : List Nat} {i : Nat}
    {e : OutlineEntry} {w : Watch} (h : t.Carries options owners i e w) (later : List Watch) :
    t.Carries options owners i e (w.withSkip later) :=
  { h with
    shield := by
      rw [← h.shield, Watch.withSkip]
      cases w.shield <;> rfl }

/-- What is related to watches whatever their skip counts is related to them with skip counts. -/
theorem forall₂_withSkips {α : Type} {R R' : α → Watch → Prop}
    (hR : ∀ a w later, R a w → R' a (Watch.withSkip later w)) {as : List α} {ws : List Watch}
    (h : List.Forall₂ R as ws) : List.Forall₂ R' as (Watch.withSkips ws) := by
  induction h with
  | nil => exact .nil
  | cons head _ ih => exact .cons (hR _ _ _ head) ih

section Compiled

variable {options : CompileSettings} {name : String} {root : Node} {t : Template}

/-- In a compiled template the function of a key is that of its expression, and each expression has
one key. -/
theorem aligned_of_compile (h : compile options name root = .ok t) : t.lookups.Aligned := by
  obtain ⟨accepts, ht⟩ := accepts_of_compile h
  rw [ht, ofOutline_eq]
  exact (Lay.finished_anchored accepts.sound options).1.aligned

/-- A compiled template has exactly one watch for each node with a visibility, a watch, a binding, a
condition or a component, in the order of the nodes, and it carries the directives of that node; its
listeners are the handlers of the nodes, in order, each at the slot of its node. -/
theorem directives_of_compile (h : compile options name root = .ok t) :
    t.lookups.exprs.Nodup ∧ ∃ owners, t.Slots (Outline.ofRoot root) owners ∧
      List.Forall₂ (fun x w => t.Carries options owners x.2 x.1 w)
        ((Outline.ofRoot root).zipIdx.filter (·.1.node.head.hasWork)) t.watches ∧
      List.Forall₂ (fun x p => owners[p.slot]? = some x.1 ∧ p.event = x.2.1 ∧ p.handler = x.2.2)
        ((Outline.ofRoot root).zipIdx.flatMap OutlineEntry.handlers) t.listeners := by
  obtain ⟨accepts, ht⟩ := accepts_of_compile h
  have told := Lay.walked_told accepts.sound options
  obtain ⟨regular, grows, -⟩ := Lay.finished_anchored accepts.sound options
  have hears := Lay.finished_hears options (Outline.ofRoot root) told.covers.regular.aligned
  rw [ofOutline_eq] at ht
  have nodup := regular.aligned.nodup
  have all : (Outline.ofRoot root).zipIdx.take (Outline.ofRoot root).length
      = (Outline.ofRoot root).zipIdx := List.take_of_length_le (by simp)
  refine ⟨ht ▸ nodup, (Lay.finished options (Outline.ofRoot root)).owners,
    ⟨regular.owners_nodup, regular.owners_plain, by rw [ht]⟩, ?_, ?_⟩
  · rw [watches_of_compile h, ← all]
    refine forall₂_withSkips (fun x w later carries => ?_) told.watches
    exact (carries_of_filled (by rw [ht]) (by rw [ht]) nodup (carries.grows grows)).withSkip later
  · have same : t.listeners = (Lay.walked options (Outline.ofRoot root)).listeners := by
      rw [ht]
      exact hears.listeners.trans (List.append_nil _)
    rw [same, ← all]
    exact told.listeners.imp fun _ _ listens => ⟨listens.1.grows grows, listens.2⟩

/-- A component with a member of the state that three directives of one node depend on. -/
def nameForm : Node :=
  ⟨{ kind := .element "form" }, [
    ⟨{ kind := .element "input"
       watches := [⟨.state [.field "name"], .setAttribute "title"⟩]
       binds := [⟨"value", [.field "name"], "input"⟩]
       toggles := [⟨"named", .state [.field "name"]⟩] }, []⟩,
    ⟨{ kind := .element "p", stub := some ⟨"help", .props⟩ }, []⟩]⟩

/-- Its first watch runs all three under one key, its second shows the stub on every visit. -/
theorem directives_of_nameForm :
    ∃ t owners, compile {} "Form" nameForm = .ok t ∧
      t.Slots (Outline.ofRoot nameForm) owners ∧
      t.watches.map (·.triggers) = [[.lookup 0], [.always]] ∧
      t.watches.map (fun w => (w.under (.lookup 0)).length) = [3, 0] ∧
      List.Forall₂ (fun x p => owners[p.slot]? = some x.1 ∧ p.event = x.2.1 ∧ p.handler = x.2.2)
        [(1, "input", .bind [.field "name"])] t.listeners := by
  obtain ⟨t, compiled⟩ : ∃ t, compile {} "Form" nameForm = .ok t :=
    exists_of_isOk (by decide +kernel)
  obtain ⟨-, owners, slots, -, listeners⟩ := directives_of_compile compiled
  obtain ⟨-, rfl⟩ := accepts_of_compile compiled
  exact ⟨_, owners, compiled, slots, by decide +kernel, by decide +kernel, listeners⟩

end Compiled

end Template

end ComponentView
