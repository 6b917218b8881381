import ComponentView.Proofs.WatchList
import Mathlib.Data.List.Nodup

/-! # Every directive once

Compilation neither loses nor doubles a directive. The watch of a node groups the effects that the
directives of the node ask for (`NodeHead.jobs`) by the key of the expression they depend on, in the
order in which they are declared (`Watch.under_addAll`, `Layout.Does`); the component of a node is
the one effect of a visit; and the listeners of a template are the handlers of its nodes, in order
(`Template.directives_of_compile`). -/

namespace ComponentView

/-! ## What the directives of a node ask for -/

namespace NodeHead

/-- The effects that the directives of a node ask for, each with the expression it depends on:
watches, bindings, and conditions that switch classes. -/
def jobs (h : NodeHead) : List (Expr × Effect) :=
  h.watches.map (fun d => (d.expr, d.effect))
    ++ h.binds.map (fun d => (.state d.path, .setAttribute d.attributeName))
    ++ h.toggles.map fun d => (d.expr, .switchClasses (Lay.toggledClasses h.targets d.name))

/-- The events that a node handles: those it listens to, and those that write a binding back. -/
def handlers (h : NodeHead) : List (String × Handler) :=
  h.listeners.map (fun d => (d.event, d.handler)) ++ h.binds.map fun d => (d.event, .bind d.path)

/-- What shows the component of a node at a slot: the expression it is given, the plan of its entry
in the stash, and the effect for an entry and a key. A nested component goes before a stub. -/
def component (options : CompileSettings) (slot : Nat) (h : NodeHead) :
    Option (Expr × StashPlan × (StashIndex → LookupKey → Effect)) :=
  match h.nested, h.stub with
  | some n, _ => match n.items with
    | none => some (n.props, .child slot (.definition n.definition) h.canDetach, .renderChild)
    | some d => some <| match d.key with
      | none => (d.items, .sequential n.definition (d.share.getD options.sharePools) [],
          .renderSequence)
      | some path => (d.items, .keyed n.definition path (d.share.getD options.sharePools) [],
          .renderKeyed)
  | none, some s => some (s.props, .child slot (.stub s.name) h.canDetach, .renderChild)
  | none, none => none

/-- A head has a component exactly if it says that it is one. -/
theorem component_isSome (options : CompileSettings) (slot : Nat) (h : NodeHead) :
    (h.component options slot).isSome = h.isComponent := by
  unfold component isComponent
  split
  · next hn =>
    rw [hn]
    split <;> rfl
  · next hn hs => simp [hn, hs]
  · next hn hs => simp [hn, hs]

/-- Whether an update has something to do at the node. -/
def hasWork (h : NodeHead) : Bool :=
  h.visibility.isSome || !h.watches.isEmpty || !h.binds.isEmpty || !h.toggles.isEmpty
    || h.isComponent

end NodeHead

/-! ## Watches -/

namespace Watch

/-- The triggers of a watch. -/
def triggers (w : Watch) : List Trigger := w.callbacks.map (·.trigger)

/-- The effects that a watch runs on a trigger. -/
def under (t : Trigger) (w : Watch) : List Effect :=
  ((w.callbacks.find? (·.trigger = t)).map (·.effects)).getD []

/-- Adds several effects, each with its trigger. -/
def addAll (ps : List (Trigger × Effect)) (w : Watch) : Watch :=
  ps.foldl (fun w p => w.add p.1 p.2) w

/-- The watch has one callback for each of its triggers, with something to run. -/
structure Grouped (w : Watch) : Prop where
  nodup : w.triggers.Nodup
  effects : ∀ c ∈ w.callbacks, c.effects ≠ []

/-- Adding no effects leaves a watch as it is. -/
@[simp] theorem addAll_nil (w : Watch) : w.addAll [] = w := rfl

/-- Effects are added from the first on. -/
@[simp] theorem addAll_cons (p : Trigger × Effect) (ps : List (Trigger × Effect)) (w : Watch) :
    w.addAll (p :: ps) = (w.add p.1 p.2).addAll ps := rfl

/-- Two lists of effects are added one after the other. -/
theorem addAll_append (ps qs : List (Trigger × Effect)) (w : Watch) :
    w.addAll (ps ++ qs) = (w.addAll ps).addAll qs := List.foldl_append

/-- A trigger that is not there yet comes last. -/
theorem triggers_add (t : Trigger) (f : Effect) (w : Watch) :
    (w.add t f).triggers = if t ∈ w.triggers then w.triggers else w.triggers ++ [t] := by
  have inserted (cs : List Callback) : (add.insert t f cs).map (·.trigger)
      = if t ∈ cs.map (·.trigger) then cs.map (·.trigger) else cs.map (·.trigger) ++ [t] := by
    induction cs with
    | nil => rfl
    | cons c cs ih =>
      unfold add.insert
      by_cases hc : c.trigger = t
      · simp [hc]
      · have hc' : t ≠ c.trigger := fun h => hc h.symm
        rw [if_neg hc, List.map_cons, ih]
        by_cases ht : t ∈ cs.map (·.trigger)
        · rw [if_pos ht, if_pos (by simp [ht])]
          simp
        · rw [if_neg ht, if_neg (by simpa [hc'] using ht)]
          simp
  exact inserted w.callbacks

/-- An effect joins those of its trigger and leaves those of the others. -/
theorem under_add (t t' : Trigger) (f : Effect) (w : Watch) :
    (w.add t f).under t' = if t = t' then w.under t' ++ [f] else w.under t' := by
  have inserted (cs : List Callback) :
      (((add.insert t f cs).find? (·.trigger = t')).map (·.effects)).getD []
        = if t = t' then ((cs.find? (·.trigger = t')).map (·.effects)).getD [] ++ [f]
          else ((cs.find? (·.trigger = t')).map (·.effects)).getD [] := by
    induction cs with
    | nil => by_cases ht : t = t' <;> simp [add.insert, ht]
    | cons c cs ih =>
      unfold add.insert
      by_cases hc : c.trigger = t
      · subst hc
        by_cases ht : c.trigger = t' <;> simp [ht]
      · rw [if_neg hc]
        by_cases ht : c.trigger = t'
        · have : t ≠ t' := fun h => hc (ht.trans h.symm)
          simp [ht, this]
        · simpa [ht] using ih
  exact inserted w.callbacks

/-- A grouped watch is grouped after an effect was added. -/
theorem Grouped.add {w : Watch} (h : w.Grouped) (t : Trigger) (f : Effect) :
    (w.add t f).Grouped := by
  constructor
  · rw [triggers_add]
    split
    · exact h.nodup
    · next ht =>
      rw [List.nodup_append]
      refine ⟨h.nodup, by simp, ?_⟩
      intro a ha b hb hab
      obtain rfl := List.mem_singleton.mp hb
      exact ht (hab ▸ ha)
  · have inserted {cs : List Callback} (hcs : ∀ c ∈ cs, c.effects ≠ []) :
        ∀ c ∈ add.insert t f cs, c.effects ≠ [] := by
      induction cs with
      | nil => simp [add.insert]
      | cons c cs ih =>
        rw [List.forall_mem_cons] at hcs
        unfold add.insert
        split
        · simpa using hcs.2
        · exact List.forall_mem_cons.mpr ⟨hcs.1, ih hcs.2⟩
    exact inserted h.effects

/-- A grouped watch is grouped after effects were added. -/
theorem Grouped.addAll {w : Watch} (h : w.Grouped) (ps : List (Trigger × Effect)) :
    (w.addAll ps).Grouped := by
  induction ps generalizing w with
  | nil => exact h
  | cons p ps ih => exact ih (h.add p.1 p.2)

/-- Effects that are added one after another stand under their triggers in that order. -/
theorem under_addAll (ps : List (Trigger × Effect)) (t : Trigger) (w : Watch) :
    (w.addAll ps).under t = w.under t ++ (ps.filter (·.1 = t)).map (·.2) := by
  induction ps generalizing w with
  | nil => simp
  | cons p ps ih =>
    rw [addAll_cons, ih, under_add]
    by_cases ht : p.1 = t <;> simp [ht]

/-- The triggers of a watch are those it had and those of the added effects. -/
theorem mem_triggers_addAll {ps : List (Trigger × Effect)} {t : Trigger} {w : Watch} :
    t ∈ (w.addAll ps).triggers ↔ t ∈ w.triggers ∨ t ∈ ps.map (·.1) := by
  induction ps generalizing w with
  | nil => simp
  | cons p ps ih =>
    rw [addAll_cons, ih, triggers_add]
    by_cases hp : p.1 ∈ w.triggers
    · rw [if_pos hp]
      by_cases ht : t = p.1 <;> simp_all
    · rw [if_neg hp]
      simp [or_assoc]

/-- The effects of a callback are those under its trigger. -/
theorem Grouped.under_of_mem {w : Watch} (h : w.Grouped) {c : Callback} (hc : c ∈ w.callbacks) :
    w.under c.trigger = c.effects := by
  unfold under
  cases hf : w.callbacks.find? (·.trigger = c.trigger) with
  | none => simpa using List.find?_eq_none.mp hf c hc
  | some c' =>
    have same : c'.trigger = c.trigger := by simpa using List.find?_some hf
    obtain rfl : c' = c :=
      List.inj_on_of_nodup_map h.nodup (List.mem_of_find?_eq_some hf) hc same
    rfl

/-- Adding effects leaves a watch at its slot. -/
@[simp] theorem slot_addAll (ps : List (Trigger × Effect)) (w : Watch) :
    (w.addAll ps).slot = w.slot := by
  induction ps generalizing w with
  | nil => rfl
  | cons p ps ih => exact ih (w.add p.1 p.2)

end Watch

/-! ## What a step adds -/

namespace Layout

/-- `later` has the listeners of `l` and after them those of `heard`, and its lookups are those of
`l`, to which it may have added some. -/
structure Hears (heard : List ListenerPlan) (l later : Layout) : Prop where
  listeners : later.listeners = l.listeners ++ heard
  lookups : l.lookups.Grows later.lookups

namespace Hears

variable {l later latest : Layout} {heard heard' : List ListenerPlan}

/-- Where listeners and lookups stay the same nothing was heard. -/
theorem of_same (h : later.listeners = l.listeners) (h' : later.lookups = l.lookups) :
    Hears [] l later :=
  ⟨by simp [h], h' ▸ .refl _⟩

/-- What is heard in two steps is heard one after the other. -/
theorem trans (h : Hears heard l later) (h' : Hears heard' later latest) :
    Hears (heard ++ heard') l latest :=
  ⟨by rw [h'.listeners, h.listeners, List.append_assoc], h.lookups.trans h'.lookups⟩

end Hears

/-- The effect is what the job asks for, on the key of its expression. -/
def Does (l : Layout) (job : Expr × Effect) (p : Trigger × Effect) : Prop :=
  ∃ key, p = (.lookup key, job.2) ∧ l.Looks key job.1

/-- A key still leads to its expression when listeners are added. -/
theorem Looks.hears {l later : Layout} {heard : List ListenerPlan} {key : LookupKey} {x : Expr}
    (h : l.Looks key x) (g : Hears heard l later) : later.Looks key x :=
  g.lookups.expr? h

/-- An effect still does its job when listeners are added. -/
theorem Does.hears {l later : Layout} {heard : List ListenerPlan} {job : Expr × Effect}
    {p : Trigger × Effect} (h : l.Does job p) (g : Hears heard l later) : later.Does job p := by
  obtain ⟨key, hp, looks⟩ := h
  exact ⟨key, hp, looks.hears g⟩

/-- Effects that do some jobs run on the keys of expressions. -/
theorem known_of_does {l : Layout} {jobs : List (Expr × Effect)} {ps : List (Trigger × Effect)}
    (h : List.Forall₂ l.Does jobs ps) :
    ∀ p ∈ ps, ∃ key x, p.1 = .lookup key ∧ l.Looks key x := by
  induction h with
  | nil => simp
  | cons does _ ih =>
    obtain ⟨key, rfl, looks⟩ := does
    exact List.forall_mem_cons.mpr ⟨⟨key, _, rfl, looks⟩, ih⟩

/-- The second watch is the first with effects that do the jobs, in their order. -/
def Made (l : Layout) (jobs : List (Expr × Effect)) (bare w : Watch) : Prop :=
  ∃ ps, w = bare.addAll ps ∧ List.Forall₂ l.Does jobs ps

namespace Made

variable {l later : Layout} {jobs jobs' : List (Expr × Effect)} {bare w w' : Watch}

/-- A watch with effects is at the slot of the bare one. -/
theorem slot (h : l.Made jobs bare w) : w.slot = bare.slot := by
  obtain ⟨ps, rfl, -⟩ := h
  exact Watch.slot_addAll ps bare

/-- The jobs of two steps are done one after the other. -/
theorem append (h : l.Made jobs bare w) (h' : l.Made jobs' w w') :
    l.Made (jobs ++ jobs') bare w' := by
  obtain ⟨ps, rfl, does⟩ := h
  obtain ⟨qs, rfl, does'⟩ := h'
  exact ⟨ps ++ qs, (Watch.addAll_append ps qs bare).symm, List.rel_append does does'⟩

/-- Jobs that are done stay done when listeners are added. -/
theorem hears {heard : List ListenerPlan} (h : l.Made jobs bare w) (g : Hears heard l later) :
    later.Made jobs bare w := by
  obtain ⟨ps, hw, does⟩ := h
  exact ⟨ps, hw, does.imp fun _ _ h => h.hears g⟩

end Made

/-- Of effects that do some jobs, those under the key of an expression do the jobs of that
expression, in the same order. -/
theorem filter_does {l : Layout} (nodup : l.lookups.exprs.Nodup) {key : LookupKey} {x : Expr}
    (hk : l.Looks key x) {jobs : List (Expr × Effect)} {ps : List (Trigger × Effect)}
    (h : List.Forall₂ l.Does jobs ps) :
    (ps.filter (·.1 = .lookup key)).map (·.2) = (jobs.filter (·.1 = x)).map (·.2) := by
  induction h with
  | nil => rfl
  | @cons job p jobs ps does _ ih =>
    obtain ⟨key', rfl, hk'⟩ := does
    -- Two keys are the same if and only if their expressions are.
    have same : key' = key ↔ job.1 = x := by
      constructor
      · rintro rfl
        exact Option.some.inj (hk'.symm.trans hk)
      · intro he
        exact (List.getElem?_inj (List.getElem?_eq_some_iff.mp hk').1 nodup).mp
          (hk'.trans (he ▸ hk.symm))
    by_cases he : job.1 = x
    · obtain rfl := same.mpr he
      simp [he, ih]
    · have hne : key' ≠ key := fun hkk => he (same.mp hkk)
      simp [he, hne, ih]

end Layout

namespace Lay

variable {α β : Type}

/-- If `P` holds of a layout whose lookups are aligned, the step adds the listeners `heard` to it,
and `Q` holds of its result there. -/
def Hands (P : Layout → Prop) (x : Lay α) (heard : List ListenerPlan) (Q : α → Layout → Prop) :
    Prop :=
  ∀ l, l.lookups.Aligned → P l → Layout.Hears heard l (x.run l).2 ∧ Q (x.run l).1 (x.run l).2

namespace Hands

variable {P : Layout → Prop} {x : Lay α} {heard heard' : List ListenerPlan}
  {Q : α → Layout → Prop}

/-- A result hands on what holds. -/
theorem pure {a : α} (h : ∀ l, P l → Q a l) : Hands P (pure a) [] Q :=
  fun l _ hp => ⟨.of_same rfl rfl, h l hp⟩

/-- Two steps hand on their listeners one after the other. -/
theorem bind {f : α → Lay β} {R : β → Layout → Prop} (hx : Hands P x heard Q)
    (hf : ∀ a, Hands (Q a) (f a) heard' R) : Hands P (x >>= f) (heard ++ heard') R := by
  intro l aligned hp
  obtain ⟨g, q⟩ := hx l aligned hp
  obtain ⟨g', r⟩ := hf _ _ (g.lookups.aligned aligned) q
  exact ⟨g.trans g', r⟩

/-- A step that says nothing of its own result. -/
theorem after {f : α → Lay β} {R : β → Layout → Prop} (hx : Hands P x [] fun _ => P)
    (hf : ∀ a, Hands P (f a) heard R) : Hands P (x >>= f) heard R := hx.bind hf

/-- A list of listeners may be written another way. -/
theorem cast (hx : Hands P x heard Q) (h : heard = heard') : Hands P x heard' Q := h ▸ hx

/-- Less may be said of what is handed on. -/
theorem mono {Q' : α → Layout → Prop} (hx : Hands P x heard Q) (h : ∀ a l, Q a l → Q' a l) :
    Hands P x heard Q' := fun l aligned hp =>
  ⟨(hx l aligned hp).1, h _ _ (hx l aligned hp).2⟩

end Hands

/-- What holds of a layout still holds when listeners and expressions are added. -/
def Lasting (P : Layout → Prop) : Prop :=
  ∀ {l later : Layout} {heard : List ListenerPlan}, P l → Layout.Hears heard l later → P later

section Steps

variable {S : Layout → Prop}

/-- A step that leaves listeners and lookups alone hands on what lasts. -/
theorem hands_of_same {x : Lay α} (hs : Lasting S)
    (h : ∀ l, (x.run l).2.listeners = l.listeners ∧ (x.run l).2.lookups = l.lookups) :
    Hands S x [] fun _ => S := by
  intro l _ hl
  have g : Layout.Hears [] l (x.run l).2 := .of_same (h l).1 (h l).2
  exact ⟨g, hs hl g⟩

/-- A new slot hands on what lasts. -/
theorem slot_hands (hs : Lasting S) (i : Nat) : Hands S (slot i) [] fun _ => S := by
  refine hands_of_same hs fun l => ?_
  simp only [StateT.run, slot]
  split <;> exact ⟨rfl, rfl⟩

/-- Interning an expression hands on its key. -/
theorem intern_hands (hs : Lasting S) (x : Expr) :
    Hands S (intern x) [] fun key l => S l ∧ l.Looks key x := by
  intro l aligned hl
  have g : Layout.Hears [] l ((intern x).run l).2 :=
    ⟨by simp [StateT.run, intern], LookupTable.grows_intern l.lookups x⟩
  exact ⟨g, hs hl g, LookupTable.expr?_intern aligned x⟩

/-- Listening hands on the one listener. -/
theorem listen_hands (hs : Lasting S) (slot : Nat) (event : String) (handler : Handler) :
    Hands S (listen slot event handler) [⟨slot, event, handler⟩] fun _ => S := by
  intro l _ hl
  have g : Layout.Hears [⟨slot, event, handler⟩] l ((listen slot event handler).run l).2 :=
    ⟨rfl, .refl _⟩
  exact ⟨g, hs hl g⟩

/-- A tracker hands on what lasts. -/
theorem tracker_hands (hs : Lasting S) (parent : Nat) : Hands S (tracker parent) [] fun _ => S := by
  refine hands_of_same hs fun l => ?_
  unfold tracker
  simp only [StateT.run_bind, StateT.run_get, pure_bind]
  split <;> exact ⟨rfl, rfl⟩

/-- A detach plan hands on what lasts. -/
theorem detachPlan_hands (hs : Lasting S) (e : OutlineEntry) :
    Hands S (detachPlan e) [] fun _ => S := by
  unfold detachPlan
  split
  · refine (tracker_hands hs _).after fun key => (slot_hands hs _).after fun parent => ?_
    split
    · exact (hands_of_same hs fun _ => ⟨rfl, rfl⟩).after fun _ => .pure fun _ h => h
    · exact .pure fun _ h => h
  · exact .pure fun _ h => h

/-- A shield hands on what lasts. -/
theorem shield_hands (hs : Lasting S) (e : OutlineEntry) : Hands S (shield e) [] fun _ => S := by
  unfold shield
  split
  · refine ((intern_hands hs _).mono fun _ _ h => h.1).after fun query => ?_
    exact (detachPlan_hands hs e).after fun _ => .pure fun _ h => h
  · exact .pure fun _ h => h

/-- Directives that add one effect each, and some listeners, add the effects they ask for. -/
theorem foldlM_hands {γ : Type} {f : Watch → γ → Lay Watch} (job : γ → Expr × Effect)
    (heard : Nat → γ → List ListenerPlan)
    (hf : ∀ {S : Layout → Prop}, Lasting S → ∀ w d, Hands S (f w d) (heard w.slot d) fun w' l =>
      S l ∧ ∃ p : Trigger × Effect, w' = w.add p.1 p.2 ∧ l.Does (job d) p)
    (hs : Lasting S) (ds : List γ) (w : Watch) {all : List ListenerPlan}
    (hall : ds.flatMap (heard w.slot) = all) :
    Hands S (ds.foldlM f w) all fun w' l =>
      S l ∧ l.Made (ds.map job) w w' := by
  subst hall
  induction ds generalizing w S with
  | nil => exact .pure fun l h => ⟨h, [], rfl, .nil⟩
  | cons d ds ih =>
    intro l aligned hl
    rw [List.foldlM_cons, StateT.run_bind, List.flatMap_cons, List.map_cons]
    obtain ⟨g, hl, p, hp, does⟩ := hf hs w d l aligned hl
    generalize (f w d).run l = made at g hl hp does ⊢
    obtain ⟨w', later⟩ := made
    subst hp
    have lasting : Lasting fun l => S l ∧ l.Does (job d) p :=
      fun h g => ⟨hs h.1 g, h.2.hears g⟩
    obtain ⟨g', ⟨hl, does⟩, ps, hps, rest⟩ := ih lasting (w.add p.1 p.2) later
      (g.lookups.aligned aligned) ⟨hl, does⟩
    exact ⟨g.trans g', hl, p :: ps, hps, .cons does rest⟩

/-- The watch directives hand on a watch that does them in order. -/
theorem addWatches_hands (hs : Lasting S) (ds : List WatchDirective) (w : Watch) :
    Hands S (addWatches ds w) [] fun w' l =>
      S l ∧ l.Made (ds.map fun d => (d.expr, d.effect)) w w' := by
  refine foldlM_hands _ (fun _ _ => []) (fun hs w d => ?_) hs ds w (by simp)
  refine (intern_hands hs d.expr).bind fun key => .pure fun l h => ?_
  exact ⟨h.1, (.lookup key, d.effect), rfl, key, rfl, h.2⟩

/-- The bind directives hand on their listeners, and a watch that does them in order. -/
theorem addBinds_hands (hs : Lasting S) (ds : List BindDirective) (w : Watch) :
    Hands S (addBinds ds w) (ds.map fun d => ⟨w.slot, d.event, .bind d.path⟩) fun w' l =>
      S l ∧ l.Made (ds.map fun d => (.state d.path, .setAttribute d.attributeName)) w w' := by
  refine foldlM_hands _ (fun slot d => [⟨slot, d.event, .bind d.path⟩]) (fun {S} hs w d => ?_) hs ds
    w (by simp [List.map_eq_flatMap])
  refine (intern_hands hs (.state d.path)).bind fun key => ?_
  have lasting : Lasting fun l => S l ∧ l.Looks key (.state d.path) :=
    fun h g => ⟨hs h.1 g, h.2.hears g⟩
  refine (listen_hands lasting w.slot d.event (.bind d.path)).bind fun _ => .pure fun l h => ?_
  exact ⟨h.1, (.lookup key, .setAttribute d.attributeName), rfl, key, rfl, h.2⟩

/-- The toggle directives hand on a watch that does them in order. -/
theorem addToggles_hands (hs : Lasting S) (targets : List ToggleClasses)
    (ds : List ToggleDirective) (w : Watch) :
    Hands S (addToggles targets ds w) [] fun w' l => S l ∧
      l.Made (ds.map fun d => (d.expr, .switchClasses (toggledClasses targets d.name))) w w' := by
  refine foldlM_hands _ (fun _ _ => []) (fun hs w d => ?_) hs ds w (by simp)
  refine (intern_hands hs d.expr).bind fun key => .pure fun l h => ?_
  exact ⟨h.1, (.lookup key, .switchClasses (toggledClasses targets d.name)), rfl, key, rfl, h.2⟩

/-- The listen directives hand on their listeners in order. -/
theorem listeners_hands (hs : Lasting S) (slot : Nat) (ds : List ListenDirective) :
    Hands S (ds.forM fun d => listen slot d.event d.handler)
      (ds.map fun d => ⟨slot, d.event, d.handler⟩) fun _ => S := by
  induction ds with
  | nil => exact .pure fun _ h => h
  | cons d ds ih => exact (listen_hands hs slot d.event d.handler).bind fun _ => ih

end Steps

end Lay

/-! ## One node -/

namespace Layout

/-- The effects are the one that shows the component of a node on a visit, if it has one. -/
def Shows (l : Layout) (options : CompileSettings) (slot : Nat) (h : NodeHead)
    (qs : List (Trigger × Effect)) : Prop :=
  match h.component options slot with
  | none => qs = []
  | some (x, plan, effect) => ∃ entry key, qs = [(.always, effect entry key)] ∧
      l.Looks key x ∧ l.Plans entry plan

/-- A component is shown on every visit. -/
theorem Shows.visit {l : Layout} {options : CompileSettings} {slot : Nat} {h : NodeHead}
    {qs : List (Trigger × Effect)} (shows : l.Shows options slot h qs) :
    qs.map (·.1) = if h.isComponent then [.always] else [] := by
  rw [← h.component_isSome options slot]
  unfold Shows at shows
  split at shows
  · next hc => rw [shows, hc]; rfl
  · next hc =>
    obtain ⟨entry, key, rfl, -⟩ := shows
    rw [hc]
    rfl

/-- The watch runs what the directives of a node ask for and shows its component. -/
def Fills (l : Layout) (options : CompileSettings) (h : NodeHead) (w : Watch) : Prop :=
  ∃ bare ps qs, bare.callbacks = [] ∧ w = Watch.addAll (ps ++ qs) bare ∧
    List.Forall₂ l.Does h.jobs ps ∧ l.Shows options w.slot h qs

end Layout

namespace Lay

/-- The component of a node is shown on a visit. -/
theorem addComponent_hands {S : Layout → Prop} (hs : Lasting S) (options : CompileSettings)
    (i : Nat) (e : OutlineEntry) (w : Watch) :
    Hands S (addComponent options i e w) [] fun w' l =>
      S l ∧ ∃ qs, w' = w.addAll qs ∧ l.Shows options w.slot e.node.head qs := by
  -- One more entry of the stash is found at its place.
  have planned {l later : Layout} {p : StashPlan} (hp : p.bare = p)
      (h : later.stash = l.stash ++ [p]) : later.Plans l.stash.length p :=
    (Layout.plans_of_append h).mpr (Or.inr ⟨rfl, hp.symm⟩)
  unfold addComponent
  split
  · next _ n hn =>
    split
    · next hd =>
      simp only [Layout.Shows, NodeHead.component, hn, hd]
      refine (intern_hands hs n.props).bind fun key l _ h => ⟨.of_same rfl rfl, ?_⟩
      refine ⟨hs h.1 (.of_same rfl rfl), [(.always, .renderChild l.stash.length key)], rfl, ?_⟩
      exact ⟨l.stash.length, key, rfl, h.2, planned rfl rfl⟩
    · next d hd =>
      simp only [Layout.Shows, NodeHead.component, hn, hd]
      refine (intern_hands hs d.items).bind fun key l _ h => ?_
      cases hk : d.key with
      | none =>
        refine ⟨.of_same rfl rfl, hs h.1 (.of_same rfl rfl),
          [(.always, .renderSequence l.stash.length key)], rfl, ?_⟩
        exact ⟨l.stash.length, key, rfl, h.2, planned rfl rfl⟩
      | some path =>
        refine ⟨.of_same rfl rfl, hs h.1 (.of_same rfl rfl),
          [(.always, .renderKeyed l.stash.length key)], rfl, ?_⟩
        exact ⟨l.stash.length, key, rfl, h.2, planned rfl rfl⟩
  · next s hn hs' =>
    simp only [Layout.Shows, NodeHead.component, hn, hs']
    refine (intern_hands hs s.props).bind fun key l _ h => ⟨.of_same rfl rfl, ?_⟩
    refine ⟨hs h.1 (.of_same rfl rfl), [(.always, .renderChild l.stash.length key)], rfl, ?_⟩
    exact ⟨l.stash.length, key, rfl, h.2, planned rfl rfl⟩
  · next hn hs' =>
    simp only [Layout.Shows, NodeHead.component, hn, hs']
    exact .pure fun l h => ⟨h, [], rfl, rfl⟩

/-- What is left of the watch of a node when its slot and its shield are known. -/
theorem fill_hands (options : CompileSettings) (i : Nat) (e : OutlineEntry) {slot : Nat}
    (bare : Watch) (hslot : bare.slot = slot) (hb : bare.callbacks = []) :
    Hands (fun _ => True)
      (do
        let w ← addWatches e.node.head.watches bare
        let w ← addBinds e.node.head.binds w
        let w ← addToggles e.node.head.targets e.node.head.toggles w
        addComponent options i e w)
      (e.node.head.binds.map fun d => ⟨slot, d.event, .bind d.path⟩)
      fun w l => w.slot = slot ∧ l.Fills options e.node.head w := by
  subst hslot
  have made {jobs : List (Expr × Effect)} {w : Watch} : Lasting fun l => l.Made jobs bare w :=
    fun h g => h.hears g
  have watched := (addWatches_hands (fun _ _ => trivial) e.node.head.watches bare).mono
    fun w l (h : True ∧ _) => h.2
  have bound {jobs : List (Expr × Effect)} (w : Watch) := (addBinds_hands made e.node.head.binds w).mono
    fun w' l (h : l.Made jobs bare w ∧ _) => h.1.append h.2
  have toggled {jobs : List (Expr × Effect)} (w : Watch) :=
    (addToggles_hands made e.node.head.targets e.node.head.toggles w).mono
    fun w' l (h : l.Made jobs bare w ∧ _) => h.1.append h.2
  have shown (w : Watch) : Hands (fun l => l.Made e.node.head.jobs bare w)
      (addComponent options i e w) [] fun w' l =>
        w'.slot = bare.slot ∧ l.Fills options e.node.head w' := by
    refine (addComponent_hands made options i e w).mono fun w' l h => ?_
    obtain ⟨⟨ps, rfl, does⟩, qs, rfl, shows⟩ := h
    rw [Watch.slot_addAll] at shows
    refine ⟨by simp, bare, ps, qs, hb, (Watch.addAll_append ps qs bare).symm, does, ?_⟩
    simpa using shows
  refine (watched.bind fun w => ?_).cast (List.nil_append _)
  intro l aligned hl
  obtain ⟨g, filled⟩ :=
    (bound w).bind (fun w => (toggled w).bind fun w => shown w) l aligned hl
  rw [hl.slot] at g
  exact ⟨by simpa using g, filled⟩

/-- The watch of a node whose slot is known. -/
def watchAt (options : CompileSettings) (index : Nat) (e : OutlineEntry) (slot : Nat) :
    Lay Watch := do
  e.node.head.reference.forM fun name =>
    modify fun l => { l with refs := l.refs ++ [(name, slot)] }
  e.node.head.listeners.forM fun d => listen slot d.event d.handler
  let shield ← shield e
  let w ← addWatches e.node.head.watches ⟨slot, e.address, [], shield⟩
  let w ← addBinds e.node.head.binds w
  let w ← addToggles e.node.head.targets e.node.head.toggles w
  addComponent options index e w

/-- The watch of an entry is made at the slot of its workplace. -/
theorem watch_eq (options : CompileSettings) (index : Nat) (e : OutlineEntry) :
    watch options index e = slot (Layout.workplace index e) >>= watchAt options index e := rfl

/-- The watch of a node at a slot is filled, and the handlers of the node listen at that slot. -/
theorem watchAt_hands (options : CompileSettings) (i : Nat) (e : OutlineEntry) (slot : Nat) :
    Hands (fun _ => True) (watchAt options i e slot)
      (e.node.head.handlers.map fun h => ⟨slot, h.1, h.2⟩)
      fun w l => w.slot = slot ∧ l.Fills options e.node.head w := by
  have always : Lasting fun _ => True := fun _ _ => trivial
  unfold watchAt
  refine Hands.after ?_ fun _ => ?_
  · cases e.node.head.reference with
    | none => exact .pure fun _ h => h
    | some name => exact hands_of_same always fun _ => ⟨rfl, rfl⟩
  refine ((listeners_hands always slot e.node.head.listeners).bind fun _ =>
    (shield_hands always e).after fun shield => fill_hands options i e
      ⟨slot, e.address, [], shield⟩ rfl rfl).cast ?_
  rw [NodeHead.handlers, List.map_append, List.map_map, List.map_map]
  rfl

/-- The watch of a node is filled, and the handlers of the node listen at its slot. -/
theorem watch_hands (options : CompileSettings) (i : Nat) (e : OutlineEntry) {l : Layout}
    (aligned : l.lookups.Aligned) :
    let made := (watch options i e).run l
    Layout.Hears (e.node.head.handlers.map fun h => ⟨made.1.slot, h.1, h.2⟩) l made.2 ∧
      made.2.Fills options e.node.head made.1 := by
  obtain ⟨quiet, -⟩ := slot_hands (fun _ _ => trivial) (Layout.workplace i e) l aligned trivial
  cases first : (slot (Layout.workplace i e)).run l with
  | mk k later =>
    have run : (watch options i e).run l = (watchAt options i e k).run later := by
      rw [watch_eq, StateT.run_bind, first]
      rfl
    rw [first] at quiet
    obtain ⟨g, hw, fills⟩ := watchAt_hands options i e k later
      (quiet.lookups.aligned aligned) trivial
    generalize (watchAt options i e k).run later = made at run g hw fills
    rw [run]
    dsimp only
    rw [hw]
    exact ⟨quiet.trans g, fills⟩

end Lay

/-! ## The whole walk -/

namespace Layout

variable {l later : Layout} {options : CompileSettings}

/-- A watch that fills a head still fills it when the layout grows. -/
theorem Fills.grows {h : NodeHead} {w : Watch} (hf : l.Fills options h w) (g : Grows l later) :
    later.Fills options h w := by
  obtain ⟨bare, ps, qs, hb, hw, does, shows⟩ := hf
  refine ⟨bare, ps, qs, hb, hw, does.imp ?_, ?_⟩
  · rintro job p ⟨key, hp, looks⟩
    exact ⟨key, hp, looks.grows g⟩
  · unfold Shows at shows ⊢
    split at shows
    · exact shows
    · obtain ⟨entry, key, hq, looks, plans⟩ := shows
      exact ⟨entry, key, hq, looks.grows g, plans.grows g⟩

/-- A watch that does what the directives of its entry say, each of them once. -/
structure Carries (l : Layout) (options : CompileSettings) (i : Nat) (e : OutlineEntry)
    (w : Watch) : Prop where
  watches : l.Watches i e w
  fills : l.Fills options e.node.head w

/-- A watch that carries its entry still carries it when the layout grows. -/
theorem Carries.grows {i : Nat} {e : OutlineEntry} {w : Watch} (h : l.Carries options i e w)
    (g : Grows l later) : later.Carries options i e w :=
  ⟨h.watches.grows g, h.fills.grows g⟩

/-- A watch is taken up if and only if its node has something for an update to do. -/
theorem Carries.hasWork {i : Nat} {e : OutlineEntry} {w : Watch} (h : l.Carries options i e w) :
    (!w.callbacks.isEmpty || w.shield.isSome) = e.node.head.hasWork := by
  obtain ⟨bare, ps, qs, hb, hw, does, shows⟩ := h.fills
  have idle : w.callbacks = [] ↔ ps = [] ∧ qs = [] := by
    rw [← List.append_eq_nil_iff, ← List.map_eq_nil_iff (f := fun c : Callback => c.trigger),
      List.eq_nil_iff_forall_not_mem, ← List.map_eq_nil_iff (f := fun p : Trigger × Effect => p.1),
      List.eq_nil_iff_forall_not_mem]
    refine forall_congr' fun t => not_congr ?_
    show t ∈ w.triggers ↔ _
    rw [hw, Watch.mem_triggers_addAll, Watch.triggers, hb]
    simp
  have jobs : ps = [] ↔ e.node.head.jobs = [] := by
    rw [← List.length_eq_zero_iff, ← List.length_eq_zero_iff, does.length_eq]
  have shown : qs = [] ↔ e.node.head.isComponent = false := by
    rw [← List.map_eq_nil_iff, shows.visit]
    simp
  rw [Bool.eq_iff_iff]
  simp only [Bool.or_eq_true, Bool.not_eq_true', List.isEmpty_eq_false_iff, ne_eq, idle, jobs,
    shown, h.watches.visibility, NodeHead.hasWork, NodeHead.jobs, List.append_eq_nil_iff,
    List.map_eq_nil_iff]
  grind

end Layout

/-- The handlers of an entry, with the entry at whose slot they listen. -/
def OutlineEntry.handlers (x : OutlineEntry × Nat) : List (Nat × String × Handler) :=
  x.1.node.head.handlers.map fun h => (Layout.workplace x.2 x.1, h.1, h.2)

namespace Layout

/-- The listener is one for the event with the handler, at the slot of the entry. -/
def Listens (l : Layout) (h : Nat × String × Handler) (p : ListenerPlan) : Prop :=
  l.Owns p.slot h.1 ∧ p.event = h.2.1 ∧ p.handler = h.2.2

/-- The layout after the entries before position `n`, with all that their directives ask for. -/
structure Told (options : CompileSettings) (o : Outline) (n : Nat) (l : Layout) : Prop where
  covers : l.Covers o n
  watches : List.Forall₂ (fun x w => l.Carries options x.2 x.1 w)
    ((o.zipIdx.take n).filter (·.1.node.head.hasWork)) l.watches
  listeners : List.Forall₂ l.Listens ((o.zipIdx.take n).flatMap OutlineEntry.handlers) l.listeners

end Layout

namespace Lay

variable {o : Outline} {i : Nat} {e : OutlineEntry}

/-- A node that is not kept hold of has no directive that asks for anything. -/
theorem idle_of_not_takesSlot {n : Node} (h : n.takesSlot = false) :
    n.head.hasWork = false ∧ n.head.handlers = [] := by
  have lacks {f : Feature} (hp : f ≠ .part) : n.has f = false := by
    refine Bool.eq_false_iff.mpr fun hf => ?_
    rw [takesSlot_of_has hf hp] at h
    cases h
  have watches := lacks (f := .watch) (by simp)
  have listeners := lacks (f := .listener) (by simp)
  have binds := lacks (f := .bind) (by simp)
  have toggles := lacks (f := .toggle) (by simp)
  have shield := lacks (f := .shield) (by simp)
  have component : n.head.isComponent = false := by
    refine Bool.eq_false_iff.mpr fun hc => ?_
    rw [takesSlot_of_isComponent hc] at h
    cases h
  simp only [Node.has, Bool.not_eq_false', List.isEmpty_iff, Bool.or_eq_false_iff] at *
  simp [NodeHead.hasWork, NodeHead.handlers, watches, listeners, binds, toggles.1, shield, component]

/-- Laying out one entry adds what its directives ask for. -/
theorem entry_told (ho : o.Sound) (options : CompileSettings) (hi : o[i]? = some e) {l : Layout}
    (hl : l.Told options o i) : ((entry options i e).run l).2.Told options o (i + 1) := by
  have covers := entry_covers ho options hi hl.covers
  have taken : o.zipIdx.take (i + 1) = o.zipIdx.take i ++ [(e, i)] := by
    rw [List.take_add_one, List.getElem?_zipIdx, hi]
    simp
  rw [entry_eq] at covers ⊢
  by_cases hs : e.node.takesSlot = true
  · rw [if_pos hs, StateT.run_bind] at covers ⊢
    obtain ⟨-, grows, watched⟩ := watch_completes ho options hi l hl.covers.regular trivial
    obtain ⟨hears, fills⟩ := watch_hands options i e hl.covers.regular.aligned
    generalize (watch options i e).run l = made at covers grows watched hears fills ⊢
    obtain ⟨w, later⟩ := made
    have work := (⟨watched, fills⟩ : later.Carries options i e w).hasWork
    have old : List.Forall₂ (fun x w => later.Carries options x.2 x.1 w)
        ((o.zipIdx.take i).filter (·.1.node.head.hasWork)) later.watches := by
      rw [grows.watches]
      exact hl.watches.imp fun _ _ h => h.grows grows
    have listeners : List.Forall₂ later.Listens
        ((o.zipIdx.take (i + 1)).flatMap OutlineEntry.handlers) later.listeners := by
      rw [taken, List.flatMap_append, hears.listeners]
      refine List.rel_append (hl.listeners.imp fun _ _ h => ⟨h.1.grows grows, h.2⟩) ?_
      simp only [List.flatMap_singleton, OutlineEntry.handlers, List.forall₂_map_left_iff,
        List.forall₂_map_right_iff, List.forall₂_same]
      intro h hh
      exact ⟨watched.slot, rfl, rfl⟩
    change ((take w).run later).2.Covers o (i + 1) at covers
    show ((take w).run later).2.Told options o (i + 1)
    unfold take at covers ⊢
    cases hw : e.node.head.hasWork with
    | true =>
      rw [if_pos (work.trans hw)] at covers ⊢
      show Layout.Told options o (i + 1) { later with watches := later.watches ++ [w] }
      refine ⟨covers, ?_, listeners⟩
      have own : Layout.Carries { later with watches := later.watches ++ [w] } options i e w :=
        ⟨watched.beside _, fills⟩
      rw [taken, List.filter_append]
      refine List.rel_append (old.imp fun _ _ h => ⟨h.watches.beside _, h.fills⟩) ?_
      simpa [hw] using own
    | false =>
      rw [if_neg (by simp [work, hw])] at covers ⊢
      show later.Told options o (i + 1)
      refine ⟨covers, ?_, listeners⟩
      rw [taken, List.filter_append]
      simpa [hw] using old
  · rw [if_neg hs] at covers ⊢
    obtain ⟨work, handlers⟩ := idle_of_not_takesSlot (by simpa using hs)
    show l.Told options o (i + 1)
    refine ⟨covers, ?_, ?_⟩
    · rw [taken, List.filter_append]
      simpa [work] using hl.watches
    · rw [taken, List.flatMap_append]
      simpa [OutlineEntry.handlers, handlers] using hl.listeners

/-- After the walk the layout has all that the directives of the outline ask for. -/
theorem walked_told (ho : o.Sound) (options : CompileSettings) :
    (walked options o).Told options o o.length := by
  refine walked_induction options o ⟨⟨.empty o, by simp, by simp⟩, ?_, ?_⟩
    fun hi hl => entry_told ho options hi hl
  · simp
  · simp

end Lay

end ComponentView
