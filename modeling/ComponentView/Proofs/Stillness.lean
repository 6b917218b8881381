import ComponentView.Proofs.Ownership

/-! # Nothing left to do

A render that finds everything up to date leaves the world as it is, apart from the journal and from
attributes that are written again (`World.Alike`). Whether an instance has nothing left to do
(`Engine.Idle`) depends only on what it holds. -/

namespace ComponentView

/-! ## Worlds that are alike -/

namespace Document

variable {L : Type} {d later latest : Document L}

/-- Two documents that differ in attributes at most, and in how many were written. -/
structure Alike (d later : Document L) : Prop where
  node : ∀ i, later.node i = { d.node i with attributes := (later.node i).attributes }
  size : later.size = d.size
  free : later.free = d.free
  tally : later.tally = { d.tally with attributeWrites := later.tally.attributeWrites }

/-- A document is like itself. -/
theorem Alike.refl (d : Document L) : d.Alike d := ⟨fun _ => rfl, rfl, rfl, rfl⟩

/-- Likeness of documents is transitive. -/
theorem Alike.trans (h : d.Alike later) (h' : later.Alike latest) : d.Alike latest where
  node i := by rw [h'.node i, h.node i]
  size := h'.size.trans h.size
  free := h'.free.trans h.free
  tally := by rw [h'.tally, h.tally]

/-- Writing an attribute changes nothing else. -/
theorem alike_setAttribute (i : NodeId) (name : String) (value : Option String) :
    d.Alike (d.setAttribute i name value) := by
  unfold setAttribute
  split
  · exact .refl d
  · refine ⟨fun j => ?_, by simp, rfl, rfl⟩
    rw [node_count, node_update]
    split <;> rfl

end Document

namespace World

/-- Two worlds that differ in the journal and in attributes at most. -/
structure Alike (w later : World) : Prop where
  eq : later = { w with document := later.document, journal := later.journal }
  document : w.document.Alike later.document

variable {w later latest : World}

/-- A world is like itself. -/
theorem Alike.refl (w : World) : w.Alike w := ⟨rfl, .refl _⟩

/-- Likeness of worlds is transitive. -/
theorem Alike.trans (h : w.Alike later) (h' : later.Alike latest) : w.Alike latest :=
  ⟨by rw [h'.eq, h.eq], h.document.trans h'.document⟩

/-- Worlds that are alike have the same instances. -/
theorem Alike.instances (h : w.Alike later) : later.instances = w.instances := by rw [h.eq]

/-- In worlds that are alike the same instances are held. -/
theorem Alike.busy (h : w.Alike later) : later.busy = w.busy := by rw [h.eq]

/-- Worlds that are alike have the same newcomers. -/
theorem Alike.newcomers (h : w.Alike later) : later.newcomers = w.newcomers := by rw [h.eq]

/-- Speaking and writing attributes leave worlds alike. -/
theorem Alike.put (h : w.Alike later) {document : Document Listener} {journal : List Entry}
    (hd : later.document.Alike document) :
    w.Alike { later with document := document, journal := journal } :=
  h.trans ⟨rfl, hd⟩

/-- What is said leaves a world like the one before. -/
theorem Alike.say {E : Stop → World → Prop} (entries : List Entry) :
    Ends w.Alike (Run.say entries) (fun _ => w.Alike) E :=
  .modify fun _ h => h.put (.refl _)

/-- Looking at an instance shows it as it was in a world that is alike. -/
theorem Alike.look {i : InstanceId} {E : Stop → World → Prop} {inst : Instance}
    (hi : w.instances[i]? = some inst) (hb : i ∉ w.busy) :
    Ends w.Alike (Run.look i) (fun a v => a = inst ∧ w.Alike v) E := by
  intro v h
  rw [Run.look_eq (h.instances.symm ▸ hi) (h.busy.symm ▸ hb)]
  exact ⟨rfl, h⟩

/-- The root of an instance can be asked for in a world that is alike. -/
theorem Alike.rootOf {i : InstanceId} {E : Stop → World → Prop}
    (hi : (w.instances[i]?).isSome) (hb : i ∉ w.busy) :
    Ends w.Alike (Run.rootOf i) (fun _ => w.Alike) E := by
  obtain ⟨inst, hi⟩ := Option.isSome_iff_exists.mp hi
  exact (Alike.look hi hb).bind fun _ => .pure fun _ h => h.2

end World

/-! ## Instances with nothing left to do -/

namespace Engine

variable {engine : Engine} {w later : World} {i : InstanceId} {props : Value}
  {controller : Controller}

/-- The instance is there and is not held, and rendering it changes nothing in a world like `w`. -/
structure Still (engine : Engine) (w : World) (controller : Controller) (i : InstanceId)
    (props : Value) : Prop where
  there : (w.instances[i]?).isSome
  free : i ∉ w.busy
  render : Ends w.Alike (engine.render i props controller) (fun _ => w.Alike) fun _ _ => False

/-- Rendering the instance changes nothing wherever it and what it holds are as in `w`, unless
something of that is held. -/
def Idle (engine : Engine) (w : World) (controller : Controller) (i : InstanceId)
    (props : Value) : Prop :=
  (∀ j, w.Reaches i j → j ∉ w.busy) →
    ∀ v : World, (∀ j, w.Reaches i j → v.instances[j]? = w.instances[j]? ∧ j ∉ v.busy) →
      engine.Still v controller i props

/-- An instance that is left as it is has still nothing to do. -/
theorem Idle.leaves (h : engine.Idle w controller i props) (hl : w.Leaves later i) :
    engine.Idle later controller i props := by
  intro free v known
  have free' : ∀ j, w.Reaches i j → j ∉ w.busy := fun j hj =>
    hl.busy_eq ▸ free j (hl.reaches.mpr hj)
  refine h free' v fun j hj => ?_
  obtain ⟨same, hb⟩ := known j (hl.reaches.mpr hj)
  exact ⟨same.trans (hl.same j hj (free' j hj)), hb⟩

end Engine

/-- What is true of a held value and the world while nothing changes. -/
def Unmoved {α : Type} (a : α) (v : World) (f : Focus α) : Prop := f.held = a ∧ v.Alike f.world

/-- Welcoming newcomers moves nothing where the patch moves nothing. -/
theorem Unmoved.welcoming {α β : Type} {a : α} {v : World} {x : Holding α β}
    (h : Ends (Unmoved a v) x (fun _ => Unmoved a v) fun _ _ => False) :
    Ends (Unmoved a v) (Holding.welcoming x) (fun _ => Unmoved a v) fun _ _ => False := by
  intro f hf
  have := h f hf
  unfold Holding.welcoming
  cases hx : x f with
  | ok b g =>
    rw [hx] at this
    obtain ⟨held, alike⟩ := this
    refine ⟨held, ?_⟩
    rw [hf.2.newcomers, ← alike.newcomers]
    exact alike
  | error stop g =>
    rw [hx] at this
    exact this

/-! ## Repeaters with nothing left to do -/

namespace Sequential

/-- Every item is shown by an instance of which `P` holds, and there are no spare instances to give
back. -/
structure Rests (P : InstanceId → Value → Prop) (items : List Value) (r : Sequential) : Prop where
  attached : r.attached = items.length
  shared : r.share = true → r.instances.length ≤ items.length
  rows : ∀ (n : Nat) (item : Value), items[n]? = some item →
    ∃ i, r.instances[n]? = some i ∧ P i item

/-- Rows that rest for one reason rest for a weaker one. -/
theorem Rests.imp {P Q : InstanceId → Value → Prop} {items : List Value} {r : Sequential}
    (h : r.Rests P items) (hpq : ∀ i ∈ r.instances, ∀ item, P i item → Q i item) :
    r.Rests Q items where
  attached := h.attached
  shared := h.shared
  rows n item hn := by
    obtain ⟨i, hi, hp⟩ := h.rows n item hn
    exact ⟨i, hi, hpq i (List.mem_of_getElem? hi) item hp⟩

variable {engine : Engine} {v : World} {controller : Controller} {r : Sequential}

/-- Showing the items of rows that are still moves nothing. -/
theorem showItems_still (container : NodeId) (anchor : Option NodeId) {items : List Value}
    {position : Nat} (attached : position + items.length ≤ r.attached)
    (rows : ∀ (n : Nat) (item : Value), items[n]? = some item →
      ∃ i, r.instances[position + n]? = some i ∧ engine.Still v controller i item) :
    Ends (Unmoved r v) (showItems engine container anchor controller position items)
      (fun _ => Unmoved r v) fun _ _ => False := by
  induction items generalizing position with
  | nil => exact .pure fun _ h => h
  | cons item items ih =>
    rw [List.length_cons] at attached
    obtain ⟨i, hi, still⟩ := rows 0 item rfl
    refine Ends.bind (Q := fun _ => Unmoved r v) ?_ fun _ => ih (by omega) fun n item hn => ?_
    · refine Ends.bind (Q := fun _ => Unmoved r v) ?_ fun _ => ?_
      · refine .held_bind ?_
        rw [Nat.add_zero] at hi
        simp only [hi]
        exact (Ends.outside_eq still.render).bind fun _ => .pure fun _ h => h
      · refine .held_bind ?_
        rw [if_neg (by omega)]
        exact .pure fun _ h => h
    · have := rows (n + 1) item (by simpa using hn)
      rwa [show position + 1 + n = position + (n + 1) by omega]

/-- A patch of a repeater with nothing left to do changes nothing. -/
theorem patch_still (container : NodeId) (anchor : Option NodeId) {items : List Value}
    (rests : r.Rests (engine.Still v controller) items) :
    Ends (Unmoved r v) (patch engine container anchor items controller) (fun _ => Unmoved r v)
      fun _ _ => False := by
  refine Unmoved.welcoming ?_
  refine Ends.bind (Q := fun _ => Unmoved r v) (showItems_still container anchor
    (by rw [rests.attached]; omega) fun n item hn => ?_) fun _ => ?_
  · rw [Nat.zero_add]
    exact rests.rows n item hn
  refine Ends.bind (Q := fun _ => Unmoved r v) ?_ fun _ => ?_
  · refine .held_bind ?_
    have none : (r.instances.take r.attached).drop items.length = [] :=
      List.drop_eq_nil_of_le (by rw [List.length_take, rests.attached]; omega)
    rw [none]
    refine Ends.bind (Q := fun _ => Unmoved r v) (.pure fun _ h => h) fun _ => .change ?_
    rintro _ w ⟨rfl, h⟩
    refine ⟨?_, h⟩
    simp only [← rests.attached, Nat.min_self]
  · refine .held_bind ?_
    split
    · next hs =>
      have none : r.instances.drop items.length = [] := List.drop_eq_nil_of_le (rests.shared hs)
      rw [none]
      refine Ends.bind (Q := fun _ => Unmoved r v) (.pure fun _ h => h) fun _ => .change ?_
      rintro _ w ⟨rfl, h⟩
      refine ⟨?_, h⟩
      simp only [List.take_of_length_le (rests.shared hs)]
    · exact .pure fun _ h => h

end Sequential

namespace Keyed

/-- From a position on every item whose key has not come before is shown by an instance of which `P`
holds, in the place of its key; `n` places are taken in the end. -/
def Rests (P : InstanceId → Value → Prop) (lib : Library) (r : Keyed) (n : Nat) :
    (seen : List ItemKey) → (position : Nat) → List Value → Prop
  | _, position, [] => position = n
  | seen, position, item :: rest => ∃ key, ItemKey.ofValue? (item.get r.key) = some key ∧
      if key ∈ seen then lib[r.definition]?.isSome ∧ Rests P lib r n seen position rest
      else r.order[position]? = some key ∧ (∃ i, r.instance? key = some i ∧ P i item) ∧
        Rests P lib r n (key :: seen) (position + 1) rest

/-- A repeater that rests does so up to a later position. -/
theorem Rests.le {P : InstanceId → Value → Prop} {lib : Library} {r : Keyed} {n : Nat}
    {seen : List ItemKey} {position : Nat} {items : List Value}
    (h : r.Rests P lib n seen position items) : position ≤ n := by
  induction items generalizing seen position with
  | nil => exact Nat.le_of_eq h
  | cons item items ih =>
    obtain ⟨key, -, h⟩ := h
    split at h
    · exact ih h.2
    · exact Nat.le_of_succ_le (ih h.2.2)

/-- The items are still shown when the places that are taken keep their keys and instances. -/
theorem Rests.keep {P Q : InstanceId → Value → Prop} {lib : Library} {r later : Keyed} {n : Nat}
    (definition : later.definition = r.definition) (path : later.key = r.key)
    (kept : ∀ position < n, ∀ key i, r.order[position]? = some key → r.instance? key = some i →
      later.order[position]? = some key ∧ later.instance? key = some i ∧
        ∀ item, P i item → Q i item)
    {seen : List ItemKey} {position : Nat} {items : List Value}
    (h : r.Rests P lib n seen position items) : later.Rests Q lib n seen position items := by
  induction items generalizing seen position with
  | nil => exact h
  | cons item items ih =>
    obtain ⟨key, hk, h⟩ := h
    refine ⟨key, path ▸ hk, ?_⟩
    split at h
    · next hs =>
      rw [if_pos hs]
      exact ⟨definition ▸ h.1, ih h.2⟩
    · next hs =>
      obtain ⟨place, ⟨i, hi, hp⟩, h⟩ := h
      obtain ⟨place', hi', hpq⟩ := kept position h.le key i place hi
      rw [if_neg hs]
      exact ⟨place', ⟨i, hi', hpq item hp⟩, ih h⟩

/-- Rows that rest for one reason rest for a weaker one. -/
theorem Rests.imp {P Q : InstanceId → Value → Prop} {lib : Library} {r : Keyed} {n : Nat}
    (hpq : ∀ i ∈ r.instances.map (·.2), ∀ item, P i item → Q i item) {seen : List ItemKey}
    {position : Nat} {items : List Value} (h : r.Rests P lib n seen position items) :
    r.Rests Q lib n seen position items :=
  h.keep rfl rfl fun _ _ _ i place hi =>
    ⟨place, hi, hpq i (List.mem_map_of_mem (mem_of_instance? hi))⟩

variable {engine : Engine} {v : World} {controller : Controller} {r : Keyed}

/-- Showing the items of rows that are still moves nothing, and ends at the last position. -/
theorem showItems_still (container : NodeId) (anchor : Option NodeId) {n : Nat}
    {seen : List ItemKey} {position : Nat} {items : List Value}
    (rests : r.Rests (engine.Still v controller) engine.library n seen position items) :
    Ends (Unmoved r v) (showItems engine container anchor controller seen position items)
      (fun m f => m = n ∧ Unmoved r v f) fun _ _ => False := by
  induction items generalizing seen position with
  | nil => exact .pure fun _ h => ⟨rests, h⟩
  | cons item items ih =>
    obtain ⟨key, hk, rests⟩ := rests
    refine .held_bind ?_
    have keyed : Ends v.Alike (r.itemKey item) (fun k w => k = key ∧ v.Alike w)
        fun _ _ => False := by
      simp only [itemKey, hk]
      exact .pure fun _ h => ⟨rfl, h⟩
    refine .outside_bind keyed ?_
    split at rests
    · next hs =>
      obtain ⟨known, rests⟩ := rests
      rw [if_pos hs]
      refine Ends.bind (Q := fun _ => Unmoved r v) ?_ fun _ => ih rests
      refine Ends.outside_eq (Ends.bind (Q := fun _ => v.Alike) ?_ fun d => World.Alike.say _)
      obtain ⟨d, hd⟩ := Option.isSome_iff_exists.mp known
      simp only [Library.definition, hd]
      exact .pure fun _ h => h
    · next hs =>
      obtain ⟨place, ⟨i, hi, still⟩, rests⟩ := rests
      rw [if_neg hs]
      refine Ends.bind (Q := fun j f => j = i ∧ Unmoved r v f) ?_ fun j => .assume fun hj => ?_
      · refine .held_bind ?_
        simp only [hi]
        exact (Ends.outside_eq still.render).bind fun _ => .pure fun _ h => ⟨rfl, h⟩
      subst hj
      refine Ends.bind (Q := fun _ => Unmoved r v) ?_ fun _ => ih rests
      refine .held_bind ?_
      refine (Ends.outside_eq (World.Alike.rootOf still.there still.free)).bind fun root => ?_
      simp only [place, ne_eq, not_true_eq_false, if_false]
      exact .pure fun _ h => h

/-- A patch of a repeater with nothing left to do changes nothing. -/
theorem patch_still (container : NodeId) (anchor : Option NodeId) {items : List Value}
    (rests : r.Rests (engine.Still v controller) engine.library r.order.length [] 0 items) :
    Ends (Unmoved r v) (patch engine container anchor items controller) (fun _ => Unmoved r v)
      fun _ _ => False := by
  refine Unmoved.welcoming ((showItems_still container anchor rests).bind fun n =>
    .assume fun hn => ?_)
  subst hn
  refine .held_bind ?_
  rw [List.drop_length]
  refine Ends.bind (Q := fun _ => Unmoved r v) (.pure fun _ h => h) fun _ => .change ?_
  rintro _ w ⟨rfl, h⟩
  refine ⟨?_, h⟩
  simp only [List.take_length]

end Keyed

end ComponentView
