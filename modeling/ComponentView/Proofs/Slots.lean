import ComponentView.Instance.Build
import ComponentView.Proofs.Document.Copy
import ComponentView.Proofs.Document.Placeholder
import ComponentView.Proofs.Libraries
import ComponentView.Proofs.Runs
import ComponentView.Proofs.WatchList

/-! # The slots of an instance

The slots of a fresh copy are bound to the nodes that the copy has for the entries they belong to
(`Build.bound_of_bindFrom`). While the stash is made the root of each nested child comes to the slot
of the node that stands for it, and the nodes at the other slots stay (`Build.Seated`). So a new
instance has different live nodes at all its slots (`Run.slots_of_build`), if the document was
well-formed before. -/

namespace ComponentView

/-! ## Templates and layouts -/

/-- The template was read off from the layout of a component. -/
structure Template.Laid (t : Template) (root : Node) (l : Layout) : Prop where
  markup : t.markup = root.markup
  slots : t.slots
    = l.owners.map fun owner => ((Outline.ofRoot root)[owner]?.map (·.place)).getD []
  stash : t.stash = l.stash
  sound : (Outline.ofRoot root).Sound
  top : root.head.isComponent = false
  regular : l.Regular (Outline.ofRoot root) (Outline.ofRoot root).length
  /-- A watch works at the slot of its node, or of its container if the node is repeated. -/
  watches : ∀ w ∈ t.watches, ∃ i e, (Outline.ofRoot root)[i]? = some e ∧ w.address = e.address ∧
    l.Owns w.slot (Layout.workplace i e)

/-- The plan of a child stands at its key. -/
theorem Layout.plans_child {l : Layout} {key : StashIndex} {slot : Nat} {source : ChildSource}
    {startsDetached : Bool} : l.Plans key (.child slot source startsDetached) ↔
      l.stash[key]? = some (.child slot source startsDetached) := by
  rw [Plans, List.getElem?_map, Option.map_eq_some_iff]
  constructor
  · rintro ⟨p, hp, he⟩
    cases p with
    | child => rw [hp]; exact congrArg some he
    | _ => cases he
  · exact fun h => ⟨_, h, rfl⟩

/-- A compiled template is laid out as its tree was walked. -/
theorem Template.laid_of_compile {options : CompileSettings} {name : String} {root : Node}
    {t : Template} (h : compile options name root = .ok t) :
    t.Laid root (Lay.finished options (Outline.ofRoot root)) := by
  have watches := watches_of_compile h
  obtain ⟨accepts, rfl⟩ := accepts_of_compile h
  obtain ⟨regular, grows, -⟩ := Lay.finished_anchored accepts.sound options
  have covers := Lay.walked_covers accepts.sound options
  refine
    { markup := by rw [ofOutline_eq], slots := by rw [ofOutline_eq], stash := by rw [ofOutline_eq]
      sound := accepts.sound, top := accepts.head.2.2, regular, watches := fun w hw => ?_ }
  rw [watches] at hw
  obtain ⟨k, hk⟩ := List.getElem?_of_mem hw
  rw [Watch.withSkips_eq, Option.map_eq_some_iff] at hk
  obtain ⟨v, hv, rfl⟩ := hk
  obtain ⟨i, -, e, he, watched⟩ := covers.watches v (List.mem_of_getElem? hv)
  exact ⟨i, e, he, watched.address, watched.slot.grows grows⟩

/-- The empty template was read off from a text. -/
theorem Template.laid_default :
    (default : Definition).template.Laid ⟨{ kind := .text "" }, []⟩ {} := by
  have only {i : Nat} {e : OutlineEntry}
      (h : (Outline.ofRoot ⟨{ kind := .text "" }, []⟩)[i]? = some e) :
      e = ⟨[], [], ⟨{ kind := .text "" }, []⟩, none⟩ :=
    List.mem_singleton.mp (List.mem_of_getElem? h)
  have sound : (Outline.ofRoot ⟨{ kind := .text "" }, []⟩).Sound := by
    constructor
    · intro i e p h hp
      rw [only h] at hp
      cases hp
    · intro i e h hr
      rw [only h] at hr
      cases hr
  refine
    { markup := rfl, slots := rfl, stash := rfl, top := rfl, sound, watches := nofun
      regular :=
        { aligned := LookupTable.aligned_empty, owners_nodup := .nil, owners_plain := nofun
          trackers := nofun, trackers_nodup := .nil
          child := nofun, child_unique := nofun, child_total := fun _ h hc => ?_
          repeats := nofun, repeats_nodup := ⟨.nil, .nil⟩
          repeats_total := fun _ h hr => ?_, repeater := nofun } }
  · rw [only h] at hc
    cases hc
  · rw [only h] at hr
    cases hr

/-- All templates of a library were read off from layouts. -/
theorem Library.laid_of_define {declarations : List Declaration} {library : Traced Library}
    (h : define declarations = .ok library) {id : DefinitionId} {d : Definition}
    (hd : library.value[id]? = some d) : ∃ root l, d.template.Laid root l := by
  have roots : ∀ d ∈ declarations, d.Roots fun _ => True := by
    intro d _
    unfold Declaration.Roots
    split <;> trivial
  refine templates_of_define (P := fun t => ∃ root l, t.Laid root l) ?_ (fun hc _ => ?_) h roots hd
  · exact ⟨_, _, Template.laid_default⟩
  · exact ⟨_, _, Template.laid_of_compile hc⟩

namespace Build

/-! ## Binding -/

/-- The way to each element leads to it. -/
theorem forall₂_of_bindFrom {d : Document Listener} {root : NodeId} {slot : Nat}
    {ways : List (List Nat)} {nodes : List NodeId} (h : bindFrom d root slot ways = .ok nodes) :
    List.Forall₂ (fun way x => d.descend root way = some x) ways nodes := by
  induction ways generalizing slot nodes with
  | nil => exact Except.ok.inj h ▸ .nil
  | cons way rest ih =>
    unfold bindFrom at h
    split at h
    · cases h
    · next x hx =>
      cases hr : bindFrom d root (slot + 1) rest with
      | error s =>
        rw [hr] at h
        cases h
      | ok others =>
        rw [hr] at h
        exact Except.ok.inj h ▸ .cons hx (ih hr)

/-- Each slot is bound to the node of its entry, and no two slots are bound to one node. -/
structure Bound (l : Layout) (f : Nat → Option NodeId) (nodes : List NodeId) : Prop where
  length : nodes.length = l.owners.length
  slot : ∀ {s n}, l.Owns s n → ∃ x, nodes[s]? = some x ∧ f n = some x
  nodup : nodes.Nodup

variable {t : Template} {root : Node} {l : Layout} {f : Nat → Option NodeId}

/-- The place of an entry leads to what its slot is bound to. -/
theorem descend_of_bindFrom (laid : t.Laid root l) {d : Document Listener} {r : NodeId}
    {nodes : List NodeId} (h : bindFrom d r 0 t.slots = .ok nodes) {s n : Nat} {e : OutlineEntry}
    {x : NodeId} (hs : l.Owns s n) (he : (Outline.ofRoot root)[n]? = some e)
    (hx : nodes[s]? = some x) : d.descend r e.place = some x := by
  have way : t.slots[s]? = some e.place := by
    rw [laid.slots, List.getElem?_map, hs, Option.map_some, he]
    rfl
  obtain ⟨hw, way⟩ := List.getElem?_eq_some_iff.mp way
  obtain ⟨hlt, rfl⟩ := List.getElem?_eq_some_iff.mp hx
  have := (List.forall₂_iff_get.mp (forall₂_of_bindFrom h)).2 s hw hlt
  rwa [List.get_eq_getElem, List.get_eq_getElem, way] at this

/-- The slots of a template are bound to the copies of their nodes. -/
theorem bound_of_bindFrom (laid : t.Laid root l) {d later : Document Listener} {r : NodeId}
    (copy : Document.CopyOf root d later r f) {nodes : List NodeId}
    (h : bindFrom later r 0 t.slots = .ok nodes) : Bound l f nodes := by
  have length : nodes.length = l.owners.length := by
    rw [← (forall₂_of_bindFrom h).length_eq, laid.slots, List.length_map]
  have slot {s n : Nat} (hs : l.Owns s n) : ∃ x, nodes[s]? = some x ∧ f n = some x := by
    have hlt : s < nodes.length := length ▸ (List.getElem?_eq_some_iff.mp hs).1
    have hx := List.getElem?_eq_getElem hlt
    obtain ⟨e, he, plain⟩ := laid.regular.owners_plain n (List.mem_of_getElem? hs)
    have way := descend_of_bindFrom laid h hs he hx
    exact ⟨nodes[s], hx, copy.drawn.of_descend copy.top laid.sound he plain way⟩
  refine ⟨length, slot, List.pairwise_iff_getElem.mpr fun i j hi hj hij he => ?_⟩
  have owner {s : Nat} (hs : s < nodes.length) : ∃ n, l.Owns s n :=
    ⟨_, List.getElem?_eq_getElem (length ▸ hs)⟩
  obtain ⟨n, hn⟩ := owner hi
  obtain ⟨m, hm⟩ := owner hj
  obtain ⟨x, hx, hf⟩ := slot hn
  obtain ⟨y, hy, hg⟩ := slot hm
  rw [List.getElem?_eq_getElem hi, he] at hx
  rw [List.getElem?_eq_getElem hj] at hy
  obtain rfl : x = y := Option.some.inj (hx.symm.trans hy)
  obtain rfl := copy.adds.inj hf hg
  have := (List.getElem?_inj (length ▸ hi) laid.regular.owners_nodup).mp (hn.trans hm.symm)
  omega

/-- Slots can be bound if the way of each leads somewhere. -/
theorem exists_bindFrom {d : Document Listener} {r : NodeId} {ways : List (List Nat)}
    (h : ∀ way ∈ ways, ∃ x, d.descend r way = some x) (slot : Nat) :
    ∃ nodes, bindFrom d r slot ways = .ok nodes := by
  induction ways generalizing slot with
  | nil => exact ⟨[], rfl⟩
  | cons way rest ih =>
    rw [List.forall_mem_cons] at h
    obtain ⟨x, hx⟩ := h.1
    obtain ⟨others, hr⟩ := ih h.2 (slot + 1)
    refine ⟨x :: others, ?_⟩
    rw [bindFrom, hx, hr]
    rfl

/-- The slots of a compiled component can be bound in each of its copies, if none of its texts has
children. -/
theorem binds_of_compile {options : CompileSettings} {name : String}
    (compiled : Template.compile options name root = .ok t)
    (texts : ∀ e ∈ Outline.ofRoot root, e.node.head.isElement = false → e.node.children = [])
    {d : Document Listener} (sound : d.Sound) :
    ∃ nodes, bindFrom (d.instantiate t.markup).1 (d.instantiate t.markup).2 0 t.slots = .ok nodes := by
  have laid := Template.laid_of_compile compiled
  obtain ⟨f, copy⟩ := Document.exists_copy sound root
  rw [← laid.markup] at copy
  refine exists_bindFrom (fun way hw => ?_) 0
  rw [laid.slots] at hw
  obtain ⟨n, hn, rfl⟩ := List.mem_map.mp hw
  obtain ⟨e, he, plain⟩ := laid.regular.owners_plain n hn
  obtain ⟨way, some⟩ := copy.drawn.descend_eq copy.top laid.sound texts he plain
  rw [he]
  obtain ⟨x, hx⟩ := Option.isSome_iff_exists.mp some
  exact ⟨x, way.trans hx⟩

/-- A section with a note and a place for a badge. -/
def panel : Node :=
  ⟨{ kind := .element "section" }, [
    ⟨{ kind := .element "p", reference := some "note" }, [⟨{ kind := .text "new" }, []⟩]⟩,
    ⟨{ kind := .element "i", nested := some ⟨0, .props, none, true⟩ }, []⟩]⟩

/-- The note and the place for the badge are bound in a copy of the panel. -/
theorem binds_of_panel : ∃ t nodes, Template.compile {} "Panel" panel = .ok t ∧
    bindFrom (({} : Document Listener).instantiate t.markup).1
      (({} : Document Listener).instantiate t.markup).2 0 t.slots = .ok nodes := by
  obtain ⟨t, compiled⟩ : ∃ t, Template.compile {} "Panel" panel = .ok t :=
    exists_of_isOk (by decide +kernel)
  obtain ⟨nodes, bound⟩ := binds_of_compile compiled (by decide +kernel) Document.sound_empty
  exact ⟨t, nodes, compiled, bound⟩

/-- A label with a text that has a child; the child gets a slot. -/
def label : Node :=
  ⟨{ kind := .element "div" }, [
    ⟨{ kind := .text "hi" }, [⟨{ kind := .element "b", reference := some "b" }, []⟩]⟩]⟩

/-- The label is compiled, but no copy of its markup has a node for the child of the text. -/
theorem unbound_slot_of_label : ∃ t, Template.compile {} "Label" label = .ok t ∧
    bindFrom (({} : Document Listener).instantiate t.markup).1
      (({} : Document Listener).instantiate t.markup).2 0 t.slots = .error 0 := by
  obtain ⟨t, compiled⟩ : ∃ t, Template.compile {} "Label" label = .ok t :=
    exists_of_isOk (by decide +kernel)
  refine ⟨t, compiled, ?_⟩
  obtain ⟨-, rfl⟩ := Template.accepts_of_compile compiled
  rfl

/-! ## The stash -/

end Build

/-- From `w` to `later` nodes and instances come in, with `root` for their root; what was there stays
as it is. -/
structure World.Gains (w later : World) (root : NodeId) : Prop where
  document : Document.Extends w.document later.document [root]
  instances : ∀ {i : InstanceId} {inst}, w.instances[i]? = some inst →
    later.instances[i]? = some inst

namespace Build

/-- The nodes at the slots when the entries `made` of the stash are there: at the slot of a nested
child its root, and at every other slot the node of its entry. Nodes that children are still to take
the place of have nothing below them. -/
structure Seated (l : Layout) (f : Nat → Option NodeId) (root : NodeId) (w₀ : World)
    (made : List StashItem) (elements : List NodeId) (w : World) : Prop where
  gains : w₀.Gains w root
  length : elements.length = l.owners.length
  nodup : elements.Nodup
  new : ∀ x ∈ elements, w₀.document.isLive x = false ∧ w.document.isLive x = true
  seat : ∀ {key slot : Nat} {source b}, l.Plans key (.child slot source b) → key < made.length →
    ∃ i inst, made[key]? = some (.child i) ∧ w.instances[i]? = some inst ∧
      elements[slot]? = some inst.root
  own : ∀ {slot n}, l.Owns slot n →
    (∀ {key : Nat} {source b}, l.Plans key (.child slot source b) → made.length ≤ key) →
      elements[slot]? = f n
  bare : ∀ {key slot : Nat} {source b x}, l.Plans key (.child slot source b) → made.length ≤ key →
    elements[slot]? = some x → w.document.children x = [] ∧ x ≠ root

namespace Seated

variable {l : Layout} {f : Nat → Option NodeId} {o : Outline} {n : Nat} {r : NodeId}
  {w₀ w : World} {made : List StashItem} {elements : List NodeId}

/-- An entry that is no child changes nothing. -/
theorem skip (h : Seated l f r w₀ made elements w) (item : StashItem)
    (hk : ∀ slot source b, ¬ l.Plans made.length (.child slot source b)) :
    Seated l f r w₀ (made ++ [item]) elements w := by
  have later {key slot : Nat} {source : ChildSource} {b : Bool}
      (hp : l.Plans key (.child slot source b)) : key ≠ made.length := by
    rintro rfl
    exact hk slot source b hp
  constructor
  · exact h.gains
  · exact h.length
  · exact h.nodup
  · exact h.new
  · intro key slot source b hp hlt
    rw [List.length_append, List.length_singleton] at hlt
    have hlt : key < made.length := by
      have := later hp
      omega
    obtain ⟨i, inst, hi, hr⟩ := h.seat hp hlt
    exact ⟨i, inst, by rw [List.getElem?_append_left hlt, hi], hr⟩
  · intro slot n hs hn
    refine h.own hs fun hp => ?_
    have := hn hp
    rw [List.length_append, List.length_singleton] at this
    omega
  · intro key slot source b x hp hle
    rw [List.length_append, List.length_singleton] at hle
    exact h.bare hp (by omega)

/-- A child takes the place of the node that stands for it. -/
theorem place (h : Seated l f r w₀ made elements w) (regular : l.Regular o n)
    (wf : w₀.document.WellFormed) {slot : Nat} {source : ChildSource} {b : Bool}
    (hk : l.Plans made.length (.child slot source b)) {x : NodeId} (hx : elements[slot]? = some x)
    {later : World} {i : InstanceId} {inst : Instance} (hi : later.instances[i]? = some inst)
    (gains : w.Gains later inst.root) :
    Seated l f r w₀ (made ++ [.child i]) (elements.set slot inst.root)
      { later with document := later.document.swap b x inst.root } := by
  have hm : x ∈ elements := List.mem_of_getElem? hx
  have hslot : slot < elements.length := (List.getElem?_eq_some_iff.mp hx).1
  obtain ⟨new, live⟩ := h.new x hm
  obtain ⟨bare, hne⟩ := h.bare hk (Nat.le_refl _) hx
  obtain ⟨grown, stays, left⟩ :=
    h.gains.document.swap wf gains.document live new bare hne b
  have dead : w.document.isLive inst.root = false :=
    gains.document.dead _ List.mem_cons_self
  have alive {y : NodeId} (hy : w.document.isLive y = true) : y ≠ inst.root := by
    rintro rfl
    rw [dead] at hy
    cases hy
  -- A node at another slot is another node.
  have other {s : Nat} {y : NodeId} (hs : s ≠ slot) (hy : elements[s]? = some y) : y ≠ x := by
    rintro rfl
    exact hs ((List.getElem?_inj (List.getElem?_eq_some_iff.mp hy).1 h.nodup).mp (hy.trans hx.symm))
  have apart {key slot' : Nat} {source' : ChildSource} {b' : Bool}
      (hp : l.Plans key (.child slot' source' b')) (hne : key ≠ made.length) : slot' ≠ slot := by
    rintro rfl
    exact hne (regular.child_unique hp hk)
  constructor
  · exact ⟨grown, fun hj => gains.instances (h.gains.instances hj)⟩
  · rw [List.length_set]
    exact h.length
  · exact h.nodup.set fun hr => alive (h.new _ hr).2 rfl
  · intro y hy
    obtain ⟨s, hs⟩ := List.getElem?_of_mem hy
    by_cases he : s = slot
    · rw [he, List.getElem?_set_self hslot] at hs
      obtain rfl := Option.some.inj hs
      refine ⟨?_, stays (alive live).symm (gains.document.live _ List.mem_cons_self)⟩
      by_contra hl
      rw [h.gains.document.isLive (by simpa using hl)] at dead
      cases dead
    · rw [List.getElem?_set_ne (Ne.symm he)] at hs
      obtain ⟨new', live'⟩ := h.new y (List.mem_of_getElem? hs)
      exact ⟨new', stays (other he hs) (gains.document.isLive live')⟩
  · intro key slot' source' b' hp hlt
    by_cases hkey : key = made.length
    · obtain rfl := hkey
      obtain rfl : slot' = slot := by
        have := Option.some.inj (hp.symm.trans hk)
        injection this
      exact ⟨i, inst, by simp, hi, by rw [List.getElem?_set_self hslot]⟩
    · rw [List.length_append, List.length_singleton] at hlt
      have hlt : key < made.length := by omega
      obtain ⟨j, inst', hj, hinst, hr⟩ := h.seat hp hlt
      refine ⟨j, inst', by rw [List.getElem?_append_left hlt, hj], gains.instances hinst, ?_⟩
      rw [List.getElem?_set_ne (Ne.symm (apart hp hkey)), hr]
  · intro s m hs hn
    have hne : s ≠ slot := by
      rintro rfl
      have := hn hk
      rw [List.length_append, List.length_singleton] at this
      omega
    rw [List.getElem?_set_ne (Ne.symm hne)]
    refine h.own hs fun hp => ?_
    have := hn hp
    rw [List.length_append, List.length_singleton] at this
    omega
  · intro key slot' source' b' y hp hle hy
    rw [List.length_append, List.length_singleton] at hle
    have hne := apart hp (by omega)
    rw [List.getElem?_set_ne (Ne.symm hne)] at hy
    obtain ⟨bare', hroot⟩ := h.bare hp (by omega) hy
    exact ⟨left (other hne hy) (h.new y (List.mem_of_getElem? hy)).2 bare', hroot⟩

/-- The instance itself comes in. -/
theorem push (h : Seated l f r w₀ made elements w) (inst : Instance) :
    Seated l f r w₀ made elements { w with instances := w.instances.push inst } := by
  constructor
  · exact ⟨h.gains.document, fun hi => getElem?_push_of_get (h.gains.instances hi) inst⟩
  · exact h.length
  · exact h.nodup
  · exact h.new
  · intro key slot source b hp hlt
    obtain ⟨i, c, hi, hc, hr⟩ := h.seat hp hlt
    exact ⟨i, c, hi, getElem?_push_of_get hc inst, hr⟩
  · exact h.own
  · exact h.bare

/-- The node of a slot can be listened at. -/
theorem listen (h : Seated l f r w₀ made elements w) {x : NodeId} (hx : x ∈ elements)
    (event : String) (listener : Listener) : Seated l f r w₀ made elements
      { w with document := w.document.listen x event listener } := by
  obtain ⟨new, live⟩ := h.new x hx
  have same := Document.sameForest_update w.document x
    (f := fun n => { n with listeners := n.listeners ++ [(event, listener)] })
    fun _ => ⟨rfl, rfl, rfl⟩
  constructor
  · exact ⟨h.gains.document.write new live
      (f := fun n => { n with listeners := n.listeners ++ [(event, listener)] })
      fun _ => ⟨rfl, rfl, rfl⟩, h.gains.instances⟩
  · exact h.length
  · exact h.nodup
  · intro y hy
    exact ⟨(h.new y hy).1, (same.isLive y).trans (h.new y hy).2⟩
  · exact h.seat
  · exact h.own
  · intro key slot source b y hp hle hy
    exact ⟨(same.children y).trans (h.bare hp hle hy).1, (h.bare hp hle hy).2⟩

end Seated

/-! ## Building -/

/-- In a well-formed document the computation only brings in nodes and instances, among them the
instance that it answers with. -/
def Gaining (x : Run InstanceId) : Prop :=
  ∀ w : World, w.document.WellFormed → Ends (w = ·) x
    (fun i later => ∃ inst, later.instances[i]? = some inst ∧ w.Gains later inst.root)
    fun _ _ => True

variable {t : Template} {root : Node} {l : Layout} {f : Nat → Option NodeId} {r : NodeId}
  {w₀ : World} {made : List StashItem} {elements : List NodeId} {build : DefinitionId → Run InstanceId}

/-- Finding the source of a child leaves the world as it is. -/
theorem sourceOf_ends {P : World → Prop} (d : Definition) (source : ChildSource) :
    Ends P (sourceOf d source) (fun _ => P) fun _ _ => True := by
  cases source with
  | definition id => exact .pure fun _ h => h
  | stub name =>
    simp only [sourceOf]
    split
    · exact .pure fun _ h => h
    · exact .throw fun _ _ => trivial

/-- Taking the place of an element puts the root of the child there. -/
theorem takePlace_ends {w : World} {i : InstanceId} {inst : Instance}
    (hi : w.instances[i]? = some inst) (slot : Nat) (startsDetached : Bool)
    (elements : List NodeId) :
    Ends (w = ·) (takePlace slot startsDetached i elements)
      (fun nodes later => ∃ x, elements[slot]? = some x ∧ nodes = elements.set slot inst.root ∧
        later = { w with document := w.document.swap startsDetached x inst.root })
      fun _ _ => True := by
  unfold takePlace
  refine (Ends.rootOf (fun _ _ => trivial) fun _ _ => trivial).bind fun root => ?_
  split
  · exact .throw fun _ _ => trivial
  · next x hx =>
    rintro v ⟨hr, -, rfl⟩
    obtain rfl : inst.root = root := by
      rw [hi] at hr
      exact Option.some.inj hr
    cases startsDetached with
    | true => exact ⟨x, hx, rfl, rfl⟩
    | false => exact ⟨x, hx, rfl, rfl⟩

/-- One more entry of the stash is made. -/
theorem entry_seated (gaining : ∀ id, Gaining (build id)) (laid : t.Laid root l)
    (wf : w₀.document.WellFormed) (d : Definition) {plan : StashPlan}
    (hplan : l.stash[made.length]? = some plan) :
    Ends (Seated l f r w₀ made elements) (entry build d elements plan)
      (fun a w => Seated l f r w₀ (made ++ [a.1]) a.2 w) fun _ _ => True := by
  have other (hp : ∀ slot source b, plan ≠ .child slot source b) (slot : Nat)
      (source : ChildSource) (b : Bool) : ¬ l.Plans made.length (.child slot source b) := by
    intro hc
    exact hp slot source b (Option.some.inj (hplan.symm.trans (Layout.plans_child.mp hc)))
  cases plan with
  | tracker detached => exact .pure fun w h => h.skip _ (other nofun)
  | sequential definition share anchors => exact .pure fun w h => h.skip _ (other nofun)
  | keyed definition key share anchors => exact .pure fun w h => h.skip _ (other nofun)
  | child slot source startsDetached =>
    refine (sourceOf_ends d source).bind fun id => .pointwise fun w h => ?_
    refine (gaining id w h.gains.document.wellFormed).bind fun i => .pointwise fun later built => ?_
    obtain ⟨inst, hi, gains⟩ := built
    refine (takePlace_ends hi slot startsDetached elements).bind fun nodes => .pure fun v seated => ?_
    obtain ⟨x, hx, rfl, rfl⟩ := seated
    exact h.place laid.regular wf (Layout.plans_child.mpr hplan) hx hi gains

/-- The rest of the stash is made, entry by entry. -/
theorem entries_seated (gaining : ∀ id, Gaining (build id)) (laid : t.Laid root l)
    (wf : w₀.document.WellFormed) (d : Definition) (made : List StashItem) (elements : List NodeId)
    {plans : List StashPlan} (rest : l.stash.drop made.length = plans) :
    Ends (Seated l f r w₀ made elements) (entries build d r made elements plans)
      (fun a w => l.stash.length ≤ a.1.length ∧ Seated l f r w₀ a.1 a.2 w) fun _ _ => True := by
  induction plans generalizing made elements with
  | nil => exact .pure fun w h => ⟨List.drop_eq_nil_iff.mp rest, h⟩
  | cons plan plans ih =>
    have next : l.stash[made.length]? = some plan := by
      rw [← Nat.add_zero made.length, ← List.getElem?_drop, rest]
      rfl
    refine (entry_seated gaining laid wf d next).attempt.bind fun answer => ?_
    cases answer with
    | ok a =>
      refine (ih (made ++ [a.1]) a.2 ?_).pre fun w h => h.1 a rfl
      rw [List.length_append, List.length_singleton, ← List.drop_drop, rest, List.drop_succ_cons,
        List.drop_zero]
    | error fault =>
      refine (Ends.trivially _).bind fun _ => (Ends.trivially _).bind fun _ => ?_
      exact .throw fun _ _ => trivial

/-- The instance is taken up, and listens at nodes of its slots. -/
theorem register_seated (t : Template) {inst : Instance} (he : inst.elements = elements) :
    Ends (Seated l f r w₀ made elements) (register t inst)
      (fun i w => w.instances[i]? = some inst ∧ Seated l f r w₀ made elements w)
      fun _ _ => True := by
  subst he
  unfold register
  refine Ends.bind (Q := fun i w => w.instances[i]? = some inst ∧
    Seated l f r w₀ made inst.elements w) (.modifyGet fun w h => ⟨by simp, h.push inst⟩) fun i => ?_
  refine (Ends.forM fun p _ => ?_).bind fun _ => .pure fun _ h => h
  split
  · next x hx => exact .modify fun w h => ⟨h.1, h.2.listen (List.mem_of_getElem? hx) _ _⟩
  · exact .pure fun _ h => h

/-- Once the slots are bound nobody is seated yet. -/
theorem seated_start (laid : t.Laid root l) {w : World} (wf : w.document.WellFormed)
    (copy : Document.CopyOf root w.document (w.document.instantiate t.markup).1
      (w.document.instantiate t.markup).2 f) {nodes : List NodeId} (bound : Bound l f nodes) :
    Seated l f (w.document.instantiate t.markup).2 w [] nodes
      { w with document := (w.document.instantiate t.markup).1 } := by
  constructor
  · exact ⟨wf.extends_instantiate t.markup, fun hi => hi⟩
  · exact bound.length
  · exact bound.nodup
  · intro x hx
    obtain ⟨s, hs⟩ := List.getElem?_of_mem hx
    have hlt : s < l.owners.length := bound.length ▸ (List.getElem?_eq_some_iff.mp hs).1
    obtain ⟨y, hy, hf⟩ := bound.slot (List.getElem?_eq_getElem hlt)
    obtain rfl := Option.some.inj (hs.symm.trans hy)
    exact ⟨copy.adds.dead hf, copy.adds.live hf⟩
  · intro key slot source b _ hlt
    exact absurd hlt (Nat.not_lt_zero _)
  · intro slot n hs _
    obtain ⟨x, hx, hf⟩ := bound.slot hs
    rw [hx, hf]
  · intro key slot source b x hp _ hx
    obtain ⟨i, -, e, owns, he, component, -⟩ := laid.regular.child hp
    obtain ⟨y, hy, hf⟩ := bound.slot owns
    obtain rfl := Option.some.inj (hx.symm.trans hy)
    refine ⟨copy.drawn.bare he hf (by simp [NodeHead.isPlain, component]), ?_⟩
    -- No child component stands for the root.
    rintro rfl
    obtain rfl := copy.adds.inj hf copy.top
    have first : (Outline.ofRoot root)[0]? = some ⟨[], [], root, none⟩ :=
      Outline.getElem?_entries_zero ..
    rw [← Option.some.inj (first.symm.trans he), laid.top] at component
    cases component

/-- Building starts with a copy of the markup and goes on with the nodes of its slots, unless one of
them is missing. -/
theorem assemble_ends {lib : Library} {id : DefinitionId} {d : Definition} (hd : lib[id]? = some d)
    {w : World} {props : Value} {controller : Controller} {Q : InstanceId → World → Prop}
    {E : Stop → World → Prop} {r : NodeId} {copied : World}
    (copy : r = (w.document.instantiate d.template.markup).2 ∧
      { w with document := (w.document.instantiate d.template.markup).1 } = copied)
    (missing : ∀ slot, bindFrom copied.document r 0 d.template.slots = .error slot →
      Ends (copied = ·)
        (do Run.onDocument (·.release r); Run.fail (.missingElement d.name slot)) Q E)
    (bound : ∀ nodes, bindFrom copied.document r 0 d.template.slots = .ok nodes →
      Ends (copied = ·)
        (do
          let (stash, elements) ← entries build d r [] nodes d.template.stash
          register d.template
            { definition := id, root := r, props, state := d.initialState, controller, elements
              cache := .empty d.template.watches, stash, mounted := false }) Q E) :
    Ends (w = ·) (assemble lib build id props controller) Q E := by
  obtain ⟨rfl, rfl⟩ := copy
  unfold assemble
  refine Ends.bind (Q := fun x v => x = d ∧ w = v) ?_ fun x => .assume fun hx => ?_
  · rw [Library.definition, hd]
    exact .pure fun _ h => ⟨rfl, h⟩
  obtain rfl := hx
  refine Ends.bind (Q := fun r v => r = (w.document.instantiate x.template.markup).2 ∧
    { w with document := (w.document.instantiate x.template.markup).1 } = v)
    (.modifyGet fun v hv => hv ▸ ⟨rfl, rfl⟩) fun r => .assume fun hr => ?_
  obtain rfl := hr
  refine Ends.get.bind fun v => .pointwise fun later hl => ?_
  obtain ⟨rfl, rfl⟩ := hl
  dsimp only
  split
  · next slot hs => exact missing slot hs
  · next nodes hn => exact bound nodes hn

/-- An instance is built with the nodes of its slots seated. -/
theorem assemble_seated {lib : Library} (gaining : ∀ id, Gaining (build id)) {id : DefinitionId}
    {d : Definition} (hd : lib[id]? = some d) (laid : d.template.Laid root l) {w : World}
    (wf : w.document.WellFormed)
    (copy : Document.CopyOf root w.document (w.document.instantiate d.template.markup).1
      (w.document.instantiate d.template.markup).2 f) (props : Value) (controller : Controller) :
    Ends (w = ·) (assemble lib build id props controller)
      (fun i later => ∃ inst, later.instances[i]? = some inst ∧
        inst.root = (w.document.instantiate d.template.markup).2 ∧
        Seated l f inst.root w inst.stash inst.elements later ∧
        l.stash.length ≤ inst.stash.length) fun _ _ => True := by
  refine assemble_ends hd ⟨rfl, rfl⟩ (fun slot _ => ?_) fun nodes hn => ?_
  · exact (Ends.trivially _).bind fun _ => .throw fun _ _ => trivial
  · have start := seated_start laid wf copy (bound_of_bindFrom laid copy hn)
    have rest := entries_seated (f := f) (r := (w.document.instantiate d.template.markup).2)
      gaining laid wf d [] nodes laid.stash.symm
    refine (rest.pre ?_).bind fun made => ?_
    · rintro _ rfl
      exact start
    refine .assume fun all => (register_seated d.template ?_).post fun i later registered => ?_
    · rfl
    · exact ⟨_, registered.1, rfl, registered.2, all⟩

/-- Building goes down from definition to definition, and brings in nodes and instances only. -/
theorem gaining_buildWithin {lib : Library}
    (all : ∀ (id : DefinitionId) (d : Definition), lib[id]? = some d →
      ∃ root l, d.template.Laid root l) (depth : Nat) (id : DefinitionId) (props : Value)
    (controller : Controller) : Gaining (Run.buildWithin lib depth id props controller) := by
  induction depth generalizing id props controller with
  | zero => exact fun w _ => .throw fun _ _ => trivial
  | succ depth ih =>
    intro w wf
    rw [Run.buildWithin]
    cases hd : lib[id]? with
    | none =>
      unfold assemble Library.definition
      rw [hd]
      exact Ends.bind (Q := fun _ _ => False) (.throw fun _ _ => trivial) fun _ _ no => no.elim
    | some d =>
      obtain ⟨root, l, laid⟩ := all id d hd
      obtain ⟨f, copy⟩ := Document.exists_copy wf.toSound root
      rw [← laid.markup] at copy
      refine (assemble_seated (fun k => ih k .null none) hd laid wf copy props controller).post ?_
      rintro i later ⟨inst, hi, -, seated, -⟩
      exact ⟨inst, hi, seated.gains⟩

end Build

/-- The nodes of the slots of an instance: the root of the nested child at the slot of a node that a
child component stands for, and at every other slot the node that the copy `f` has for its entry. -/
structure Instance.Fills (inst : Instance) (w : World) (root : Node) (l : Layout)
    (f : Nat → Option NodeId) : Prop where
  length : inst.elements.length = l.owners.length
  nodup : inst.elements.Nodup
  live : ∀ x ∈ inst.elements, w.document.isLive x = true
  child : ∀ {slot n : Nat} {e}, l.Owns slot n → (Outline.ofRoot root)[n]? = some e →
    e.node.head.isComponent = true →
      ∃ (key : StashIndex) (source : ChildSource) (startsDetached : Bool) (i : InstanceId)
        (c : Instance), l.stash[key]? = some (.child slot source startsDetached) ∧
          inst.stash[key]? = some (.child i) ∧ w.instances[i]? = some c ∧
          inst.elements[slot]? = some c.root
  own : ∀ {slot n : Nat} {e}, l.Owns slot n → (Outline.ofRoot root)[n]? = some e →
    e.node.head.isComponent = false → inst.elements[slot]? = f n

/-- When the whole stash is made, every child is seated. -/
theorem Build.Seated.fills {t : Template} {root : Node} {l : Layout} (laid : t.Laid root l)
    {f : Nat → Option NodeId} {w₀ w : World} {inst : Instance}
    (h : Seated l f inst.root w₀ inst.stash inst.elements w)
    (all : l.stash.length ≤ inst.stash.length) : inst.Fills w root l f where
  length := h.length
  nodup := h.nodup
  live x hx := (h.new x hx).2
  child {slot n e} owns he component := by
    have hlt := (List.getElem?_eq_some_iff.mp he).1
    obtain ⟨e', he', plain⟩ := laid.regular.owners_plain n (List.mem_of_getElem? owns)
    obtain rfl := Option.some.inj (he.symm.trans he')
    obtain ⟨key, slot', source, plans, owns'⟩ := laid.regular.child_total hlt he component plain
    obtain rfl : slot = slot' := (List.getElem?_inj (List.getElem?_eq_some_iff.mp owns).1
      laid.regular.owners_nodup).mp (owns.trans owns'.symm)
    have planned := Layout.plans_child.mp plans
    have hkey := (List.getElem?_eq_some_iff.mp planned).1
    obtain ⟨i, c, hi, hc, hr⟩ := h.seat plans (by omega)
    exact ⟨key, source, _, i, c, planned, hi, hc, hr⟩
  own {slot n e} owns he component := by
    refine h.own owns fun plans => ?_
    -- Only a component has an entry of the stash.
    obtain ⟨m, -, e', owns', he', component', -⟩ := laid.regular.child plans
    obtain rfl : n = m := Option.some.inj (owns.symm.trans owns')
    rw [← Option.some.inj (he.symm.trans he'), component] at component'
    cases component'

/-- Whenever a fresh copy of a compiled component can be bound in a well-formed document, each slot
is bound to the node of the entry it belongs to, and no two slots to one node; and an instance that
is built there has the root of a child at each slot of a child component, the node of the copy at
every other slot, and different live nodes at all of them. -/
theorem Run.slots_of_build {declarations : List Declaration} {library : Traced Library}
    (defined : Library.define declarations = .ok library) {options : CompileSettings}
    {name : String} {root : Node} {t : Template} (compiled : Template.compile options name root = .ok t)
    {id : DefinitionId} {d : Definition} (hd : library.value[id]? = some d) (ht : d.template = t)
    {w : World} (wf : w.document.WellFormed) {nodes : List NodeId}
    (bound : Build.bindFrom (w.document.instantiate t.markup).1 (w.document.instantiate t.markup).2 0
      t.slots = .ok nodes) :
    ∃ l f, t.Laid root l ∧
      Document.CopyOf root w.document (w.document.instantiate t.markup).1
        (w.document.instantiate t.markup).2 f ∧
      Build.Bound l f nodes ∧
      ∀ depth props controller i later,
        buildWithin library.value depth id props controller w = .ok i later →
          ∃ inst, later.instances[i]? = some inst ∧ inst.Fills later root l f := by
  have laid := Template.laid_of_compile compiled
  obtain ⟨f, copy⟩ := Document.exists_copy wf.toSound root
  rw [← laid.markup] at copy
  refine ⟨_, f, laid, copy, Build.bound_of_bindFrom laid copy bound, ?_⟩
  intro depth props controller i later built
  cases depth with
  | zero => cases built
  | succ depth =>
    subst ht
    have children (k : DefinitionId) := Build.gaining_buildWithin
      (fun _ _ hk => Library.laid_of_define defined hk) depth k .null none
    obtain ⟨inst, hi, -, seated, all⟩ := (Build.assemble_seated children hd laid wf copy props
      controller).of_ok rfl built
    exact ⟨inst, hi, seated.fills laid all⟩

/-- A badge. -/
def badge : Node := ⟨{ kind := .element "b", watches := [⟨.props, .setText⟩] }, []⟩

/-- The badge and the panel, each as a declaration. -/
def panelDeclarations : List Declaration :=
  [{ id := "badge", name := "Badge", origin := .root badge {} },
   { id := "panel", name := "Panel", origin := .root Build.panel {} }]

/-- The library of the badge and the panel. -/
def panelLibrary : Traced Library :=
  match Library.define panelDeclarations with
  | .ok library => library
  | .error _ => ⟨[], []⟩

/-- A panel has its note at the first slot and the root of its badge at the second. -/
theorem Run.slots_of_panel : ∃ t l f i later inst,
    Template.compile {} "Panel" Build.panel = .ok t ∧ t.Laid Build.panel l ∧
      build panelLibrary.value 1 .null none (World.empty 2) = .ok i later ∧
      later.instances[i]? = some inst ∧ inst.elements = [1, 4] ∧
      inst.Fills later Build.panel l f := by
  have defined : Library.define panelDeclarations = .ok panelLibrary := by
    obtain ⟨library, h⟩ : ∃ library, Library.define panelDeclarations = .ok library :=
      exists_of_isOk (by decide +kernel)
    rw [panelLibrary, h]
  obtain ⟨t, compiled⟩ : ∃ t, Template.compile {} "Panel" Build.panel = .ok t :=
    exists_of_isOk (by decide +kernel)
  have hd : panelLibrary.value[1]? = some (.new "Panel" t) := by
    obtain ⟨t', compiled'⟩ : ∃ t', Template.compile {} "Badge" badge = .ok t' :=
      exists_of_isOk (by decide +kernel)
    unfold Library.define panelDeclarations Declaration.define Declaration.start at defined
    simp only [List.foldlM_cons, List.foldlM_nil, compiled, compiled'] at defined
    rw [← Except.ok.inj defined]
    rfl
  have wf : (World.empty 2).document.WellFormed := Document.wellFormed_empty
  obtain ⟨nodes, bound⟩ : ∃ nodes,
      Build.bindFrom ((World.empty 2).document.instantiate t.markup).1
        ((World.empty 2).document.instantiate t.markup).2 0 t.slots = .ok nodes := by
    obtain ⟨-, rfl⟩ := Template.accepts_of_compile compiled
    exact exists_of_isOk (by decide +kernel)
  obtain ⟨l, f, laid, -, -, filled⟩ := slots_of_build defined compiled hd rfl wf bound
  have ok : (match build panelLibrary.value 1 .null none (World.empty 2) with
      | .ok i later => decide (later.instances[i]?.map Instance.elements = some [1, 4])
      | .error _ _ => false) = true := by decide +kernel
  split at ok
  · next i later built =>
    obtain ⟨inst, hi, fills⟩ := filled 2 .null none i later built
    rw [hi] at ok
    exact ⟨t, l, f, i, later, inst, compiled, laid, built, hi, by simpa using ok, fills⟩
  · cases ok

end ComponentView
