import ComponentView.Proofs.Layout.Directives
import ComponentView.Proofs.SecondUpdate
import ComponentView.Proofs.Slots

/-! # Blueprints

A blueprint is a component with the layout that its template was read off from. It says which entry
of the stash stands for which node (`Layout.keyOf`), and so what an instance puts among the children
of an element for each child that the component has there (`Blueprint.cell`). -/

namespace ComponentView

namespace Outline

/-- A child of an entry is one whose parent the entry is. -/
theorem mem_childrenOf {o : Outline} {n m : Nat} :
    m ∈ o.childrenOf n ↔ ∃ e, o[m]? = some e ∧ e.parent = some n := by
  rw [childrenOf_eq_childrenFrom, mem_childrenFrom]
  simp

/-- A child entry comes after its parent. -/
theorem lt_of_mem_childrenOf {root : Node} {n m : Nat} (h : n ∈ (ofRoot root).childrenOf m) :
    m < n ∧ n < (ofRoot root).length := by
  obtain ⟨e, he, hp⟩ := mem_childrenOf.mp h
  refine ⟨?_, (List.getElem?_eq_some_iff.mp he).1⟩
  rcases parent_ofRoot he with ⟨-, rfl⟩ | ⟨p, hlt, -, -, -, hp', -⟩
  · cases hp
  · obtain rfl : p = m := by simpa [hp] using hp'.symm
    exact hlt

end Outline

/-! ## What an entry of a stash shows -/

namespace StashItem

/-- The instances that the entry shows in the container, in order. -/
def shown : StashItem → List InstanceId
  | tracker _ => []
  | child i => [i]
  | sequential r => r.instances.take r.attached
  | keyed r => r.inOrder

/-- The anchors of a repeater. -/
def anchors : StashItem → List Anchor
  | sequential r => r.anchors
  | keyed r => r.anchors
  | _ => []

/-- No more instances are attached than there are, and the order of a repeater by key has each of its
keys once. -/
def Even : StashItem → Prop
  | sequential r => r.attached ≤ r.instances.length
  | keyed r => r.order.Nodup ∧ (r.instances.map (·.1)).Nodup ∧
      ∀ key, key ∈ r.order ↔ key ∈ r.instances.map (·.1)
  | _ => True

end StashItem

/-- The instances of the keys of a repeater, in their order, are those it has. -/
theorem Keyed.inOrder_perm {r : Keyed} (h : (StashItem.keyed r).Even) :
    r.inOrder.Perm (r.instances.map (·.2)) := by
  obtain ⟨order, keys, same⟩ := h
  have perm : r.order.Perm (r.instances.map (·.1)) :=
    (List.perm_ext_iff_of_nodup order keys).mpr same
  refine (perm.filterMap r.instance?).trans (.of_eq ?_)
  rw [List.filterMap_map]
  refine (List.filterMap_congr (g := some ∘ Prod.snd) fun x hx => ?_).trans
    (congrFun List.filterMap_eq_map r.instances)
  exact (instance?_eq_some_iff keys).mpr hx

/-- Nothing that it holds stands aside. -/
theorem Keyed.filter_not_mem_order {r : Keyed} (h : (StashItem.keyed r).Even) :
    r.instances.filter (·.1 ∉ r.order) = [] :=
  List.filter_eq_nil_iff.mpr fun x hx => by
    simpa using (h.2.2 x.1).mpr (List.mem_map_of_mem hx)

/-- An even entry shows only what it holds. -/
theorem StashItem.shown_subset {item : StashItem} (h : item.Even) : item.shown ⊆ item.held := by
  cases item with
  | tracker t => exact List.Subset.refl _
  | child i => exact List.Subset.refl _
  | sequential r => exact List.take_subset _ _
  | keyed r => exact (Keyed.inOrder_perm h).subset

/-- What an entry holds the stash holds. -/
theorem StashItem.mem_held {stash : List StashItem} {key : StashIndex} {item : StashItem}
    (hs : stash[key]? = some item) {i : InstanceId} (hi : i ∈ item.held) :
    i ∈ stash.flatMap held :=
  List.mem_flatMap.mpr ⟨item, List.mem_of_getElem? hs, hi⟩

/-- An entry that is put back in its place changes nothing. -/
theorem StashItem.set_self {stash : List StashItem} {key : StashIndex} {item : StashItem}
    (hs : stash[key]? = some item) : stash.set key item = stash := by
  obtain ⟨hlt, rfl⟩ := List.getElem?_eq_some_iff.mp hs
  exact List.set_getElem_self hlt

/-- The head of a repeater is the first instance that it shows. -/
theorem StashItem.head?_eq {item : StashItem} (h : item.Even) (hk : ∀ i, item ≠ .child i) :
    item.head? = item.shown.head? := by
  cases item with
  | tracker t => rfl
  | child i => exact absurd rfl (hk i)
  | sequential r =>
    show (if r.attached = 0 then none else r.instances.head?) = _
    cases ha : r.attached with
    | zero => simp [shown, ha]
    | succ n => cases hi : r.instances <;> simp [shown, ha, hi]
  | keyed r =>
    show r.order.head?.bind r.instance? = (r.order.filterMap r.instance?).head?
    cases ho : r.order with
    | nil => rfl
    | cons key rest =>
      obtain ⟨x, hx, he⟩ := List.mem_map.mp ((h.2.2 key).mp (by rw [ho]; simp))
      have hi : r.instance? key = some x.2 :=
        (Keyed.instance?_eq_some_iff h.2.1).mpr (he ▸ hx)
      rw [List.filterMap_cons, hi, List.head?_cons, Option.bind_some, hi, List.head?_cons]

/-! ## Entries of the stash and nodes -/

namespace Layout

/-- The entry of the stash stands for the entry of the outline. -/
def Seats (l : Layout) (key : StashIndex) (m : Nat) : Prop :=
  (∃ slot source startsDetached, l.Plans key (.child slot source startsDetached) ∧ l.Owns slot m) ∨
    l.Repeats m key

/-- The entry of the stash that stands for an entry of the outline. -/
def keyOf (l : Layout) (m : Nat) : Option StashIndex :=
  match l.repeats.lookup m with
  | some key => some key
  | none => l.stash.findIdx? fun
    | .child slot _ _ => l.owners[slot]? = some m
    | _ => false

variable {l : Layout} {o : Outline} {n m : Nat} {key : StashIndex}

/-- Where no key stands twice a lookup finds exactly the pairs. -/
theorem lookup_eq_some_iff {α β : Type} [BEq α] [LawfulBEq α] {xs : List (α × β)}
    (nodup : (xs.map (·.1)).Nodup) {a : α} {b : β} : xs.lookup a = some b ↔ (a, b) ∈ xs := by
  induction xs with
  | nil => simp
  | cons x xs ih =>
    obtain ⟨c, d⟩ := x
    rw [List.map_cons, List.nodup_cons] at nodup
    rw [List.lookup_cons, List.mem_cons]
    by_cases hc : a = c
    · subst hc
      have : (a, b) ∉ xs := fun h => nodup.1 (List.mem_map_of_mem (f := (·.1)) h)
      simp [this, eq_comm]
    · simp [hc, ih nodup.2, beq_false_of_ne hc]

/-- The entry of the stash that stands for a node is found. -/
theorem Regular.keyOf_eq_some_iff (h : l.Regular o n) : l.keyOf m = some key ↔ l.Seats key m := by
  unfold keyOf
  cases hr : l.repeats.lookup m with
  | some other =>
    have hm : l.Repeats m other := (lookup_eq_some_iff h.repeats_nodup.1).mp hr
    constructor
    · intro he
      obtain rfl := Option.some.inj he
      exact Or.inr hm
    · rintro (⟨slot, source, b, -, owns⟩ | hk)
      · obtain ⟨-, e, he, repeated, -⟩ := h.repeats hm
        obtain ⟨e', he', plain⟩ := h.owners_plain m (List.mem_of_getElem? owns)
        rw [Option.some.inj (he'.symm.trans he), repeated] at plain
        cases plain
      · exact hr.symm.trans ((lookup_eq_some_iff h.repeats_nodup.1).mpr hk)
  | none =>
    have absent (k : StashIndex) : ¬ l.Repeats m k := fun hk => by
      rw [(lookup_eq_some_iff h.repeats_nodup.1).mpr hk] at hr
      cases hr
    simp only [Seats, absent, or_false]
    rw [List.findIdx?_eq_some_iff_getElem]
    constructor
    · rintro ⟨hlt, hp, -⟩
      have hk := List.getElem?_eq_getElem hlt
      cases hs : l.stash[key] with
      | child slot source b =>
        rw [hs] at hp hk
        exact ⟨slot, source, b, plans_child.mpr hk, show l.owners[slot]? = some m by simpa using hp⟩
      | _ => simp [hs] at hp
    · rintro ⟨slot, source, b, plans, owns⟩
      obtain ⟨hlt, hk⟩ := List.getElem?_eq_some_iff.mp (plans_child.mp plans)
      refine ⟨hlt, by rw [hk]; simpa [Owns] using owns, fun j hj => ?_⟩
      cases hs : l.stash[j] with
      | child slot' source' b' =>
        rw [decide_eq_true_iff]
        intro owns'
        obtain rfl : slot = slot' :=
          (List.getElem?_inj (List.getElem?_eq_some_iff.mp owns).1 h.owners_nodup).mp
            (owns.trans owns'.symm)
        have plans' : l.Plans j (.child slot source' b') :=
          plans_child.mpr (List.getElem?_eq_some_iff.mpr ⟨Nat.lt_trans hj hlt, hs⟩)
        exact absurd (h.child_unique plans plans') (Nat.ne_of_gt hj)
      | _ => simp

/-- A node has an entry of the stash if and only if a child component stands for it. -/
theorem Regular.isSome_keyOf (h : l.Regular o o.length) {e : OutlineEntry} (he : o[m]? = some e) :
    (l.keyOf m).isSome = e.node.head.isComponent := by
  have hlt := (List.getElem?_eq_some_iff.mp he).1
  cases hc : e.node.head.isComponent with
  | true =>
    refine Option.isSome_iff_exists.mpr ?_
    cases hr : e.node.head.isRepeated with
    | true =>
      obtain ⟨key, hk⟩ := h.repeats_total hlt he hr
      exact ⟨key, h.keyOf_eq_some_iff.mpr (Or.inr hk)⟩
    | false =>
      obtain ⟨key, slot, source, plans, owns⟩ := h.child_total hlt he hc hr
      exact ⟨key, h.keyOf_eq_some_iff.mpr (Or.inl ⟨slot, source, _, plans, owns⟩)⟩
  | false =>
    refine Bool.eq_false_iff.mpr fun hs => ?_
    obtain ⟨key, hk⟩ := Option.isSome_iff_exists.mp hs
    rcases h.keyOf_eq_some_iff.mp hk with ⟨slot, source, b, plans, owns⟩ | hk
    · obtain ⟨i, -, e', owns', he', component, -⟩ := h.child plans
      obtain rfl : i = m := Option.some.inj (owns'.symm.trans owns)
      rw [Option.some.inj (he'.symm.trans he), hc] at component
      cases component
    · obtain ⟨-, e', he', repeated, -⟩ := h.repeats hk
      rw [Option.some.inj (he'.symm.trans he)] at repeated
      rw [NodeHead.isComponent_of_isRepeated repeated] at hc
      cases hc

end Layout

/-! ## Blueprints -/

/-- The effect moves no node: it writes to its node, records something, or fails. -/
def Effect.InPlace : Effect → Prop
  | setText | setAttribute _ | switchClass _ | switchClasses _ | setStyle _ | record _ | failWhen _
  | recordLookup _ | recordScope => True
  | _ => False

instance : DecidablePred Effect.InPlace
  | .setText | .setAttribute _ | .switchClass _ | .switchClasses _ | .setStyle _ | .record _
  | .failWhen _ | .recordLookup _ | .recordScope => isTrue trivial
  | .renderChild _ _ | .renderSequence _ _ | .renderKeyed _ _ | .dispatch _ | .publish _ => isFalse id

/-- No watch that the component declares moves a node. -/
def Node.InPlace (root : Node) : Prop :=
  ∀ e ∈ Outline.ofRoot root, ∀ d ∈ e.node.head.watches, d.effect.InPlace

instance (root : Node) : Decidable root.InPlace :=
  inferInstanceAs (Decidable (∀ e ∈ Outline.ofRoot root, ∀ d ∈ e.node.head.watches, d.effect.InPlace))

/-- An effect that only writes works in place. -/
theorem Effect.Writes.inPlace {f : Effect} (h : f.Writes) : f.InPlace := by
  cases f <;> trivial

/-- The tree of a built-in template works in place. -/
theorem Node.BuiltIn.inPlace {root : Node} (h : root.BuiltIn) : root.InPlace :=
  fun e he d hd => (h e he d hd).inPlace

/-- Whether the effect writes the text of its node. -/
def Effect.writesText : Effect → Bool
  | setText => true
  | _ => false

/-- Users' watches write texts only to nodes that have nothing else below them and that no child
component stands for. -/
def Node.WritesLeaves (root : Node) : Prop :=
  ∀ e ∈ Outline.ofRoot root, ∀ d ∈ e.node.head.watches, d.effect.writesText = true →
    e.node.children = [] ∧ e.node.head.isComponent = false

instance (root : Node) : Decidable root.WritesLeaves :=
  inferInstanceAs (Decidable (∀ e ∈ Outline.ofRoot root, ∀ d ∈ e.node.head.watches,
    d.effect.writesText = true → e.node.children = [] ∧ e.node.head.isComponent = false))

/-- A component, and the layout that its template was read off from. -/
structure Blueprint where
  root : Node
  layout : Layout
  deriving Inhabited

namespace Blueprint

/-- The outline of the component. -/
def outline (B : Blueprint) : Outline := .ofRoot B.root

/-- The watch works at the node of the entry, and does what the directives of the entry say. -/
structure Works (B : Blueprint) (i : Nat) (e : OutlineEntry) (w : Watch) : Prop where
  slot : B.layout.Owns w.slot (Layout.workplace i e)
  detach : ∀ s ∈ w.shield, ∀ p ∈ s.detach, B.layout.Detaches e p
  effects : ∀ c ∈ w.callbacks, ∀ f ∈ c.effects, B.layout.Serves i e c.trigger f

/-- The template was read off from the blueprint, in which watches move no nodes, and write texts only
where there is nothing else. -/
structure Draws (B : Blueprint) (t : Template) : Prop extends t.Laid B.root B.layout where
  anchored : ∀ i key, B.layout.Repeats i key → B.layout.Anchored B.outline i key
  works : ∀ w ∈ t.watches, ∃ i e, B.outline[i]? = some e ∧ B.Works i e w
  inPlace : B.root.InPlace
  leaves : B.root.WritesLeaves

namespace Draws

variable {B : Blueprint} {t : Template} {n m : Nat}

/-- No child component stands for the root. -/
theorem keyOf_top (h : B.Draws t) : B.layout.keyOf 0 = none := by
  have root : B.outline[0]? = some ⟨[], [], B.root, none⟩ := Outline.getElem?_entries_zero ..
  refine Option.not_isSome_iff_eq_none.mp ?_
  rw [h.regular.isSome_keyOf root, h.top]
  exact Bool.false_ne_true

/-- No child component stands for a node that has child entries. -/
theorem keyOf_parent (h : B.Draws t) (hn : n ∈ B.outline.childrenOf m) :
    B.layout.keyOf m = none := by
  obtain ⟨e, he, hp⟩ := Outline.mem_childrenOf.mp hn
  obtain ⟨-, above, ha, hc⟩ := h.sound.parent he hp
  refine Option.not_isSome_iff_eq_none.mp ?_
  rw [h.regular.isSome_keyOf ha, hc]
  exact Bool.false_ne_true

/-- What stands for a node that a slot keeps is a nested child. -/
theorem child_of_owns (h : B.Draws t) {slot : Nat} (owns : B.layout.Owns slot n) {key : StashIndex}
    (hk : B.layout.keyOf n = some key) : ∃ slot source startsDetached,
      B.layout.stash[key]? = some (.child slot source startsDetached) := by
  rcases h.regular.keyOf_eq_some_iff.mp hk with ⟨slot, source, b, plans, -⟩ | repeats
  · exact ⟨slot, source, b, Layout.plans_child.mp plans⟩
  · obtain ⟨-, e, he, repeated, -⟩ := h.regular.repeats repeats
    obtain ⟨e', he', plain⟩ := h.regular.owners_plain n (List.mem_of_getElem? owns)
    rw [Option.some.inj (he'.symm.trans he), repeated] at plain
    cases plain

end Draws

/-- What an instance puts among the children of an element for a child entry: the roots of what the
entry of the stash shows, or else the node of the entry itself. -/
def cell (B : Blueprint) (node : Nat → Option NodeId) (root : InstanceId → NodeId)
    (stash : List StashItem) (m : Nat) : List NodeId :=
  match (B.layout.keyOf m).bind (stash[·]?) with
  | some item => item.shown.map root
  | none => (node m).toList

/-- An entry of an element that has children, none of which leaves it. -/
def Regular (B : Blueprint) (n : Nat) : Prop :=
  ∃ e, B.outline[n]? = some e ∧ e.node.head.isPlain = true ∧ e.node.children ≠ [] ∧
    ∀ child ∈ e.node.children, child.head.canDetach = false

variable {B : Blueprint} {node node' : Nat → Option NodeId} {root root' : InstanceId → NodeId}
  {stash : List StashItem} {n m : Nat} {key : StashIndex}

/-- A repeated entry has the roots of the rows that are shown in its place. -/
theorem cell_of_key {item : StashItem} (hk : B.layout.keyOf m = some key)
    (hs : stash[key]? = some item) : B.cell node root stash m = item.shown.map root := by
  rw [cell, hk, Option.bind_some, hs]

/-- An entry without a component has its own node in its place. -/
theorem cell_of_none (hk : B.layout.keyOf m = none) :
    B.cell node root stash m = (node m).toList := by rw [cell, hk, Option.bind_none]

/-- An entry whose component is not there yet has its own node in its place. -/
theorem cell_of_absent (hk : B.layout.keyOf m = some key) (hs : stash[key]? = none) :
    B.cell node root stash m = (node m).toList := by rw [cell, hk, Option.bind_some, hs]

/-- A cell shows the same when the other entries of the stash change. -/
theorem cell_congr {later : List StashItem} (hn : node' m = node m)
    (hs : ∀ key, B.layout.keyOf m = some key → later[key]? = stash[key]?)
    (hr : ∀ key item, B.layout.keyOf m = some key → stash[key]? = some item →
      ∀ i ∈ item.shown, root' i = root i) :
    B.cell node' root' later m = B.cell node root stash m := by
  unfold cell
  cases hk : B.layout.keyOf m with
  | none => rw [Option.bind_none, Option.bind_none, hn]
  | some key =>
    rw [Option.bind_some, Option.bind_some, hs key hk]
    cases hi : stash[key]? with
    | none => exact congrArg Option.toList hn
    | some item => exact List.map_congr_left (hr key item hk hi)

/-- Of the roots only those of what the stash holds matter. -/
theorem cell_roots (even : ∀ item ∈ stash, item.Even)
    (roots : ∀ k ∈ stash.flatMap StashItem.held, root' k = root k) :
    B.cell node root' stash = B.cell node root stash := by
  funext m
  refine cell_congr rfl (fun _ _ => rfl) fun key item _ hs k hk => roots k ?_
  exact StashItem.mem_held hs (StashItem.shown_subset (even item (List.mem_of_getElem? hs)) hk)

/-- What stands for an entry changes with its entry of the stash only. -/
theorem cell_set {item : StashItem} (hk : B.layout.keyOf m ≠ some key) :
    B.cell node root (stash.set key item) m = B.cell node root stash m := by
  refine cell_congr rfl (fun k hkm => List.getElem?_set_ne ?_) fun _ _ _ _ _ _ => rfl
  rintro rfl
  exact hk hkm

/-- With another entry in the stash the place shows what that one does. -/
theorem cell_set_self {item item' : StashItem} (hk : B.layout.keyOf m = some key)
    (hs : stash[key]? = some item) :
    B.cell node root (stash.set key item') m = item'.shown.map root :=
  cell_of_key hk (List.getElem?_set_self (List.getElem?_eq_some_iff.mp hs).1)

/-- A node is a child of one node only. -/
theorem childrenOf_unique {n' : Nat} (hn : m ∈ B.outline.childrenOf n)
    (hn' : m ∈ B.outline.childrenOf n') : n = n' := by
  obtain ⟨e, he, hp⟩ := Outline.mem_childrenOf.mp hn
  obtain ⟨e', he', hp'⟩ := Outline.mem_childrenOf.mp hn'
  obtain rfl := Option.some.inj (he.symm.trans he')
  exact Option.some.inj (hp.symm.trans hp')

/-- The children of an entry are those before one of them, that one, and those after it. -/
theorem childrenOf_split (o : Outline) (hm : m ∈ o.childrenOf n) : o.childrenOf n =
    (o.childrenOf n).filter (· < m) ++ m :: (o.childrenOf n).filter (m < ·) := by
  have sorted : (o.childrenOf n).Pairwise (· < ·) :=
    List.pairwise_lt_range.sublist List.filter_sublist
  obtain ⟨front, back, he⟩ := List.append_of_mem hm
  rw [he, List.pairwise_append, List.pairwise_cons] at sorted
  have before {x : Nat} (hx : x ∈ front) : x < m := sorted.2.2 x hx m (List.mem_cons_self ..)
  have after {x : Nat} (hx : x ∈ back) : m < x := sorted.2.1.1 x hx
  have first : (front ++ m :: back).filter (· < m) = front := by
    rw [List.filter_append, List.filter_eq_self.mpr fun x hx => decide_eq_true (before hx),
      List.filter_eq_nil_iff.mpr, List.append_nil]
    intro x hx
    rw [decide_eq_true_eq]
    rcases List.mem_cons.mp hx with rfl | hx
    · exact Nat.lt_irrefl _
    · exact Nat.lt_asymm (after hx)
  have last : (front ++ m :: back).filter (m < ·) = back := by
    rw [List.filter_append, List.filter_eq_nil_iff.mpr, List.nil_append, List.filter_cons_of_neg,
      List.filter_eq_self.mpr fun x hx => decide_eq_true (after hx)]
    · simp
    · intro x hx
      rw [decide_eq_true_eq]
      exact Nat.lt_asymm (before hx)
  rw [he, first, last]

/-- A regular entry has children. -/
theorem Regular.childrenOf_ne_nil (h : B.Regular n) : B.outline.childrenOf n ≠ [] := by
  obtain ⟨e, he, -, some, -⟩ := h
  rw [outline, Outline.childrenOf_eq he]
  cases hc : e.node.children with
  | nil => exact absurd hc some
  | cons child rest => exact List.cons_ne_nil _ _

end Blueprint

/-! ## Compiled templates -/

/-- A compiled template was read off from its component and the layout of that. -/
theorem Blueprint.draws_of_compile {options : CompileSettings} {name : String} {root : Node}
    {t : Template} (h : Template.compile options name root = .ok t) (inPlace : root.InPlace)
    (leaves : root.WritesLeaves) :
    (⟨root, Lay.finished options (.ofRoot root)⟩ : Blueprint).Draws t := by
  have laid := Template.laid_of_compile h
  have watches := Template.watches_of_compile h
  obtain ⟨accepts, -⟩ := Template.accepts_of_compile h
  obtain ⟨-, grows, anchored⟩ := Lay.finished_anchored accepts.sound options
  have covers := Lay.walked_covers accepts.sound options
  refine { laid with anchored, works := fun w hw => ?_, inPlace, leaves }
  rw [watches] at hw
  obtain ⟨k, hk⟩ := List.getElem?_of_mem hw
  rw [Watch.withSkips_eq, Option.map_eq_some_iff] at hk
  obtain ⟨v, hv, rfl⟩ := hk
  obtain ⟨i, -, e, he, watched⟩ := covers.watches v (List.mem_of_getElem? hv)
  refine ⟨i, e, he, watched.slot.grows grows, fun s hs p hp => ?_,
    fun c hc f hf => (watched.effects c hc f hf).grows grows⟩
  obtain ⟨s', hs', rfl⟩ := Option.map_eq_some_iff.mp hs
  have shown := watched.visibility
  rw [hs', Option.isSome_some] at shown
  obtain ⟨visibility, hv⟩ := Option.isSome_iff_exists.mp shown.symm
  exact ((watched.shield s' hs' visibility hv).detach p hp).grows grows

/-- The node that a repeated node is a child of has a slot. -/
theorem Lay.exists_container {o : Outline} (ho : o.Sound) (options : CompileSettings) {m n : Nat}
    {e : OutlineEntry} (he : o[m]? = some e) (repeated : e.node.head.isRepeated = true)
    (parent : e.parent = some n) : ∃ slot, (finished options o).Owns slot n := by
  obtain ⟨-, grows, -⟩ := finished_anchored ho options
  have works : e.node.head.hasWork = true := by
    simp [NodeHead.hasWork, NodeHead.isComponent_of_isRepeated repeated]
  -- An update has something to do at a repeated node, so there is a watch for it.
  have visited : (e, m) ∈ (o.zipIdx.take o.length).filter (·.1.node.head.hasWork) := by
    rw [List.take_of_length_le (by simp), List.mem_filter]
    exact ⟨List.mem_zipIdx_iff_getElem?.mpr he, works⟩
  obtain ⟨same, carries⟩ := List.forall₂_iff_get.mp (walked_told ho options).watches
  obtain ⟨⟨k, hk⟩, he⟩ := List.mem_iff_get.mp visited
  have owns := (carries k hk (same ▸ hk)).watches.slot
  rw [he, Layout.workplace, if_pos repeated, parent] at owns
  exact ⟨_, owns.grows grows⟩

/-- The empty template was read off from a blueprint of a text. -/
theorem Blueprint.draws_default :
    (⟨⟨{ kind := .text "" }, []⟩, {}⟩ : Blueprint).Draws (default : Definition).template := by
  have silent {e : OutlineEntry} (he : e ∈ Outline.ofRoot ⟨{ kind := .text "" }, []⟩) :
      e.node.head.watches = [] := by
    rw [List.mem_singleton.mp he]
  refine
    { Template.laid_default with
      anchored := nofun, works := nofun, inPlace := fun e he d hd => ?_
      leaves := fun e he d hd => ?_ }
  · rw [silent he] at hd
    cases hd
  · rw [silent he] at hd
    cases hd

/-! ## Libraries -/

/-- The templates of a library were read off from blueprints. -/
theorem Library.exists_blueprints {declarations : List Declaration} {library : Traced Library}
    (h : define declarations = .ok library)
    (roots : ∀ d ∈ declarations, d.Roots fun node => node.InPlace ∧ node.WritesLeaves) :
    ∃ plan : DefinitionId → Blueprint, ∀ (id : DefinitionId) (d : Definition),
      library.value[id]? = some d → (plan id).Draws d.template := by
  have all (id : DefinitionId) : ∃ B : Blueprint, ∀ d : Definition,
      library.value[id]? = some d → B.Draws d.template := by
    cases hd : library.value[id]? with
    | none => exact ⟨default, fun d he => by cases he⟩
    | some d =>
      obtain ⟨B, hB⟩ := templates_of_define (P := fun t => ∃ B : Blueprint, B.Draws t)
        ⟨_, Blueprint.draws_default⟩
        (fun hc good => ⟨_, Blueprint.draws_of_compile hc good.1 good.2⟩) h roots hd
      exact ⟨B, fun d' he => Option.some.inj he ▸ hB⟩
  exact ⟨fun id => (all id).choose, fun id => (all id).choose_spec⟩

end ComponentView
