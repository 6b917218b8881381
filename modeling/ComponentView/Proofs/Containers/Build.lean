import ComponentView.Proofs.Containers.Retire
import Mathlib.Data.List.Basic
import Mathlib.Data.List.Pairwise

/-! # Building in a tidy world

A new copy has a node for every child component that is not repeated. When such a component is built,
its root takes the place of the node, or the node only goes (`Blueprint.Rises`). So an element of the
copy shows at any time the roots of the nested children that are there and the nodes of those that
are not. A new instance stands in no host, and shows its stash (`Run.build_tidy`). -/

namespace ComponentView

/-- A node that a way leads to stands in the node of the parent of its entry. -/
theorem Document.Drawn.parent_of_descend {L : Type} {d : Document L} {root : Node} {r x : NodeId}
    {f : Nat → Option NodeId} (h : d.Drawn (Outline.ofRoot root) f) (hr : f 0 = some r)
    (ho : (Outline.ofRoot root).Sound) {m : Nat} {e : OutlineEntry}
    (he : (Outline.ofRoot root)[m]? = some e) (repeated : e.node.head.isRepeated = false)
    (hm : m ≠ 0) (hx : d.descend r e.place = some x) :
    ∃ n p, m ∈ (Outline.ofRoot root).childrenOf n ∧ f n = some p ∧ x ∈ d.children p := by
  rcases Outline.parent_ofRoot he with ⟨rfl, -⟩ | ⟨n, -, a, position, ha, hp, child⟩
  · exact absurd rfl hm
  · have single := (single_parent ho he hp ha).2
    rw [child.place, repeated, if_neg Bool.false_ne_true, descend_append,
      Option.bind_eq_some_iff] at hx
    obtain ⟨p, hp', hx⟩ := hx
    exact ⟨n, p, Outline.mem_childrenOf.mpr ⟨e, he, hp⟩, h.of_descend hr ho ha single hp',
      List.mem_of_getElem? hx⟩

/-! ## A copy in the making -/

namespace Blueprint

/-- Some entries of the stash are made; the others are shown by the nodes of the copy, `f`. The nodes
of slots that are still to be replaced stand in the copy, and are no roots of instances that are
there. -/
structure Rises (B : Blueprint) (node f : Nat → Option NodeId) (root : InstanceId → NodeId)
    (children : NodeId → List NodeId) (elements : List NodeId) (made : List StashItem) : Prop where
  own : ∀ m, node m = if (B.layout.keyOf m).isSome then none else f m
  slots : ∀ {slot n : Nat}, B.layout.Owns slot n →
    ∃ x, elements[slot]? = some x ∧ B.cell f root made n = [x]
  contents : ∀ {n : Nat} {p : NodeId}, B.Regular n → node n = some p →
    children p = (B.outline.childrenOf n).flatMap (B.cell f root made)
  seats : ∀ {key m n n' : Nat} {item : StashItem} {i : InstanceId} {q : NodeId},
    made[key]? = some item → B.layout.Seats key m → m ∈ B.outline.childrenOf n → i ∈ item.held →
      node n' = some q → root i ∈ children q → n' = n
  waiting : ∀ {slot m key : Nat} {x : NodeId}, B.layout.Owns slot m →
    B.layout.keyOf m = some key → made.length ≤ key → elements[slot]? = some x →
      ∃ n p, m ∈ B.outline.childrenOf n ∧ node n = some p ∧ x ∈ children p ∧
        ∀ i ∈ made.flatMap StashItem.held, root i ≠ x
  inj : ∀ {m m' : Nat} {x : NodeId}, f m = some x → f m' = some x → m = m'
  bare : ∀ {n m : Nat} {p : NodeId} {e : OutlineEntry}, B.Regular n → node n = some p →
    m ∈ B.outline.childrenOf n → B.outline[m]? = some e → e.node.head.isRepeated = true →
      f m = none
  whole : ∀ {n m : Nat} {p : NodeId}, B.Regular n → node n = some p →
    m ∈ B.outline.childrenOf n → B.layout.keyOf m = none → (node m).isSome
  even : ∀ item ∈ made, item.Even
  plans : ∀ {key : Nat} {item : StashItem} {plan : StashPlan}, made[key]? = some item →
    B.layout.stash[key]? = some plan → item.kind = plan.kind ∧ item.anchors = plan.anchors

namespace Rises

variable {B : Blueprint} {t : Template} {node f : Nat → Option NodeId}
  {root root' : InstanceId → NodeId} {children children' : NodeId → List NodeId}
  {elements : List NodeId} {made : List StashItem} {item : StashItem} {plan : StashPlan}
  {m : Nat}

/-- Only the own nodes matter and the roots of what is held. -/
theorem congr (h : B.Rises node f root children elements made)
    (same : ∀ {n p}, node n = some p → children' p = children p)
    (roots : ∀ k ∈ made.flatMap StashItem.held, root' k = root k) :
    B.Rises node f root' children' elements made := by
  have held {key : StashIndex} {item : StashItem} (hs : made[key]? = some item) {k : InstanceId}
      (hk : k ∈ item.held) : root' k = root k :=
    roots k (StashItem.mem_held hs hk)
  have cell : B.cell f root' made = B.cell f root made := cell_roots h.even roots
  refine
    { own := h.own, slots := fun owns => ?_, contents := fun regular hp => ?_
      seats := fun hs hm hn hk hq hc => ?_, waiting := fun owns hk later hx => ?_
      inj := h.inj, bare := h.bare, whole := h.whole, even := h.even, plans := h.plans }
  · rw [cell]
    exact h.slots owns
  · rw [same hp, h.contents regular hp, cell]
  · rw [same hq, held hs hk] at hc
    exact h.seats hs hm hn hk hq hc
  · obtain ⟨n, p, hn, hp, hc, apart⟩ := h.waiting owns hk later hx
    exact ⟨n, p, hn, hp, same hp ▸ hc, fun i hi => roots i hi ▸ apart i hi⟩

/-- A fresh copy shows its own nodes. -/
theorem start {d₀ d : Document Listener} {r : NodeId} (draws : B.Draws t)
    (copy : Document.CopyOf B.root d₀ d r f)
    (own : ∀ m, node m = if (B.layout.keyOf m).isSome then none else f m)
    (bound : Build.bindFrom d r 0 t.slots = .ok elements) :
    B.Rises node f root d.children elements [] := by
  have drawn := copy.drawn
  have mark {n : Nat} {p : NodeId} (hp : node n = some p) : f n = some p := by
    rw [own] at hp
    split at hp
    · cases hp
    · exact hp
  have cell (m : Nat) : B.cell f root [] m = (f m).toList := by
    cases hk : B.layout.keyOf m with
    | none => exact cell_of_none hk
    | some key => exact cell_of_absent hk rfl
  have way {slot m : Nat} {x : NodeId} {e : OutlineEntry} (owns : B.layout.Owns slot m)
      (he : B.outline[m]? = some e) (hx : elements[slot]? = some x) : d.descend r e.place = some x :=
    Build.descend_of_bindFrom draws.toLaid bound owns he hx
  have bound := Build.bound_of_bindFrom draws.toLaid copy bound
  refine
    { own := own, slots := fun owns => ?_, contents := fun regular hp => ?_
      seats := nofun, waiting := fun {slot m _ x} owns hk _ hx => ?_, inj := copy.adds.inj
      bare := fun regular hp hm he repeated => ?_, whole := fun regular hp hm hk => ?_
      even := nofun, plans := nofun }
  · obtain ⟨x, hx, hf⟩ := bound.slot owns
    exact ⟨x, hx, by rw [cell, hf]; rfl⟩
  · obtain ⟨e, he, plain, -⟩ := regular
    rw [drawn.children he (mark hp) plain, List.filterMap_eq_flatMap_toList]
    exact List.flatMap_congr fun m _ => (cell m).symm
  · -- The node of a nested child has a parent in the copy.
    obtain ⟨y, hy, hf⟩ := bound.slot owns
    obtain rfl := Option.some.inj (hx.symm.trans hy)
    obtain ⟨e, he, plain⟩ := draws.regular.owners_plain m (List.mem_of_getElem? owns)
    obtain ⟨n, p, hm, hp, hc⟩ := drawn.parent_of_descend copy.top draws.sound he plain
      (fun he => by rw [he, draws.keyOf_top] at hk; cases hk) (way owns he hx)
    refine ⟨n, p, hm, ?_, hc, nofun⟩
    rw [own, draws.keyOf_parent hm]
    exact hp
  · obtain ⟨e, he', plain, -⟩ := regular
    obtain ⟨e', he₂, hp'⟩ := Outline.mem_childrenOf.mp hm
    obtain rfl := Option.some.inj (he₂.symm.trans he)
    have := drawn.whole he' (mark hp) plain he hp'
    rw [repeated] at this
    exact Option.not_isSome_iff_eq_none.mp (by simp [this])
  · obtain ⟨e, he, plain, -⟩ := regular
    obtain ⟨e', he', hp'⟩ := Outline.mem_childrenOf.mp hm
    have component : e'.node.head.isComponent = false := by
      rw [← draws.regular.isSome_keyOf he', hk]
      rfl
    rw [own, hk, if_neg (by simp), drawn.whole he (mark hp) plain he' hp',
      NodeHead.isRepeated_of_not_isComponent component]
    rfl

/-- What stands for the next entry of the stash is not there yet. -/
theorem cell_next (hk : B.layout.keyOf m = some made.length) :
    B.cell f root made m = (f m).toList :=
  cell_of_absent hk (List.getElem?_eq_none (Nat.le_refl _))

/-- One more entry changes only what stands for it. -/
theorem cell_append (hk : B.layout.keyOf m ≠ some made.length) :
    B.cell f root (made ++ [item]) m = B.cell f root made m := by
  refine cell_congr rfl (fun key hkey => ?_) fun _ _ _ _ _ _ => rfl
  have hne : key ≠ made.length := fun he => hk (he ▸ hkey)
  rcases Nat.lt_or_gt_of_ne hne with hlt | hlt
  · exact List.getElem?_append_left hlt
  · rw [List.getElem?_eq_none (Nat.le_of_lt hlt), List.getElem?_eq_none]
    rw [List.length_append]
    exact hlt

/-- An entry of the longer stash was there, or is the new one. -/
theorem cases_append {key : StashIndex} {other : StashItem}
    (hk : (made ++ [item])[key]? = some other) :
    made[key]? = some other ∨ key = made.length ∧ other = item := by
  rw [List.getElem?_append] at hk
  split at hk
  · exact Or.inl hk
  · next hle =>
    obtain ⟨hlt, rfl⟩ := List.getElem?_eq_some_iff.mp hk
    exact Or.inr ⟨Nat.le_antisymm (Nat.sub_eq_zero_iff_le.mp (Nat.lt_one_iff.mp hlt))
      (Nat.not_lt.mp hle), by simp⟩

/-- The stash is even with one more even entry. -/
theorem even_append (h : B.Rises node f root children elements made) (even : item.Even) :
    ∀ other ∈ made ++ [item], other.Even := by
  intro other hm
  rcases List.mem_append.mp hm with hm | hm
  · exact h.even other hm
  · exact List.mem_singleton.mp hm ▸ even

/-- The stash follows the plans with one more entry that does. -/
theorem plans_append (h : B.Rises node f root children elements made)
    (hp : B.layout.stash[made.length]? = some plan)
    (fits : item.kind = plan.kind ∧ item.anchors = plan.anchors) {key : StashIndex}
    {other : StashItem} {otherPlan : StashPlan} (hk : (made ++ [item])[key]? = some other)
    (hplan : B.layout.stash[key]? = some otherPlan) :
    other.kind = otherPlan.kind ∧ other.anchors = otherPlan.anchors := by
  rcases cases_append hk with hk | ⟨rfl, rfl⟩
  · exact h.plans hk hplan
  · exact Option.some.inj (hp.symm.trans hplan) ▸ fits

/-- When all entries are made the instance shows its stash. -/
theorem finish (h : B.Rises node f root children elements made)
    (all : made.length = B.layout.stash.length) (draws : B.Draws t) :
    B.Shows node root children elements made := by
  have cell : B.cell node root made = B.cell f root made := by
    funext m
    cases hk : B.layout.keyOf m with
    | none =>
      rw [cell_of_none hk, cell_of_none hk, h.own, hk]
      rfl
    | some key =>
      have lt : key < made.length := by
        have seats := draws.regular.keyOf_eq_some_iff.mp hk
        rw [all]
        rcases seats with ⟨slot, source, b, plans, -⟩ | repeats
        · exact Layout.lt_of_plans plans
        · obtain ⟨-, -, -, -, p, plans, -⟩ := draws.regular.repeats repeats
          exact Layout.lt_of_plans plans
      have hs := List.getElem?_eq_getElem lt
      rw [cell_of_key hk hs, cell_of_key hk hs]
  exact
    { slots := by rw [cell]; exact h.slots
      contents := by rw [cell]; exact h.contents
      whole := h.whole, seats := h.seats, even := h.even, plans := h.plans
      full := fun lt => ⟨_, List.getElem?_eq_getElem (all ▸ lt)⟩ }

/-- An entry that holds nothing is made. -/
theorem silent (h : B.Rises node f root children elements made) (draws : B.Draws t)
    (hp : B.layout.stash[made.length]? = some plan) (kind : item.kind = plan.kind)
    (anchors : item.anchors = plan.anchors) (child : item.kind ≠ .child) (even : item.Even)
    (held : item.held = []) : B.Rises node f root children elements (made ++ [item]) := by
  have shown : item.shown = [] := List.eq_nil_of_subset_nil (held ▸ StashItem.shown_subset even)
  have holds : (made ++ [item]).flatMap StashItem.held = made.flatMap StashItem.held := by
    rw [List.flatMap_append, List.flatMap_singleton, held, List.append_nil]
  -- The entry is a tracker, or stands for a repeated node.
  have repeats {m : Nat} (hk : B.layout.keyOf m = some made.length) :
      B.layout.Repeats m made.length := by
    refine (draws.regular.keyOf_eq_some_iff.mp hk).resolve_left ?_
    rintro ⟨slot, source, b, plans, -⟩
    obtain rfl := Option.some.inj ((Layout.plans_child.mp plans).symm.trans hp)
    exact child kind
  refine
    { own := h.own, slots := fun {slot n} owns => ?_, contents := fun {n p} regular hp => ?_
      seats := fun hs hm hn hi hq hc => ?_, waiting := fun owns hk later hx => ?_, inj := h.inj
      bare := h.bare, whole := h.whole, even := h.even_append even
      plans := h.plans_append hp ⟨kind, anchors⟩ }
  · rw [cell_append fun hk => ?_]
    · exact h.slots owns
    · obtain ⟨-, e, he, repeated, -⟩ := draws.regular.repeats (repeats hk)
      obtain ⟨e', he', plain⟩ := draws.regular.owners_plain n (List.mem_of_getElem? owns)
      rw [Option.some.inj (he'.symm.trans he), repeated] at plain
      cases plain
  · rw [h.contents regular hp]
    refine List.flatMap_congr fun m hm => ?_
    by_cases hk : B.layout.keyOf m = some made.length
    · obtain ⟨-, e, he, repeated, -⟩ := draws.regular.repeats (repeats hk)
      rw [cell_next hk, h.bare regular hp hm he repeated,
        cell_of_key hk (List.getElem?_concat_length ..), shown]
      rfl
    · exact (cell_append hk).symm
  · rcases cases_append hs with hs | ⟨rfl, rfl⟩
    · exact h.seats hs hm hn hi hq hc
    · rw [held] at hi
      cases hi
  · rw [holds]
    rw [List.length_append] at later
    exact h.waiting owns hk (Nat.le_of_succ_le later) hx

/-- While an entry is not made the node in its slot stands for it. -/
theorem mark_of_waiting (h : B.Rises node f root children elements made) {slot key : Nat}
    {x : NodeId} (owns : B.layout.Owns slot m) (hk : B.layout.keyOf m = some key)
    (later : made.length ≤ key) (hx : elements[slot]? = some x) : f m = some x := by
  obtain ⟨y, hy, hc⟩ := h.slots owns
  obtain rfl := Option.some.inj (hy.symm.trans hx)
  rw [cell_of_absent hk (List.getElem?_eq_none later)] at hc
  exact Option.toList_eq_singleton_iff.mp hc

section Child

variable {slot n : Nat} {source : ChildSource} {startsDetached : Bool} {x p : NodeId}
  {i : InstanceId} (draws : B.Draws t)
  (hplan : B.layout.stash[made.length]? = some (.child slot source startsDetached))
  (owns : B.layout.Owns slot m)

include draws owns in
/-- The child has no slot but its own. -/
theorem slot_child {slot' : Nat} (owns' : B.layout.Owns slot' m) : slot' = slot :=
  (List.getElem?_inj (List.getElem?_eq_some_iff.mp owns').1 draws.regular.owners_nodup).mp
    (owns'.trans owns.symm)

include draws hplan owns

/-- The next entry of the stash stands for the entry that owns its slot, and for nothing else. -/
theorem keyOf_child {m' : Nat} : B.layout.keyOf m' = some made.length ↔ m' = m := by
  have seats : B.layout.Seats made.length m :=
    Or.inl ⟨slot, source, startsDetached, Layout.plans_child.mpr hplan, owns⟩
  refine ⟨fun hk => ?_, fun he => he ▸ draws.regular.keyOf_eq_some_iff.mpr seats⟩
  exact draws.regular.eq_of_rendered (draws.regular.keyOf_eq_some_iff.mp hk) seats

/-- No child of an element of which no child leaves it starts out of it. -/
theorem stays_child (regular : B.Regular n) (hm : m ∈ B.outline.childrenOf n) :
    startsDetached = false := by
  obtain ⟨m', -, e, owns', he, -, rfl⟩ := draws.regular.child (Layout.plans_child.mpr hplan)
  obtain rfl : m = m' := Option.some.inj (owns.symm.trans owns')
  obtain ⟨a, ha, -, -, plain⟩ := regular
  obtain ⟨e', he', parent⟩ := Outline.mem_childrenOf.mp hm
  obtain rfl := Option.some.inj (he'.symm.trans he)
  obtain ⟨position, child, -⟩ := Outline.exists_child ha he parent
  exact plain _ (List.mem_of_getElem? child.node)

variable (h : B.Rises node f root children elements made)
  (roots : ∀ k ∈ made.flatMap StashItem.held, root' k = root k)

include h roots

/-- Once it is made its root stands for it, and for the other entries what stood for them before. -/
theorem cell_child (m' : Nat) : B.cell f root' (made ++ [.child i]) m' =
    if m' = m then [root' i] else B.cell f root made m' := by
  split
  · next he =>
    exact cell_of_key ((keyOf_child draws hplan owns).mpr he) (List.getElem?_concat_length ..)
  · next hne =>
    rw [cell_append fun hk => hne ((keyOf_child draws hplan owns).mp hk), cell_roots h.even roots]

/-- In an element its root takes the place of the node. -/
theorem contents_child (hx : elements[slot]? = some x) (hm : m ∈ B.outline.childrenOf n)
    (hp : node n = some p) (regular : B.Regular n) (nodup : (children p).Nodup) :
    (children p).map (fun c => if c = x then root' i else c) =
      (B.outline.childrenOf n).flatMap (B.cell f root' (made ++ [.child i])) := by
  have own : B.cell f root made m = [x] := by
    have hk := (keyOf_child draws hplan owns).mpr rfl
    rw [cell_next hk, h.mark_of_waiting owns hk (Nat.le_refl _) hx]
    rfl
  rw [h.contents regular hp] at nodup ⊢
  rw [List.map_flatMap]
  refine List.flatMap_congr fun m' hm' => ?_
  rw [cell_child draws hplan owns h roots]
  split
  · next he => rw [he, own, List.map_singleton, if_pos rfl]
  · next hne =>
    -- The node stands for no other entry, for no node is twice among the children.
    refine (List.map_congr_left fun c hc => if_neg ?_).trans (List.map_id _)
    rintro rfl
    have : Std.Symm (Function.onFun List.Disjoint (B.cell f root made)) :=
      ⟨fun _ _ hd c hc hc' => hd hc' hc⟩
    refine (List.nodup_flatMap.mp nodup).2.forall hm' hm hne hc ?_
    rw [own]
    exact List.mem_singleton_self c

/-- A nested child is made: its root takes the place of the node that stands for it, or the node only
goes. -/
theorem child (hx : elements[slot]? = some x) (hm : m ∈ B.outline.childrenOf n)
    (hp : node n = some p) (nodup : (children p).Nodup)
    (nodes : ∀ {n n' q}, node n = some q → node n' = some q → n = n')
    (apart : ∀ k ∈ made.flatMap StashItem.held, root k ≠ root' i)
    (adrift : ∀ {n q}, node n = some q → root' i ∉ children q)
    (placed : ∀ {n q}, node n = some q → children' q = if q = p then
        if startsDetached then (children q).filter (· ≠ x)
        else (children q).map fun c => if c = x then root' i else c
      else children q) :
    B.Rises node f root' children' (elements.set slot (root' i)) (made ++ [.child i]) := by
  have cell (m' : Nat) := cell_child draws hplan owns h roots (i := i) m'
  -- What stands in the copy afterwards is the root of the child, or stood there before.
  have mem {n' : Nat} {q c : NodeId} (hq : node n' = some q) (hc : c ∈ children' q) :
      c ∈ children q ∨ c = root' i ∧ q = p := by
    rw [placed hq] at hc
    split at hc
    · next he =>
      split at hc
      · exact Or.inl (List.mem_of_mem_filter hc)
      · obtain ⟨c', hc', rfl⟩ := List.mem_map.mp hc
        split
        · exact Or.inr ⟨rfl, he⟩
        · exact Or.inl hc'
    · exact Or.inl hc
  have stays {n' : Nat} {q c : NodeId} (hq : node n' = some q) (hc : c ∈ children q)
      (hne : c ≠ x) : c ∈ children' q := by
    rw [placed hq]
    split
    · split
      · exact List.mem_filter.mpr ⟨hc, by simpa using hne⟩
      · exact List.mem_map.mpr ⟨c, hc, if_neg hne⟩
    · exact hc
  refine
    { own := h.own, slots := fun {slot' n'} owns' => ?_, contents := fun {n' q} reg hq => ?_
      seats := fun {key m' n₁ n₂ item k q} hs hm' hn hi hq hc => ?_
      waiting := fun {slot' m' key y} owns' hk' later hy => ?_, inj := h.inj, bare := h.bare
      whole := h.whole, even := h.even_append trivial, plans := h.plans_append hplan ⟨rfl, rfl⟩ }
  · by_cases hs : slot' = slot
    · subst hs
      obtain rfl : n' = m := Option.some.inj (owns'.symm.trans owns)
      rw [cell, if_pos rfl]
      exact ⟨root' i, List.getElem?_set_self (List.getElem?_eq_some_iff.mp hx).1, rfl⟩
    · rw [List.getElem?_set_ne (Ne.symm hs), cell, if_neg]
      · exact h.slots owns'
      · exact fun he => hs (slot_child draws owns (he ▸ owns'))
  · rw [placed hq]
    split
    · next he =>
      subst he
      obtain rfl := nodes hq hp
      rw [stays_child draws hplan owns reg hm, if_neg Bool.false_ne_true]
      exact contents_child draws hplan owns h roots hx hm hp reg nodup
    · next he =>
      rw [h.contents reg hq]
      refine List.flatMap_congr fun m' hm' => ?_
      rw [cell, if_neg]
      rintro rfl
      obtain rfl := childrenOf_unique hm' hm
      exact he (Option.some.inj (hq.symm.trans hp))
  · rcases cases_append hs with hs | ⟨rfl, rfl⟩
    · rw [roots k (StashItem.mem_held hs hi)] at hc
      rcases mem hq hc with hc | ⟨hc, -⟩
      · exact h.seats hs hm' hn hi hq hc
      · exact absurd hc (apart k (StashItem.mem_held hs hi))
    · obtain rfl := List.mem_singleton.mp hi
      obtain rfl :=
        (keyOf_child draws hplan owns).mp (draws.regular.keyOf_eq_some_iff.mpr hm')
      rcases mem hq hc with hc | ⟨-, rfl⟩
      · exact absurd hc (adrift hq)
      · exact (nodes hq hp).trans (childrenOf_unique hm hn)
  · rw [List.length_append] at later
    have later : made.length < key := later
    have hk := (keyOf_child draws hplan owns).mpr rfl
    have hs : slot' ≠ slot := by
      rintro rfl
      obtain rfl : m' = m := Option.some.inj (owns'.symm.trans owns)
      exact Nat.ne_of_lt later (Option.some.inj (hk.symm.trans hk'))
    rw [List.getElem?_set_ne (Ne.symm hs)] at hy
    obtain ⟨n₀, p₀, hm₀, hp₀, hc₀, apart₀⟩ := h.waiting owns' hk' (Nat.le_of_lt later) hy
    have hne : y ≠ x := by
      rintro rfl
      have mark := h.mark_of_waiting owns hk (Nat.le_refl _) hx
      obtain rfl := h.inj (h.mark_of_waiting owns' hk' (Nat.le_of_lt later) hy) mark
      exact hs (slot_child draws owns owns')
    refine ⟨n₀, p₀, hm₀, hp₀, stays hp₀ hc₀ hne, fun k hk => ?_⟩
    rw [List.flatMap_append, List.mem_append] at hk
    rcases hk with hk | hk
    · exact roots k hk ▸ apart₀ k hk
    · obtain rfl : k = i := by simpa [StashItem.held] using hk
      exact fun he => adrift hp₀ (he ▸ hc₀)

end Child

end Rises

end Blueprint

/-! ## The node that stands for a nested child -/

namespace World.Tidy

variable {L : Reserve} {δ δ' : Deeds} {busy busy' lost lost' hand hand' : List InstanceId}
  {w v : World} {i k : InstanceId} {r p q x : NodeId} {n : Nat}

/-- What stands in no host stands in no copy. -/
theorem unseated (h : w.Tidy L δ busy lost hand) (hk : k ∈ hand) (adrift : w.Adrift L k)
    (q : NodeId) : w.root k ∉ w.document.children q := by
  intro hc
  obtain ⟨b, m, hb, host, -⟩ := h.seat_of_hand hk hc
  exact h.adrift_node adrift b m q host hb hc

/-- A node of a host goes that is no node of a copy. -/
theorem discard (h : w.Tidy L δ busy lost hand) (host : L.host r) (hp : δ.node r n = some p)
    (hx : x ∈ w.document.children p) (free : ¬ δ.Owned x) (still : ¬ L.still p) :
    World.Tidy L δ busy lost hand { w with document := w.document.release x } ∧
      ∀ q, δ.Owned q → (w.document.release x).children q =
        if q = p then (w.document.children q).filter (· ≠ x) else w.document.children q := by
  obtain ⟨valid, children⟩ := h.valid.release h.valid.lapses free fun hc ho =>
    h.valid.owned_parent ho hc
  have placed (q : NodeId) (ho : δ.Owned q) : (w.document.release x).children q =
      if q = p then (w.document.children q).filter (· ≠ x) else w.document.children q := by
    rw [children q ho, if_pos (h.valid.sound.live hx), h.valid.sound.children_without]
    split
    · rfl
    · next hne =>
      refine List.filter_eq_self.mpr fun c hc => ?_
      rw [decide_eq_true_eq]
      rintro rfl
      exact hne (Option.some.inj ((h.valid.sound.linked hc).symm.trans (h.valid.sound.linked hx)))
  refine ⟨h.editIn valid host hp still (fun hq hne => ?_) fun c hc _ => Or.inl ?_, placed⟩
  · rw [placed _ ⟨_, _, hq⟩, if_neg hne]
  · rw [placed p ⟨r, n, hp⟩, if_pos rfl] at hc
    exact List.mem_of_mem_filter hc

/-- The root of an instance in hand takes the place of such a node. -/
theorem supplant (h : w.Tidy L δ busy lost hand) (hk : k ∈ hand) (adrift : w.Adrift L k)
    (host : L.host r) (hp : δ.node r n = some p) (hx : x ∈ w.document.children p)
    (free : ¬ δ.Owned x) (still : ¬ L.still p) (lodges : L.lodges r k)
    (lower : δ.definition (w.root k) < δ.definition r)
    (parent : (δ.outline L.plan r).childrenOf n ≠ []) :
    World.Tidy L δ busy lost hand
        { w with document := (w.document.replace x (w.root k)).release x } ∧
      ∀ q, δ.Owned q → ((w.document.replace x (w.root k)).release x).children q =
        if q = p then (w.document.children q).map fun c => if c = x then w.root k else c
        else w.document.children q := by
  have top := h.node_root (h.inHand k hk)
  have linked := h.valid.sound.linked hx
  have hne : w.root k ≠ x := fun he => free (he ▸ ⟨_, _, top⟩)
  have inserted := h.valid.insertBefore ⟨r, n, w.root k, 0, hp, top, Or.inr ⟨rfl, lower, parent⟩⟩
    (some x)
  have removed := inserted.remove p x
  -- A replacement is a move followed by a removal, and both keep the deeds valid.
  have replaced : (w.document.insertBefore p (w.root k) (some x)).remove p x
      = w.document.replace x (w.root k) := by
    rw [Document.replace, linked]
  obtain ⟨valid, children⟩ := removed.release h.valid.lapses free fun hc ho =>
    removed.owned_parent ho hc
  have before (q : NodeId) (ho : δ.Owned q) :
      ((w.document.insertBefore p (w.root k) (some x)).remove p x).children q =
        if q = p then (w.document.children q).map fun c => if c = x then w.root k else c
        else w.document.children q := by
    have same : (w.document.children q).filter (· ≠ w.root k) = w.document.children q := by
      refine List.filter_eq_self.mpr fun c hc => ?_
      rw [decide_eq_true_eq]
      rintro rfl
      exact h.unseated hk adrift q hc
    rw [inserted.sound.children_remove, h.valid.sound.children_insertBefore (h.valid.live hp), same]
    split
    · next he => rw [Document.filter_placeBefore (he ▸ hx) (h.valid.sound.nodup q) hne]
    · rfl
  have placed (q : NodeId) (ho : δ.Owned q) :
      ((w.document.replace x (w.root k)).release x).children q =
        if q = p then (w.document.children q).map fun c => if c = x then w.root k else c
        else w.document.children q := by
    rw [← replaced, children q ho]
    have absent : x ∉ ((w.document.insertBefore p (w.root k) (some x)).remove p x).children q := by
      rw [before q ho]
      split
      · intro hm
        obtain ⟨c, -, hc⟩ := List.mem_map.mp hm
        split at hc
        · exact hne hc
        · next hc' => exact hc' hc
      · next hq => exact fun hm => hq (Option.some.inj ((h.valid.sound.linked hm).symm.trans linked))
    split
    · rw [removed.sound.children_without, List.filter_eq_self.mpr fun c hc => ?_]
      · exact before q ho
      · rw [decide_eq_true_eq]
        rintro rfl
        exact absent hc
    · exact before q ho
  refine ⟨h.editIn (replaced ▸ valid) host hp still (fun hq hne => ?_) fun c hc _ => ?_, placed⟩
  · rw [placed _ ⟨_, _, hq⟩, if_neg hne]
  · rw [placed p ⟨r, n, hp⟩, if_pos rfl] at hc
    obtain ⟨c', hc', rfl⟩ := List.mem_map.mp hc
    split
    · exact Or.inr ⟨k, hk, rfl, lodges⟩
    · exact Or.inl hc'

/-- No instance comes to have the root of a copy of which none has been made. -/
theorem alone (h : w.Tidy L δ busy lost hand) (alone : ∀ i, δ.alive i → w.root i ≠ r)
    (h' : v.Tidy (L.enter w δ r hand) δ' busy lost' hand') {j : InstanceId} (hj : δ'.alive j) :
    v.root j ≠ r := by
  intro he
  have lt := h.lt_of_busy ((h'.host hj).mp (Or.inr he))
  obtain ⟨alive, -⟩ := h'.same hj lt
  exact alone j alive ((h'.roots j lt).symm.trans he)

/-- The root of a copy of which no instance has been made stands in no copy. -/
theorem untethered (h : w.Tidy L δ busy lost hand) (top : δ.node r 0 = some r)
    (alone : ∀ i, δ.alive i → w.root i ≠ r) (hq : δ.Owned q) : r ∉ w.document.children q := by
  intro hc
  obtain ⟨b, m, hb⟩ := hq
  obtain ⟨k, alive, root, -⟩ := h.seat hc top hb
  exact alone k alive root

/-! ## A fresh copy as a host -/

section Copy

variable {id : DefinitionId} {d : Document Listener} {f : Nat → Option NodeId} {t : Template}
  (h : w.Tidy L δ busy lost hand) (copy : Document.CopyOf (L.plan id).root w.document d r f)

include h copy

/-- The root of a fresh copy is no host. -/
theorem idle_copy : ¬ L.host r := fun host => by
  have top := h.rooted host
  rw [h.valid.node_fresh copy.adds copy.top] at top
  cases top

/-- No instance has the root of a fresh copy. -/
theorem alone_copy (i : InstanceId) (hi : δ.alive i) : w.root i ≠ r := fun he => by
  have top := h.node_root hi
  rw [he, h.valid.node_fresh copy.adds copy.top] at top
  cases top

variable (hw : d.WellFormed) (draws : (L.plan id).Draws t)

include hw draws

/-- A fresh copy is granted and becomes a host. -/
theorem host_copy : World.Tidy
    (L.enter { w with document := d } (δ.grant L.plan r id f) r hand) (δ.grant L.plan r id f)
    busy lost hand { w with document := d } := by
  refine (h.grant copy hw draws).enter ?_ (fun {n q c} hq hc => ?_) (h.alone_copy copy)
  · rw [Deeds.node_grant_self, draws.keyOf_top]
    exact copy.top
  · -- What stands in the copy are nodes of the copy.
    rw [Deeds.node_grant_self] at hq
    split at hq
    · cases hq
    · obtain ⟨m, hm, below⟩ := copy.mem_children hq hc
      intro hc'
      by_cases he : c = r
      · rw [he] at hm
        rw [copy.adds.inj hm copy.top] at below
        exact absurd (Outline.lt_of_mem_childrenOf below).1 (Nat.not_lt_zero n)
      · rw [Deeds.node_grant_of_ne he] at hc'
        exact h.valid.not_owned copy.adds hm ⟨c, 0, hc'⟩

/-- When a copy of which no instance has been made is released, the world is tidy without it. -/
theorem release_copy
    (h' : v.Neat (L.enter { w with document := d } (δ.grant L.plan r id f) r hand) busy lost hand) :
    World.Neat L busy lost hand { v with document := v.document.release r } := by
  obtain ⟨δ', h'⟩ := h'
  have granted := h.grant copy hw draws
  have top := h'.rooted (r := r) (Or.inr rfl)
  have alone {j : InstanceId} (hj : δ'.alive j) : v.root j ≠ r :=
    granted.alone (h.alone_copy copy) h' hj
  exact ⟨_, granted.lapse (h.idle_copy copy) h' top
    (fun _ hq hr _ => h'.untethered top (fun _ hj => alone hj) ⟨_, _, hq⟩ hr)
    (fun j hj he => absurd he (alone hj)) fun _ hj => alone (h'.spared hj).2⟩

end Copy

end World.Tidy

/-! ## Making the stash -/

/-- The copy is a host of which some entries of the stash are made. -/
structure World.Raises (L : Reserve) (id : DefinitionId) (r : NodeId) (f : Nat → Option NodeId)
    (busy lost hand : List InstanceId) (elements : List NodeId) (made : List StashItem)
    (w : World) : Prop where
  neat : w.Neat L busy lost (made.flatMap StashItem.held ++ hand)
  ranks : ∀ item ∈ made, item.Ranks w id
  rises : (L.plan id).Rises (L.deeds.node r) f w.root w.document.children elements made
  only : made.flatMap StashItem.held = made.filterMap StashItem.child?

/-- Nothing has changed in hosts. -/
theorem World.Raises.calm {L : Reserve} {id : DefinitionId} {r : NodeId} {f : Nat → Option NodeId}
    {busy lost hand : List InstanceId} {elements : List NodeId} {made : List StashItem}
    {w later : World} (h : w.Raises L id r f busy lost hand elements made)
    (opens : L.Opens id r hand) (sweeps : World.Sweeps L [] w later) :
    (∀ item ∈ made, item.Ranks later id) ∧ (L.plan id).Rises (L.deeds.node r) f later.root
      later.document.children elements made := by
  obtain ⟨δ, tidy⟩ := h.neat
  refine ⟨fun item hm => (h.ranks item hm).grows sweeps.grown,
    h.rises.congr (fun hq => sweeps.same opens.host hq) fun i hi => ?_⟩
  exact sweeps.roots i (tidy.lt_of_alive (tidy.inHand i (List.mem_append_left _ hi)))

/-- An instance has come that is to be the next entry of the stash. -/
structure World.Receives (L : Reserve) (id : DefinitionId) (r : NodeId) (f : Nat → Option NodeId)
    (busy lost hand : List InstanceId) (elements : List NodeId) (made : List StashItem)
    (k : DefinitionId) (i : InstanceId) (w : World) : Prop where
  neat : w.Neat L busy lost (i :: (made.flatMap StashItem.held ++ hand))
  adrift : w.Adrift L i
  definition : w.definition? i = some k
  ranks : ∀ item ∈ made, item.Ranks w id
  rises : (L.plan id).Rises (L.deeds.node r) f w.root w.document.children elements made
  only : made.flatMap StashItem.held = made.filterMap StashItem.child?

namespace World.Receives

variable {L : Reserve} {δ : Deeds} {id k : DefinitionId} {r p x : NodeId} {f : Nat → Option NodeId}
  {busy lost hand : List InstanceId} {elements : List NodeId} {made : List StashItem}
  {i : InstanceId} {w : World} {m n : Nat}
  (h : w.Receives L id r f busy lost hand elements made k i) (opens : L.Opens id r hand)
  (tidy : w.Tidy L δ busy lost (i :: (made.flatMap StashItem.held ++ hand)))

include h opens tidy

/-- A node of the copy that stands for a child belongs to no copy. -/
theorem not_owned (child : ((L.plan id).layout.keyOf m).isSome) (mark : f m = some x)
    (hp : L.deeds.node r n = some p) (hc : x ∈ w.document.children p)
    (apart : ∀ i ∈ made.flatMap StashItem.held, w.root i ≠ x) : ¬ δ.Owned x := by
  have node := tidy.node_host opens.host
  rintro ⟨c, n', hx⟩
  obtain ⟨b, m', hb, place⟩ := tidy.valid.parent hx hc
  obtain ⟨rfl, rfl⟩ := tidy.valid.inj hb (node ▸ hp)
  rcases place with ⟨-, rfl, -⟩ | ⟨rfl, rfl, -⟩
  · -- The nodes of the host are those of entries that no child component stands for.
    have hx : L.deeds.node b n' = some x := node ▸ hx
    rw [h.rises.own] at hx
    split at hx
    · cases hx
    · next hn' =>
      obtain rfl := h.rises.inj hx mark
      exact hn' child
  · -- No root stands there but those of what is made.
    obtain ⟨j, alive, root, place⟩ := tidy.seat hc hx hb
    rcases place with ⟨-, hj, lodges⟩ | ⟨j', inst, hj', idle, hinst, hroot, -⟩
    · rcases List.mem_cons.mp hj with rfl | hj
      · exact tidy.unseated (List.mem_cons_self ..) h.adrift p (root ▸ hc)
      · rcases List.mem_append.mp hj with hj | hj
        · exact apart j hj root
        · exact opens.takes.mp lodges hj
    · refine idle ((tidy.host hj').mp ?_)
      rw [root_of_get hinst, hroot]
      exact opens.host

/-- When the root of the instance has taken its place, or the node there has gone, the entry is
made. -/
theorem take {t : Template} (draws : (L.plan id).Draws t) {slot : Nat} {source : ChildSource}
    {startsDetached : Bool}
    (hplan : (L.plan id).layout.stash[made.length]? = some (.child slot source startsDetached))
    (hk : k < id) (owns : (L.plan id).layout.Owns slot m) (hx : elements[slot]? = some x)
    (hm : m ∈ (L.plan id).outline.childrenOf n) (hp : L.deeds.node r n = some p)
    {d : Document Listener}
    (tidy' : World.Tidy L δ busy lost (i :: (made.flatMap StashItem.held ++ hand))
      { w with document := d })
    (placed : ∀ q, δ.Owned q → d.children q = if q = p then
        if startsDetached then (w.document.children q).filter (· ≠ x)
        else (w.document.children q).map fun c => if c = x then w.root i else c
      else w.document.children q) :
    World.Raises L id r f busy lost hand (elements.set slot (w.root i)) (made ++ [.child i])
      { w with document := d } := by
  have node := tidy.node_host opens.host
  have mine : i ∈ i :: (made.flatMap StashItem.held ++ hand) := List.mem_cons_self ..
  have nodup := tidy.nodup_hand
  rw [List.nodup_cons, List.mem_append, not_or] at nodup
  refine ⟨⟨δ, tidy'.perm ?_⟩, fun item hm => ?_, ?_, ?_⟩
  · rw [List.flatMap_append]
    simp [StashItem.held]
  · rcases List.mem_append.mp hm with hm | hm
    · exact (h.ranks item hm).grows fun hi => hi
    · obtain rfl := List.mem_singleton.mp hm
      exact ⟨k, hk, h.definition⟩
  · refine Blueprint.Rises.child draws hplan owns h.rises (fun _ _ => rfl) hx hm hp
      (tidy.valid.sound.nodup p) (fun hq hq' => ?_) (fun j hj he => ?_)
      (fun _ => tidy.unseated mine h.adrift _) fun hq => placed _ ⟨r, _, node ▸ hq⟩
    · rw [← node] at hq hq'
      exact (tidy.valid.inj hq hq').2
    · have alive := tidy.inHand j (List.mem_cons_of_mem _ (List.mem_append_left _ hj))
      exact nodup.1.1 (tidy.apart alive (tidy.inHand i mine) he ▸ hj)
  · rw [List.flatMap_append, List.filterMap_append, h.only]
    rfl

end World.Receives

namespace Build

/-- Building brings an instance into hand that stands in no host, and changes nothing else in
hosts. -/
def Tidies (lib : Library) (build : DefinitionId → Run InstanceId) : Prop :=
  ∀ (L : Reserve) (busy lost hand : List InstanceId) (id : DefinitionId), L.library = lib →
    Ends (World.Neat L busy lost hand) (build id)
      (fun i w => w.Neat L busy lost (i :: hand) ∧ w.Adrift L i ∧ w.definition? i = some id)
      (Failing (World.Neat L busy lost hand))

variable {lib : Library} {build : DefinitionId → Run InstanceId} {d : Definition} {L : Reserve}
  {id k : DefinitionId} {r : NodeId} {f : Nat → Option NodeId} {busy lost hand : List InstanceId}
  {elements : List NodeId} {made : List StashItem} {w : World}

/-- Building a child leaves what is made as it is. -/
theorem build_tidy (tidies : Tidies lib build) (hl : L.library = lib) (opens : L.Opens id r hand)
    (h : w.Raises L id r f busy lost hand elements made) :
    Ends (w = ·) (build k) (World.Receives L id r f busy lost hand elements made k)
      (Failing (World.Neat L busy lost (made.flatMap StashItem.held ++ hand))) := by
  obtain ⟨δ, tidy⟩ := h.neat
  refine (tidies (L.freeze w δ fun _ => True) busy lost (made.flatMap StashItem.held ++ hand) k
    hl).mono ?_ (fun i later hl => ?_) fun _ later hs => hs.mono fun hl => (tidy.calm hl).1
  · rintro _ rfl
    exact ⟨δ, tidy.freeze _⟩
  · obtain ⟨neat, adrift, definition⟩ := hl
    obtain ⟨neat, sweeps⟩ := tidy.calm neat
    obtain ⟨ranks, rises⟩ := h.calm opens sweeps
    exact
      { neat, definition, ranks, rises, only := h.only
        adrift := fun b m q hb hq => adrift b m q hb (tidy.node_host hb ▸ hq) }

/-- The root of a child takes the place of the node that stands for it. -/
theorem takePlace_tidy (opens : L.Opens id r hand) {slot : Nat} {source : ChildSource}
    {startsDetached : Bool} {i : InstanceId}
    (hplan : (L.plan id).layout.stash[made.length]? = some (.child slot source startsDetached))
    (hk : k < id) :
    Ends (World.Receives L id r f busy lost hand elements made k i)
      (takePlace slot startsDetached i elements)
      (fun elements' later => later.Raises L id r f busy lost hand elements' (made ++ [.child i]))
      (Failing (World.Neat L busy lost (made.flatMap StashItem.held ++ hand))) := by
  obtain ⟨t, draws⟩ := opens.draws
  refine .pointwise fun w h => ?_
  obtain ⟨δ, tidy⟩ := h.neat
  obtain ⟨m, -, e, owns, -⟩ := draws.regular.child (Layout.plans_child.mpr hplan)
  have hkey := (Blueprint.Rises.keyOf_child draws hplan owns).mpr rfl
  unfold takePlace
  refine (Ends.rootOf_eq fun _ _ => .of_abort).bind fun root => ?_
  rintro _ ⟨rfl, rfl⟩
  cases hx : elements[slot]? with
  | none => exact Failing.of_abort
  | some x =>
    obtain ⟨n, p, hm, hp, hc, apart⟩ := h.rises.waiting owns hkey (Nat.le_refl _) hx
    have mark := h.rises.mark_of_waiting owns hkey (Nat.le_refl _) hx
    have free := h.not_owned opens tidy (by rw [hkey]; rfl) mark hp hc apart
    have hp' : δ.node r n = some p := tidy.node_host opens.host ▸ hp
    have mine : i ∈ i :: (made.flatMap StashItem.held ++ hand) := List.mem_cons_self ..
    have taken (d : Document Listener) := h.take opens tidy draws hplan hk owns hx hm hp (d := d)
    cases startsDetached with
    | true =>
      obtain ⟨tidy', placed⟩ := tidy.discard opens.host hp' hc free (opens.free hp)
      exact taken _ tidy' placed
    | false =>
      have nodup := tidy.nodup_hand
      rw [List.nodup_cons, List.mem_append, not_or] at nodup
      have definition := (tidy.hosts opens.host).2.trans opens.definition
      have lower : δ.definition (w.root i) < δ.definition r := by
        have same := (tidy.definition_root (tidy.inHand i mine)).symm.trans h.definition
        rw [definition, Option.some.inj same]
        exact hk
      have parent : (δ.outline L.plan r).childrenOf n ≠ [] := by
        rw [Deeds.outline, definition]
        exact List.ne_nil_of_mem hm
      obtain ⟨tidy', placed⟩ := tidy.supplant mine h.adrift opens.host hp' hc free (opens.free hp)
        (opens.takes.mpr nodup.1.2) lower parent
      exact taken _ tidy' placed

/-- One more entry of the stash is made. -/
theorem entry_tidy (tidies : Tidies lib build) (hl : L.library = lib) (opens : L.Opens id r hand)
    {plan : StashPlan} (hplan : (L.plan id).layout.stash[made.length]? = some plan)
    (lower : ∀ k ∈ plan.refers d, k < id) :
    Ends (World.Raises L id r f busy lost hand elements made) (entry build d elements plan)
      (fun result => World.Raises L id r f busy lost hand result.2 (made ++ [result.1]))
      (Failing (World.Neat L busy lost (made.flatMap StashItem.held ++ hand))) := by
  obtain ⟨t, draws⟩ := opens.draws
  -- An entry that holds nothing yet.
  have silent {item : StashItem} (kind : item.kind = plan.kind) (anchors : item.anchors = plan.anchors)
      (child : item.kind ≠ .child) (even : item.Even) (held : item.held = [])
      (ranks : ∀ w, item.Ranks w id) (w : World)
      (h : w.Raises L id r f busy lost hand elements made) :
      w.Raises L id r f busy lost hand elements (made ++ [item]) := by
    refine ⟨?_, fun other hm => ?_, h.rises.silent draws hplan kind anchors child even held, ?_⟩
    · rw [List.flatMap_append, List.flatMap_singleton, held, List.append_nil]
      exact h.neat
    · rcases List.mem_append.mp hm with hm | hm
      · exact h.ranks other hm
      · exact List.mem_singleton.mp hm ▸ ranks w
    · rw [List.flatMap_append, List.filterMap_append, h.only, List.flatMap_singleton, held]
      cases item <;> first | rfl | exact absurd rfl child
  cases plan with
  | tracker detached => exact .pure (silent rfl rfl nofun trivial rfl fun _ => trivial)
  | sequential definition share anchors =>
    exact .pure (silent rfl rfl nofun (Nat.le_refl 0) rfl fun _ =>
      ⟨lower _ rfl, List.forall_mem_nil _⟩)
  | keyed definition path share anchors =>
    exact .pure (silent rfl rfl nofun ⟨List.nodup_nil, List.nodup_nil, fun _ => Iff.rfl⟩ rfl
      fun _ => ⟨lower _ rfl, List.forall_mem_nil _, List.nodup_nil⟩)
  | child slot source startsDetached =>
    refine Ends.bind (Q := fun k w => source.refers d = some k ∧
      w.Raises L id r f busy lost hand elements made) ?_ fun k => .assume fun hk => ?_
    · cases source with
      | definition k => exact .pure fun _ h => ⟨rfl, h⟩
      | stub name =>
        simp only [sourceOf]
        split
        · next k hk => exact .pure fun _ h => ⟨hk, h⟩
        · exact fun w h _ _ => h.neat
    refine Ends.pointwise (P := World.Raises L id r f busy lost hand elements made) fun w h => ?_
    exact (build_tidy tidies hl opens h).bind fun i =>
      (takePlace_tidy opens hplan (lower k hk)).bind fun _ => .pure fun _ h => h

/-- If an entry cannot be made, those made so far are destroyed. -/
theorem withdraw_tidy (opens : L.Opens id r hand) {is : List InstanceId} :
    Ends (World.Neat L busy lost (is ++ hand)) (is.forM (Run.retire .destroy))
      (fun _ => World.Neat L busy lost hand) fun stop _ => stop.GivenUp := by
  refine (Ends.forM_hand (P := fun is => World.Neat L busy lost (is ++ hand))
    fun i rest _ => .pointwise fun w h => ?_)
  refine (Run.retire_tidy.destroy L busy lost (rest ++ hand) i).mono ?_ ?_ fun _ _ h => h
  · rintro _ rfl
    refine ⟨h, ?_⟩
    obtain ⟨δ, tidy⟩ := h
    exact tidy.loose opens (List.mem_cons_self ..)
  · rintro _ w ⟨idle, δ, tidy⟩
    exact ⟨δ, tidy.forget idle⟩

/-- A stash is made entry by entry. If an entry cannot be made, nothing is left of those before it, and
the copy goes. -/
theorem entries_tidy (tidies : Tidies lib build) (hl : L.library = lib) (opens : L.Opens id r hand)
    {P : World → Prop}
    (released : ∀ v : World, v.Neat L busy lost hand → P { v with document := v.document.release r })
    {plans : List StashPlan} (split : (L.plan id).layout.stash.drop made.length = plans)
    (lower : ∀ plan ∈ plans, ∀ k ∈ plan.refers d, k < id) :
    Ends (World.Raises L id r f busy lost hand elements made) (entries build d r made elements plans)
      (fun result w => w.Raises L id r f busy lost hand result.2 result.1) (Failing P) := by
  induction plans generalizing made elements with
  | nil => exact .pure fun _ h => h
  | cons plan plans ih =>
    rw [List.forall_mem_cons] at lower
    have hplan : (L.plan id).layout.stash[made.length]? = some plan := by
      rw [← List.head?_drop, split]
      rfl
    have rest : (L.plan id).layout.stash.drop (made.length + 1) = plans := by
      rw [← List.drop_drop, split]
      rfl
    refine .pointwise fun w h => ?_
    have tried : Ends (World.Raises L id r f busy lost hand elements made)
        (entry build d elements plan)
        (fun result => World.Raises L id r f busy lost hand result.2 (made ++ [result.1]))
        (Failing (World.Neat L busy lost (made.flatMap StashItem.held ++ hand))) :=
      entry_tidy tidies hl opens hplan lower.1
    refine Ends.bind (tried.attempt_givenUp.failing.pre ?_) fun result => ?_
    · rintro _ rfl
      exact h
    cases result with
    | ok a =>
      have rest : (L.plan id).layout.stash.drop (made ++ [a.1]).length = plans := by
        simpa using rest
      exact (ih rest lower.2).pre fun w h => h.1 a rfl
    | error fault =>
      refine Ends.pre ?_ fun w hw => hw.2 fault rfl fault rfl
      rw [h.only]
      refine (withdraw_tidy opens).failing.bind fun _ => ?_
      exact Ends.bind (Q := fun _ => P) (.modify released) fun _ => .fail

/-! ## New instances -/

section Register

variable {δ δ' : Deeds} {inst : Instance} {v : World} (h : w.Tidy L δ busy lost hand)
  (idle : ¬ L.host inst.root) (alone : ∀ i, δ.alive i → w.root i ≠ inst.root)
  (definition : δ.definition inst.root = inst.definition)

include h idle alone definition

/-- When the copy of a host shows its stash, it becomes an instance that stands nowhere. -/
theorem push_tidy (h' : v.Tidy (L.enter w δ inst.root hand) δ' busy lost (inst.held ++ hand))
    (sound : inst.Sound L.library v)
    (shows : (L.plan inst.definition).Shows (δ.node inst.root) v.root v.document.children
      inst.elements inst.stash) :
    World.Neat L busy lost (v.instances.size :: hand)
        { v with instances := v.instances.push inst } ∧
      World.Adrift L { v with instances := v.instances.push inst } v.instances.size := by
  have top := h'.rooted (r := inst.root) (Or.inr rfl)
  have alone' {j : InstanceId} (hj : δ'.alive j) : v.root j ≠ inst.root := h.alone alone h' hj
  obtain ⟨orderly, -⟩ := (h'.orderly.perm (List.perm_append_comm_assoc ..)).enter sound fun _ _ => id
  set i : InstanceId := v.instances.size
  set later : World := { v with instances := v.instances.push inst }
  have get : later.instances[i]? = some inst := by simp [later, i]
  have get_ne {j : InstanceId} (hj : j ≠ i) : later.instances[j]? = v.instances[j]? := by
    simp [later, Array.getElem?_push, hj, i]
  have root {j : InstanceId} (hj : j < i) : later.root j = v.root j := by
    rw [World.root, World.root, World.root?, World.root?, get_ne (Nat.ne_of_lt hj)]
  have defined {j : InstanceId} (hj : j < i) : later.definition? j = v.definition? j := by
    rw [World.definition?, World.definition?, get_ne (Nat.ne_of_lt hj)]
  have ready {j : InstanceId} (hj : j ∈ busy) : j ∈ lost ++ i :: hand ∨ L.spared j := by
    refine (h.ready j hj).imp_left fun hm => ?_
    simp only [List.mem_append, List.mem_cons] at hm ⊢
    tauto
  -- Who is held exists, so the new instance is not.
  have unheld : i ∉ busy := fun hb => Nat.lt_irrefl _ (h'.lt_of_busy hb)
  refine ⟨⟨_, h.leave idle (fun _ hj => hj) h' (orderly.perm List.perm_middle) rfl rfl get
    (fun j _ hj => get_ne hj) (by simp [later]) (fun j => root) (fun j => defined) top
    ((h'.hosts (Or.inr rfl)).2.trans definition) (fun j hj he => absurd he (alone' hj))
    (fun hi => absurd hi (Nat.not_lt.mpr (Nat.le_trans h.known h'.known))) unheld
    (fun _ _ _ => Iff.rfl) (fun j hj _ => Nat.ne_of_lt (h'.lt_of_alive hj)) (fun j => ready)
    (List.subset_cons_self ..) (fun j hj => List.mem_cons.mp hj)
    ((h'.hosts (Or.inr rfl)).1 ▸ shows)⟩, fun b m q hb hq => ?_⟩
  rw [World.root_of_get get]
  refine h'.untethered top (fun j hj => alone' hj) ⟨b, m, ?_⟩
  rw [(h'.hosts (Or.inl hb)).1]
  exact h.node_host hb ▸ hq

/-- A new instance is taken up when its copy shows its stash. -/
theorem register_tidy (t : Template)
    (h' : v.Neat (L.enter w δ inst.root hand) busy lost (inst.held ++ hand))
    (sound : inst.Sound L.library v)
    (shows : (L.plan inst.definition).Shows (δ.node inst.root) v.root v.document.children
      inst.elements inst.stash) :
    Ends (v = ·) (register t inst)
      (fun i later => later.Neat L busy lost (i :: hand) ∧ later.Adrift L i ∧
        later.definition? i = some inst.definition) (Failing (World.Neat L busy lost hand)) := by
  have minds : v.Minds (L.enter w δ inst.root hand) inst.definition inst.root busy lost hand
      inst.elements inst.stash := ⟨h', sound.ranks, shows⟩
  obtain ⟨δ', h'⟩ := h'
  have slots {slot : Nat} {x : NodeId} (hx : inst.elements[slot]? = some x) :
      v.document.isLive x = true := by
    obtain ⟨d, hd, ⟨length, -⟩, -⟩ := sound.shaped
    have draws := h.draws hd
    have hlt := (List.getElem?_eq_some_iff.mp hx).1
    rw [length, draws.slots, List.length_map] at hlt
    obtain ⟨y, hy, live⟩ := minds.live (h.opens idle definition draws) (List.getElem?_eq_getElem hlt)
    exact Option.some.inj (hx.symm.trans hy) ▸ live
  obtain ⟨neat, adrift⟩ := push_tidy h idle alone definition h' sound shows
  unfold register
  refine Ends.bind (Q := fun i later => later.Neat L busy lost (i :: hand) ∧ later.Adrift L i ∧
    later.definition? i = some inst.definition ∧ later.document.isLive = v.document.isLive)
    (.modifyGet ?_) fun j => ?_
  · rintro _ rfl
    exact ⟨neat, adrift, World.definition?_of_get (by simp), rfl⟩
  · refine (Ends.forM fun l _ => ?_).bind fun _ => .pure fun _ h => ⟨h.1, h.2.1, h.2.2.1⟩
    split
    · next x hx =>
      refine .modify fun u hu => ?_
      obtain ⟨⟨δ'', tidy⟩, adrift, definition, live⟩ := hu
      have here : u.document.isLive x = true := by
        rw [live]
        exact slots hx
      have same := Document.sameForest_listen u.document x l.event (Listener.bound j l.handler)
      refine ⟨⟨δ'', tidy.sameForest same (tidy.valid.wellFormed.listen here _ _)⟩,
        fun b m q hb hq hc => adrift b m q hb hq ?_, definition, ?_⟩
      · exact same.children q ▸ hc
      · rw [← live]
        exact funext fun y => same.isLive y
    · exact .pure fun _ h => h

end Register

/-- A new instance of a definition stands nowhere. -/
theorem assemble_tidy (tidies : Tidies lib build) (ranked : lib.Ranked) (props : Value)
    (controller : Controller) :
    Tidies lib fun id => assemble lib build id props controller := by
  intro L busy lost hand id hl
  unfold assemble
  refine (Ends.definition fun _ _ => .of_abort).bind fun d =>
    Ends.assume (P := World.Neat L busy lost hand) fun hd => .pointwise fun w hw => ?_
  obtain ⟨δ, tidy⟩ := hw
  have draws := tidy.draws (hl ▸ hd)
  obtain ⟨f, copy⟩ := Document.exists_copy tidy.valid.sound (L.plan id).root
  have grown := (tidy.valid.wellFormed.extends_instantiate (L.plan id).root.markup).wellFormed
  rw [← draws.markup] at copy grown
  set root := (w.document.instantiate d.template.markup).2
  set granted : World := { w with document := (w.document.instantiate d.template.markup).1 }
  set M := L.enter granted (δ.grant L.plan root id f) root hand
  have host : granted.Tidy M (δ.grant L.plan root id f) busy lost hand :=
    tidy.host_copy copy grown draws
  -- While its stash is filled the copy is a host, and it goes again wherever that fails.
  have idle := tidy.idle_copy copy
  have opens : M.Opens id root hand :=
    (tidy.grant copy grown draws).opens idle Deeds.definition_grant_self draws
  have released (v : World) (hv : v.Neat M busy lost hand) :
      World.Neat L busy lost hand { v with document := v.document.release root } :=
    tidy.release_copy copy grown draws hv
  refine Ends.bind (Q := fun made v => made = root ∧ v = granted) (.modifyGet ?_) fun made => ?_
  · rintro _ rfl
    exact ⟨rfl, rfl⟩
  refine .assume fun he => ?_
  subst he
  refine Ends.get.bind fun v => .pointwise fun _ hv => ?_
  obtain ⟨rfl, rfl⟩ := hv
  cases bound : bindFrom granted.document root 0 d.template.slots with
  | error slot =>
    refine Ends.bind (Q := fun _ => World.Neat L busy lost hand) (.modify ?_) fun _ => .fail
    rintro _ rfl
    exact released _ ⟨_, host⟩
  | ok elements =>
    have rises : (L.plan id).Rises (M.deeds.node root) f granted.root granted.document.children
        elements [] := .start draws copy (fun m => Deeds.node_grant_self m) bound
    have raises : granted.Raises M id root f busy lost hand elements [] :=
      ⟨⟨_, host⟩, nofun, rises, rfl⟩
    have entered : Ends (World.Raises M id root f busy lost hand elements [])
        (entries build d root [] elements d.template.stash)
        (fun result v => v.Raises M id root f busy lost hand result.2 result.1)
        (Failing (World.Neat L busy lost hand)) :=
      entries_tidy (L := M) tidies hl opens released draws.stash.symm (ranked id d hd)
    refine Ends.bind ((entered.and (entries_ends build d root [] elements d.template.stash)).mono
      ?_ (fun _ _ h => h) fun _ _ h => h.1) fun result => .pointwise fun v hv => ?_
    · rintro _ rfl
      exact ⟨raises, trivial⟩
    obtain ⟨stash, elements'⟩ := result
    obtain ⟨raised, kinds, length⟩ := hv
    have kinds : stash.map StashItem.kind = d.template.stash.map StashPlan.kind := by
      simpa using kinds
    have all : stash.length = (L.plan id).layout.stash.length := by
      rw [← draws.stash]
      simpa using congrArg List.length kinds
    let inst : Instance :=
      { definition := id, root, props, state := d.initialState, controller, elements := elements'
        cache := .empty d.template.watches, stash, mounted := false }
    have shows : (L.plan inst.definition).Shows ((δ.grant L.plan root id f).node inst.root) v.root
        v.document.children inst.elements inst.stash := raised.rises.finish all draws
    have sound : inst.Sound L.library v := by
      refine ⟨raised.ranks, d, hl ▸ hd, ⟨?_, kinds⟩, ?_⟩
      · exact length.trans (length_bindFrom bound)
      · show (Cache.empty d.template.watches).map List.length = _
        simp [Cache.empty, Function.comp_def]
    refine (register_tidy (tidy.grant copy grown draws) idle (tidy.alone_copy copy)
      Deeds.definition_grant_self d.template raised.neat sound shows).pre ?_
    rintro _ rfl
    rfl

end Build

/-- Building an instance leaves the world tidy, whatever the depth; the instance stands in no host. -/
theorem Run.buildWithin_tidy {lib : Library} (ranked : lib.Ranked) (depth : Nat) (props : Value)
    (controller : Controller) : Build.Tidies lib fun id => buildWithin lib depth id props controller := by
  induction depth generalizing props controller with
  | zero => exact fun _ _ _ _ _ _ => .giveUp
  | succ depth ih => exact Build.assemble_tidy (ih .null none) ranked props controller

/-- Building an instance leaves the world tidy; the instance stands in no host. -/
theorem Run.build_tidy {lib : Library} (ranked : lib.Ranked) (props : Value)
    (controller : Controller) : Build.Tidies lib fun id => build lib id props controller :=
  fun L busy lost hand id => buildWithin_tidy ranked (id + 1) props controller L busy lost hand id

end ComponentView
