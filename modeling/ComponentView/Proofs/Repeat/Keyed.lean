import ComponentView.Proofs.Repeat.Blocks
import ComponentView.Proofs.Repeat.Tenants
import Mathlib.Data.List.Nodup
import Mathlib.Tactic.Tauto

/-! # A repeater by key and its container

The roots of a repeater stand as one block among the other nodes of its container
(`Keyed.Stands`). Putting an instance at its place and dropping one keep that up, and so does a
patch as a whole, wherever it stops. After a patch that ends, the order is that of the items. -/

namespace ComponentView

namespace Keyed

/-- The root of the instance of a key. -/
def rootOf? (r : Keyed) (w : World) (key : ItemKey) : Option NodeId :=
  (r.instance? key).bind w.root?

/-- The roots of the repeater in their order. -/
def block (r : Keyed) (w : World) : List NodeId := r.order.filterMap (r.rootOf? w)

/-- The instances of the repeater. -/
def rows (r : Keyed) : List InstanceId := r.instances.map (·.2)

/-- The roots of the repeater stand in its order between the nodes `before` and `after`, and its
instances are tenants of the container. An instance whose key is not in the order has not been placed yet. -/
structure Stands (container : NodeId) (before after : List NodeId) (r : Keyed) (w : World) :
    Prop where
  order : r.order.Nodup
  keys : (r.instances.map (·.1)).Nodup
  occupied : ∀ key ∈ r.order, key ∈ r.instances.map (·.1)
  tenants : w.Tenants container (before ++ after) r.rows
  unplaced : ∀ x ∈ r.instances, x.1 ∉ r.order → ∀ root, w.root? x.2 = some root →
    root ∉ w.document.children container
  children : w.document.children container = before ++ r.block w ++ after
  nodup : (w.document.children container).Nodup
  linked : ∀ c, w.document.parent? c = some container ↔ c ∈ w.document.children container
  inside : container < w.document.size

variable {container : NodeId} {before after : List NodeId} {r : Keyed} {w : World}
  {key : ItemKey} {i : InstanceId} {position : Nat}

/-- A key has the instance that it is listed with. -/
theorem instance?_eq_some_iff (h : (r.instances.map (·.1)).Nodup) :
    r.instance? key = some i ↔ (key, i) ∈ r.instances := by
  rw [instance?, List.lookup_eq_some_iff]
  constructor
  · rintro ⟨front, back, he, -⟩
    rw [he]
    exact List.mem_append_right _ (List.mem_cons_self ..)
  · intro hm
    obtain ⟨front, back, he⟩ := List.append_of_mem hm
    refine ⟨front, back, he, fun x hx => ?_⟩
    rw [he, List.map_append, List.nodup_append] at h
    exact bne_iff_ne.mpr (h.2.2 x.1 (List.mem_map_of_mem hx) key (by simp)).symm

/-- Taking out one key leaves the other keys their instances. -/
theorem lookup_filter_ne {k : ItemKey} (h : k ≠ key) (xs : List (ItemKey × InstanceId)) :
    (xs.filter (·.1 ≠ key)).lookup k = xs.lookup k := by
  induction xs with
  | nil => rfl
  | cons x xs ih =>
    obtain ⟨other, i⟩ := x
    rw [List.filter_cons, List.lookup_cons]
    by_cases hx : other = key
    · have hk : (k == other) = false := beq_false_of_ne (hx ▸ h)
      rw [if_neg (by simp [hx]), hk, ih]
    · rw [if_pos (by simp [hx]), List.lookup_cons, ih]

namespace Stands

/-- The root for a key is the root of the row at the key. -/
theorem rootOf?_eq_some_iff (h : Stands container before after r w) {root : NodeId} :
    r.rootOf? w key = some root ↔ ∃ i, (key, i) ∈ r.instances ∧ w.root? i = some root := by
  rw [rootOf?, Option.bind_eq_some_iff]
  exact exists_congr fun i => and_congr_left fun _ => instance?_eq_some_iff h.keys

/-- Instances with the same root are one, under one key. -/
theorem distinct (h : Stands container before after r w) {x y : ItemKey × InstanceId}
    (hx : x ∈ r.instances) (hy : y ∈ r.instances) (he : w.root? x.2 = w.root? y.2) : x = y :=
  List.inj_on_of_nodup_map h.tenants.nodup hx hy
    (h.tenants.distinct x.2 (List.mem_map_of_mem hx) y.2 (List.mem_map_of_mem hy) he)

/-- A root is the root of one key only. -/
theorem eq_of_rootOf? (h : Stands container before after r w) {root : NodeId}
    (hm : (key, i) ∈ r.instances) (hroot : w.root? i = some root) {k : ItemKey}
    (hr : r.rootOf? w k = some root) : k = key := by
  obtain ⟨j, hj, hr⟩ := h.rootOf?_eq_some_iff.mp hr
  exact congrArg Prod.fst (h.distinct hj hm (hr.trans hroot.symm))

/-- What comes of the foreign nodes and the block when the root of a key is taken out. -/
theorem filter_children (h : Stands container before after r w) (hm : (key, i) ∈ r.instances)
    {root : NodeId} (hroot : w.root? i = some root) (hk : key ∉ r.order.take position) :
    (w.document.children container).filter (· ≠ root)
      = before ++ (r.order.take position).filterMap (r.rootOf? w)
        ++ (((r.order.drop position).erase key).filterMap (r.rootOf? w) ++ after) := by
  -- The root is in the block, if it is there at all, and there past the position.
  have foreign {x : NodeId} (hx : x ∈ before ∨ x ∈ after) : x ≠ root := by
    rintro rfl
    have placed : x ∈ w.document.children container := by
      rw [h.children]
      simp only [List.mem_append]
      grind
    have hin : key ∈ r.order := by
      refine Decidable.byContradiction fun hin => ?_
      exact h.unplaced (key, i) hm hin x hroot placed
    have hb : x ∈ r.block w :=
      List.mem_filterMap.mpr ⟨key, hin, h.rootOf?_eq_some_iff.mpr ⟨i, hm, hroot⟩⟩
    have nodup := h.nodup
    rw [h.children, List.nodup_append, List.nodup_append] at nodup
    rcases hx with hx | hx
    · exact nodup.1.2.2 x hx x hb rfl
    · exact nodup.2.2 x (List.mem_append_right _ hb) x hx rfl
  have keep (xs : List NodeId) (hxs : ∀ x ∈ xs, x ≠ root) : xs.filter (· ≠ root) = xs :=
    List.filter_eq_self.mpr fun x hx => by simpa using hxs x hx
  have back := filterMap_erase (f := r.rootOf? w)
    (h.order.sublist (List.drop_sublist position r.order))
    (h.rootOf?_eq_some_iff.mpr ⟨i, hm, hroot⟩)
    fun k _ hr => h.eq_of_rootOf? hm hroot hr
  rw [h.children, block, ← List.take_append_drop position r.order, List.filterMap_append,
    List.filter_append, List.filter_append, List.filter_append, List.take_append_drop, ← back,
    keep before fun x hx => foreign (Or.inl hx), keep after fun x hx => foreign (Or.inr hx),
    keep _ fun x hx => ?_]
  · simp
  · rintro rfl
    obtain ⟨k, hkt, hr⟩ := List.mem_filterMap.mp hx
    exact hk (h.eq_of_rootOf? hm hroot hr ▸ hkt)

/-- The root of a key is put at its position: before what is to come next there. -/
theorem place (h : Stands container before after r w) (hm : (key, i) ∈ r.instances)
    {root : NodeId} (hroot : w.root? i = some root) (hk : key ∉ r.order.take position)
    {reference : Option NodeId} (hreference : reference =
      (((r.order.drop position).erase key).filterMap (r.rootOf? w) ++ after).head?) :
    Stands container before after { r with order := pullForward key position r.order }
      { w with document := w.document.insertBefore container root reference } := by
  subst hreference
  obtain ⟨-, root', hroot', hsize⟩ := h.tenants.present i (List.mem_map_of_mem (f := (·.2)) hm)
  obtain rfl : root = root' := Option.some.inj (hroot.symm.trans hroot')
  set front := before ++ (r.order.take position).filterMap (r.rootOf? w) with hfront
  set back := ((r.order.drop position).erase key).filterMap (r.rootOf? w) ++ after with hback
  have rest : (w.document.without root).children container = front ++ back := by
    rw [Document.children_without, ← h.filter_children hm hroot hk]
    split
    · rfl
    · next hp =>
      refine (List.filter_eq_self.mpr fun x hx => ?_).symm
      refine decide_eq_true fun hxr => hp ((h.linked root).mpr (hxr ▸ hx))
  have restNodup : (front ++ back).Nodup := by
    rw [← h.filter_children hm hroot hk]
    exact h.nodup.sublist List.filter_sublist
  have children : (w.document.insertBefore container root back.head?).children container
      = front ++ root :: back := by
    rw [Document.children_insertBefore h.inside, if_pos rfl, rest,
      Document.placeBefore_head? restNodup]
  have fresh : root ∉ front ++ back := by
    rw [← h.filter_children hm hroot hk]
    simp
  have hkey : r.rootOf? w key = some root := h.rootOf?_eq_some_iff.mpr ⟨i, hm, hroot⟩
  -- The children are those of before, and the root.
  have mem {c : NodeId} : c ∈ front ++ root :: back ↔
      c = root ∨ c ∈ w.document.children container := by
    have : c ∈ front ++ back ↔ c ≠ root ∧ c ∈ w.document.children container := by
      rw [← h.filter_children hm hroot hk]
      simp [and_comm]
    rw [List.mem_append, List.mem_cons]
    rw [List.mem_append] at this
    grind
  refine
    { order := nodup_pullForward h.order hk, keys := h.keys, occupied := fun k hk => ?_
      tenants := h.tenants.of_insertBefore root _
      unplaced := fun x hx ho y hy hc => ?_, children := ?_
      nodup := ?_, linked := fun c => ?_, inside := ?_ }
  · rcases mem_pullForward.mp hk with rfl | hk
    · exact List.mem_map_of_mem (f := (·.1)) hm
    · exact h.occupied k hk
  · rw [children, mem] at hc
    obtain ⟨hne, ho⟩ := not_or.mp (mt mem_pullForward.mpr ho)
    rcases hc with rfl | hc
    · exact hne (congrArg Prod.fst (h.distinct hx hm (hy.trans hroot.symm)))
    · exact h.unplaced x hx ho y hy hc
  · have : (pullForward key position r.order).filterMap (r.rootOf? w)
        = (r.order.take position).filterMap (r.rootOf? w) ++
          root :: ((r.order.drop position).erase key).filterMap (r.rootOf? w) := by
      rw [pullForward, List.filterMap_append, List.filterMap_cons, hkey]
    show _ = before ++ (pullForward key position r.order).filterMap (r.rootOf? w) ++ after
    rw [children, this, hfront, hback]
    simp only [List.append_assoc, List.cons_append]
  · rw [children]
    exact (List.perm_middle.nodup_iff.mpr (List.nodup_cons.mpr ⟨fresh, restNodup⟩))
  · rw [Document.parent?_insertBefore hsize, children, mem]
    split
    · next hc => simp [hc]
    · next hc => rw [h.linked]; simp [hc]
  · rw [Document.size_insertBefore]
    exact h.inside

/-- What a repeater stands by is still there when its container was spared. -/
theorem spares {later : World} (h : Stands container before after r w)
    (hs : World.Spares container w later) (hb : later.busy = w.busy) :
    Stands container before after r later := by
  have roots : later.root? = w.root? := funext hs.root?
  have block : r.block later = r.block w := by
    unfold Keyed.block Keyed.rootOf?
    rw [roots]
  exact
    { order := h.order, keys := h.keys, occupied := h.occupied, tenants := h.tenants.spares hs hb
      unplaced := by rw [roots, hs.children]; exact h.unplaced
      children := by rw [hs.children, block]; exact h.children
      nodup := by rw [hs.children]; exact h.nodup
      linked := fun c => by rw [hs.parent, hs.children]; exact h.linked c
      inside := by rw [hs.size]; exact h.inside }

/-- The root of a key is taken out, and the key goes. -/
theorem remove {kept rest : List ItemKey}
    (h : Stands container before after { r with order := kept ++ key :: rest } w)
    (hm : (key, i) ∈ r.instances) {root : NodeId} (hroot : w.root? i = some root) :
    Stands container before after
      { r with order := kept ++ rest, instances := r.instances.filter (·.1 ≠ key) }
      { w with document := w.document.remove container root } ∧
    World.Apart container (w.Holds i) { w with document := w.document.remove container root } := by
  have hnot : key ∉ kept ++ rest := (List.nodup_cons.mp (List.perm_middle.nodup_iff.mp h.order)).1
  have hk : key ∉ (kept ++ key :: rest).take kept.length := by
    rw [List.take_left]
    exact fun hk => hnot (List.mem_append_left _ hk)
  have placed : root ∈ w.document.children container := by
    rw [h.children, block]
    simp only [List.mem_append, List.mem_filterMap]
    exact Or.inl (Or.inr ⟨key, by simp, h.rootOf?_eq_some_iff.mpr ⟨i, hm, hroot⟩⟩)
  have children : (w.document.remove container root).children container
      = (w.document.children container).filter (· ≠ root) := by
    rw [Document.children_remove, if_pos ⟨(h.linked root).mpr placed, rfl⟩]
  have subset (q : NodeId) : (w.document.remove container root).children q
      ⊆ w.document.children q := by
    rw [Document.children_remove]
    split
    · exact List.filter_sublist.subset
    · exact List.Subset.refl _
  have linked (c : NodeId) : (w.document.remove container root).parent? c = some container ↔
      c ∈ (w.document.remove container root).children container := by
    rw [Document.parent?_remove, children, List.mem_filter, ← h.linked]
    by_cases hc : c = root
    · simp [hc, (h.linked root).mpr placed]
    · simp [hc]
  have others {x : ItemKey × InstanceId} (hx : x ∈ r.instances.filter (·.1 ≠ key)) :
      x ∈ r.instances ∧ x.1 ≠ key := by simpa using List.mem_filter.mp hx
  have tenants := h.tenants.of_document subset (Document.size_remove container root)
  constructor
  · refine
      { order := (List.nodup_cons.mp (List.perm_middle.nodup_iff.mp h.order)).2
        keys := h.keys.sublist (List.filter_sublist.map _), occupied := fun k hk => ?_
        tenants := tenants.sublist (List.filter_sublist.map _)
        unplaced := fun x hx ho y hy hc => ?_, children := ?_, nodup := ?_, linked := linked
        inside := ?_ }
    · have hne : k ≠ key := fun hkk => hnot (hkk ▸ hk)
      obtain ⟨x, hx, rfl⟩ := List.mem_map.mp (h.occupied k (by
        rw [List.mem_append] at hk
        simp only [List.mem_append, List.mem_cons]
        grind))
      have left : x ∈ r.instances.filter (·.1 ≠ key) :=
        List.mem_filter.mpr ⟨hx, decide_eq_true hne⟩
      exact List.mem_map_of_mem (f := (·.1)) left
    · refine h.unplaced x (others hx).1 (fun hin => ho ?_) y hy (subset container hc)
      have := (others hx).2
      rw [List.mem_append, List.mem_cons] at hin
      rw [List.mem_append]
      grind
    · have := h.filter_children hm hroot hk
      rw [children, this, List.take_left, List.drop_left, List.erase_cons_head]
      show _ = before ++ (kept ++ rest).filterMap _ ++ after
      rw [List.filterMap_append]
      have eq {ks : List ItemKey} (hks : ∀ k ∈ ks, k ∈ kept ++ rest) :
          ks.filterMap (Keyed.rootOf? { r with order := kept ++ key :: rest } w)
            = ks.filterMap (Keyed.rootOf? { r with
                order := kept ++ rest, instances := r.instances.filter (·.1 ≠ key) }
                  { w with document := w.document.remove container root }) := by
        refine List.filterMap_congr fun k hk => ?_
        have hne : k ≠ key := fun hkk => hnot (hkk ▸ hks k hk)
        show (r.instances.lookup k).bind _ = ((r.instances.filter (·.1 ≠ key)).lookup k).bind _
        rw [lookup_filter_ne hne]
        rfl
      rw [eq fun k hk => List.mem_append_left _ hk, eq fun k hk => List.mem_append_right _ hk]
      simp only [List.append_assoc]
    · rw [children]
      exact h.nodup.sublist List.filter_sublist
    · rw [Document.size_remove]
      exact h.inside
  · refine tenants.apart (List.mem_map_of_mem (f := (·.2)) hm) linked (fun c hc => ?_) ?_
    · -- A child of the container is a foreign node or the root of an instance.
      have hc := subset container hc
      rw [h.children, List.mem_append, List.mem_append] at hc
      rcases hc with (hc | hc) | hc
      · exact Or.inl (List.mem_append_left _ hc)
      · obtain ⟨k, -, hr⟩ := List.mem_filterMap.mp hc
        obtain ⟨j, hj, hr⟩ := h.rootOf?_eq_some_iff.mp hr
        exact Or.inr ⟨j, List.mem_map_of_mem (f := (·.2)) hj, hr⟩
      · exact Or.inl (List.mem_append_right _ hc)
    · intro root' hr hc
      obtain rfl : root = root' := Option.some.inj (hroot.symm.trans hr)
      rw [children] at hc
      simp at hc

end Stands

/-- The root of an instance that is there and not held. -/
theorem rootOf_ends {root : NodeId} (hi : i ∉ w.busy) (hroot : w.root? i = some root)
    {E : Stop → World → Prop} :
    Ends (· = w) (Run.rootOf i) (fun a v => a = root ∧ v = w) E := by
  obtain ⟨inst, hinst, rfl⟩ := Option.map_eq_some_iff.mp hroot
  refine Ends.bind (Q := fun a v => a = inst ∧ v = w) ?_ fun a => .pure fun v hv => ?_
  · rintro v rfl
    rw [Run.look_eq hinst hi]
    exact ⟨rfl, rfl⟩
  · exact ⟨congrArg Instance.root hv.1, hv.2⟩

/-- A key comes to its position, and its root to its place; nothing stops that. -/
theorem settle_ends (h : Stands container before after r w) (hm : (key, i) ∈ r.instances)
    (hk : key ∉ r.order.take position) (hposition : position ≤ r.order.length) {root : NodeId}
    (hroot : w.root? i = some root) :
    Ends (fun f => f.held = r ∧ f.world = w) (settle container after.head? key i position)
      (fun _ f => f.held = { r with order := pullForward key position r.order } ∧
        Stands container before after f.held f.world ∧ (f.world = w ∨ ∃ reference,
          f.world = { w with document := w.document.insertBefore container root reference }))
      fun _ _ => False := by
  have free {j : InstanceId} {k : ItemKey} (hj : (k, j) ∈ r.instances) : j ∉ w.busy :=
    (h.tenants.present j (List.mem_map_of_mem (f := (·.2)) hj)).1
  unfold settle
  refine .held_bind (P := (· = w)) ?_
  refine .outside_bind (rootOf_ends (free hm) hroot) ?_
  split
  · next hthere =>
    have hlen : r.order.length ≤ position := List.getElem?_eq_none_iff.mp hthere
    have happend : pullForward key position r.order = r.order ++ [key] := by
      rw [pullForward, List.take_of_length_le hlen, List.drop_of_length_le hlen, List.erase_nil]
    have placed := h.place hm hroot hk (show after.head? = _ by
      simp [List.drop_of_length_le hlen])
    rintro ⟨_, _⟩ ⟨rfl, rfl⟩
    rw [happend] at placed ⊢
    exact ⟨rfl, placed, Or.inr ⟨_, rfl⟩⟩
  · next there hthere =>
    have hlt := (List.getElem?_eq_some_iff.mp hthere).1
    have hdrop : r.order.drop position = there :: r.order.drop (position + 1) := by
      rw [List.drop_eq_getElem_cons hlt, (List.getElem?_eq_some_iff.mp hthere).2]
    split
    · next hne =>
      obtain ⟨⟨_, j⟩, hj, rfl⟩ := List.mem_map.mp (h.occupied there
        (List.mem_of_getElem? hthere))
      obtain ⟨-, before', hbefore, -⟩ := h.tenants.present j
        (List.mem_map_of_mem (f := (·.2)) hj)
      rw [(instance?_eq_some_iff h.keys).mpr hj]
      refine .outside_bind (rootOf_ends (free hj) hbefore) ?_
      rintro ⟨_, _⟩ ⟨rfl, rfl⟩
      refine ⟨rfl, h.place hm hroot hk (show some before' = _ from ?_), Or.inr ⟨_, rfl⟩⟩
      rw [hdrop, List.erase_cons_tail (by simpa using hne), List.filterMap_cons,
        h.rootOf?_eq_some_iff.mpr ⟨j, hj, hbefore⟩]
      rfl
    · next hkk =>
      obtain rfl : there = key := Decidable.byContradiction hkk
      rintro ⟨_, _⟩ ⟨rfl, rfl⟩
      rw [pullForward_self hthere]
      exact ⟨rfl, h, Or.inl rfl⟩

/-- A key is dropped: its root leaves the container. -/
theorem dropKey_ends {kept rest : List ItemKey}
    (h : Stands container before after { r with order := kept ++ key :: rest } w) :
    Ends (fun f => f.held = r ∧ f.world = w) (dropKey container key)
      (fun _ f => f.held = { r with instances := r.instances.filter (·.1 ≠ key) } ∧
        Stands container before after { f.held with order := kept ++ rest } f.world)
      fun stop _ => stop.Barred := by
  obtain ⟨⟨key', i⟩, hm, hkey⟩ := List.mem_map.mp (h.occupied key (by simp))
  obtain rfl : key' = key := hkey
  obtain ⟨free, root, hroot, -⟩ := h.tenants.present i (List.mem_map_of_mem (f := (·.2)) hm)
  obtain ⟨stands, apart⟩ := h.remove hm hroot
  unfold dropKey
  refine .held_bind (P := (· = w)) ?_
  rw [show r.instance? key' = some i from (instance?_eq_some_iff h.keys).mpr hm]
  dsimp only
  refine (Ends.outside_eq (P := (· = w)) (Q := fun _ => Retire.Calm container
    { w with document := w.document.remove container root } w.busy) ?_).bind fun _ => ?_
  · refine (rootOf_ends free hroot).bind fun root' => .assume fun hr => ?_
    subst root'
    refine Ends.bind (Q := fun _ v => v = { w with document := w.document.remove container root })
      (.modify fun v hv => hv ▸ rfl) fun _ => ?_
    refine (Retire.calm_drop apart (Run.retire_spares apart) _ _ .refl).pre fun v hv => ?_
    subst hv
    exact ⟨.refl _ _, rfl⟩
  · refine .change fun r' v hv => ?_
    obtain ⟨rfl, spares, busy⟩ := hv
    exact ⟨rfl, stands.spares spares busy⟩

/-- Keys at the end of the order are dropped, one after another. -/
theorem dropKeys_ends {kept rest : List ItemKey}
    (h : Stands container before after { r with order := kept ++ rest } w) :
    Ends (fun f => f.held = r ∧ f.world = w) (rest.forM (dropKey container))
      (fun _ f => f.held = { r with instances := f.held.instances } ∧
        (∀ x, x ∈ f.held.instances ↔ x ∈ r.instances ∧ x.1 ∉ rest) ∧
          Stands container before after { f.held with order := kept } f.world)
      fun stop _ => stop.Barred := by
  induction rest generalizing r w with
  | nil =>
    rintro ⟨_, _⟩ ⟨rfl, rfl⟩
    rw [List.append_nil] at h
    exact ⟨rfl, fun x => by simp, h⟩
  | cons key rest ih =>
    refine (dropKey_ends h).bind fun _ => ?_
    rintro f ⟨hf, stands⟩
    refine (ih stands).post (fun _ g hg => ?_) f ⟨rfl, rfl⟩
    obtain ⟨held, instances, stands⟩ := hg
    refine ⟨held.trans (by rw [hf]), fun x => ?_, stands⟩
    rw [instances, hf, List.mem_filter, List.mem_cons, not_or, decide_eq_true_iff, and_assoc]

/-- The keys from a position on are dropped. -/
theorem dropFrom_ends (h : Stands container before after r w)
    (full : ∀ x ∈ r.instances, x.1 ∈ r.order) (position : Nat) :
    Ends (fun f => f.held = r ∧ f.world = w) (dropFrom container position)
      (fun _ f => f.held = { r with
          order := r.order.take position, instances := f.held.instances } ∧
        (∀ x, x ∈ f.held.instances ↔ x ∈ r.instances ∧ x.1 ∈ r.order.take position) ∧
          Stands container before after f.held f.world)
      fun stop _ => stop.Barred := by
  unfold dropFrom
  refine .held_bind (P := (· = w)) ?_
  have parts : r.order.take position ++ r.order.drop position = r.order :=
    List.take_append_drop position r.order
  have split : Stands container before after
      { r with order := r.order.take position ++ r.order.drop position } w := by rwa [parts]
  refine (dropKeys_ends split).bind fun _ => ?_
  refine .change fun r' v hv => ?_
  obtain ⟨held, instances, stands⟩ := hv
  have held : r' = { r with instances := r'.instances } := held
  have order : r'.order = r.order := (congrArg Keyed.order held :)
  have cut := congrArg (fun r' : Keyed => { r' with order := r'.order.take position }) held
  rw [← order] at stands
  refine ⟨cut, fun x => ?_, stands⟩
  refine (instances x).trans (and_congr_right fun hx => ?_)
  -- A key of the order is either kept or dropped.
  have nodup := h.order
  rw [← parts, List.nodup_append] at nodup
  have hin := full x hx
  rw [← parts, List.mem_append] at hin
  exact ⟨hin.resolve_right, fun hk hd => nodup.2.2 _ hk _ hd rfl⟩

end Keyed

end ComponentView
