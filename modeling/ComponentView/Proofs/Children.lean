import ComponentView.Proofs.Kinship
import ComponentView.Proofs.Preorder

/-! # The children of an entry

The entries below a node follow it in the outline, subtree by subtree. So the entries of its children
are known from the sizes of the subtrees alone (`Outline.childrenOf_eq`). -/

namespace ComponentView

mutual
/-- The number of nodes of a tree. -/
def Node.size : Node → Nat
  | ⟨_, children⟩ => Node.sizeAll children + 1

/-- The number of nodes of some trees. -/
def Node.sizeAll : List Node → Nat
  | [] => 0
  | child :: rest => Node.size child + Node.sizeAll rest
end

/-- A tree has a node. -/
theorem Node.size_pos (n : Node) : 0 < n.size := by
  cases n
  simp [Node.size]

namespace Outline

/-- The positions of the children of a node, where `next` is that of the first. -/
def starts : (next : Nat) → List Node → List Nat
  | _, [] => []
  | next, child :: rest => next :: starts (next + child.size) rest

mutual
/-- A tree has as many entries as nodes. -/
theorem length_entries (address : Address) (place : List Nat) (parent : Option Nat) (index : Nat) :
    ∀ n : Node, (entries address place parent index n).length = n.size
  | ⟨head, children⟩ => by
    rw [entries, List.length_cons, length_childEntries, Node.size]

/-- Children have as many entries as nodes. -/
theorem length_childEntries (address : Address) (place : List Nat)
    (parent position markupPosition next : Nat) :
    ∀ children : List Node,
      (childEntries address place parent position markupPosition next children).length
        = Node.sizeAll children
  | [] => by simp [childEntries, Node.sizeAll]
  | child :: rest => by
    rw [childEntries, List.length_append, length_entries, length_childEntries, Node.sizeAll]
end

/-- The parent of an entry in a subtree is an entry before it, but for the first. -/
theorem parent_of_entries {address : Address} {place : List Nat} {parent : Option Nat}
    {index : Nat} {n : Node} {k : Nat} {e : OutlineEntry}
    (h : (entries address place parent index n)[k]? = some e) :
    k = 0 ∧ e.parent = parent ∨ ∃ p < k, e.parent = some (index + p) := by
  rcases parent_entries address place parent index n h with ⟨rfl, rfl⟩ | ⟨q, hq, -, -, -, he, -⟩
  · exact Or.inl ⟨rfl, rfl⟩
  · exact Or.inr ⟨q, hq, he⟩

/-- The parent of an entry below a node is the node or an entry before it. -/
theorem parent_of_childEntries {address : Address} {place : List Nat}
    {parent position markupPosition next : Nat} {children : List Node} {k : Nat} {e : OutlineEntry}
    (h : (childEntries address place parent position markupPosition next children)[k]? = some e) :
    e.parent = some parent ∨ ∃ p < k, e.parent = some (next + p) := by
  induction children generalizing position markupPosition next k with
  | nil => simp [childEntries] at h
  | cons child rest ih =>
    rw [childEntries] at h
    rcases Nat.lt_or_ge k child.size with hk | hk
    · rw [List.getElem?_append_left (by rwa [length_entries])] at h
      exact (parent_of_entries h).imp And.right id
    · rw [List.getElem?_append_right (by rwa [length_entries]), length_entries] at h
      rcases ih h with hp | ⟨p, hp, he⟩
      · exact Or.inl hp
      · exact Or.inr ⟨child.size + p, by omega, by rw [he, Nat.add_assoc]⟩

/-- The positions of the entries with a parent, where `start` is that of the first entry. -/
def childrenFrom (start : Nat) (es : List OutlineEntry) (parent : Nat) : List Nat :=
  ((es.zipIdx start).filter fun x => x.1.parent = some parent).map (·.2)

/-- The children in two stretches of the outline, one after the other. -/
theorem childrenFrom_append (start : Nat) (es fs : List OutlineEntry) (parent : Nat) :
    childrenFrom start (es ++ fs) parent
      = childrenFrom start es parent ++ childrenFrom (start + es.length) fs parent := by
  rw [childrenFrom, List.zipIdx_append, List.filter_append, List.map_append]
  rfl

/-- A child of an entry is one whose parent the entry is. -/
theorem mem_childrenFrom {start parent i : Nat} {es : List OutlineEntry} :
    i ∈ childrenFrom start es parent ↔
      ∃ k e, es[k]? = some e ∧ i = start + k ∧ e.parent = some parent := by
  unfold childrenFrom
  simp only [List.mem_map, List.mem_filter, decide_eq_true_eq]
  constructor
  · rintro ⟨⟨e, i⟩, ⟨hm, hp⟩, rfl⟩
    rw [List.mk_mem_zipIdx_iff_le_and_getElem?_sub] at hm
    exact ⟨i - start, e, hm.2, by omega, hp⟩
  · rintro ⟨k, e, he, rfl, hp⟩
    exact ⟨(e, start + k), ⟨by simpa [List.mk_mem_zipIdx_iff_le_and_getElem?_sub] using he, hp⟩, rfl⟩

/-- Where nothing has the entry for a parent it has no children. -/
theorem childrenFrom_eq_nil {start parent : Nat} {es : List OutlineEntry}
    (h : ∀ e ∈ es, e.parent ≠ some parent) : childrenFrom start es parent = [] := by
  refine List.eq_nil_iff_forall_not_mem.mpr fun i hi => ?_
  obtain ⟨k, e, he, -, hp⟩ := mem_childrenFrom.mp hi
  exact h e (List.mem_of_getElem? he) hp

/-- The first entry of a stretch is a child or not, and so are the others. -/
theorem childrenFrom_cons {start parent : Nat} {e : OutlineEntry} {es : List OutlineEntry} :
    childrenFrom start (e :: es) parent
      = (if e.parent = some parent then [start] else []) ++ childrenFrom (start + 1) es parent := by
  unfold childrenFrom
  rw [List.zipIdx_cons, List.filter_cons]
  by_cases h : e.parent = some parent <;> simp [h]

/-- The children of a node start where the subtrees of those before them end. -/
theorem childrenFrom_childEntries (address : Address) (place : List Nat)
    (parent position markupPosition next : Nat) (children : List Node) (hn : parent < next) :
    childrenFrom next (childEntries address place parent position markupPosition next children)
      parent = starts next children := by
  induction children generalizing position markupPosition next with
  | nil => rfl
  | cons child rest ih =>
    simp only [childEntries]
    rw [childrenFrom_append, starts, length_entries, ih _ _ _ (by omega)]
    -- Of the entries of the first child only that of its root has this parent.
    have first (address : Address) (place : List Nat) :
        childrenFrom next (entries address place (some parent) next child) parent = [next] := by
      obtain ⟨head, children⟩ := child
      rw [entries, childrenFrom_cons, if_pos rfl, childrenFrom_eq_nil, List.append_nil]
      intro e he hp
      obtain ⟨k, hk⟩ := List.mem_iff_getElem?.mp he
      rcases parent_of_childEntries hk with h | ⟨p, -, h⟩ <;>
      · have := Option.some.inj (hp.symm.trans h)
        omega
    rw [first, List.singleton_append]

mutual
/-- The children of an entry of a subtree are found from its node. -/
theorem childrenFrom_entries (address : Address) (place : List Nat) (parent : Option Nat)
    (index : Nat) (hp : ∀ p ∈ parent, p < index) :
    ∀ (n : Node) {k : Nat} {e : OutlineEntry},
      (entries address place parent index n)[k]? = some e →
        childrenFrom index (entries address place parent index n) (index + k)
          = starts (index + k + 1) e.node.children
  | ⟨head, children⟩, 0, e, h => by
    rw [getElem?_entries_zero] at h
    obtain rfl := Option.some.inj h
    rw [entries, childrenFrom_cons, if_neg, List.nil_append]
    · exact childrenFrom_childEntries address place index 0 0 (index + 1) children (by omega)
    · intro he
      exact absurd (hp _ he) (by omega)
  | ⟨head, children⟩, k + 1, e, h => by
    rw [entries, List.getElem?_cons_succ] at h
    rw [entries, childrenFrom_cons, if_neg, List.nil_append]
    · have := childrenFrom_childEntries_at address place index 0 0 (index + 1) (by omega) children h
      rwa [show index + 1 + k = index + (k + 1) by omega] at this
    · intro he
      exact absurd (hp _ he) (by omega)

/-- In the entries of some children those of one have its own children only. -/
theorem childrenFrom_childEntries_at (address : Address) (place : List Nat)
    (parent position markupPosition next : Nat) (hn : parent < next) :
    ∀ (children : List Node) {k : Nat} {e : OutlineEntry},
      (childEntries address place parent position markupPosition next children)[k]? = some e →
        childrenFrom next
          (childEntries address place parent position markupPosition next children) (next + k)
          = starts (next + k + 1) e.node.children
  | [], k, e, h => by simp [childEntries] at h
  | child :: rest, k, e, h => by
    rw [childEntries] at h ⊢
    simp only [length_entries] at h ⊢
    set own := entries (address ++ [position])
      (if child.head.isRepeated then place else place ++ [markupPosition]) (some parent) next child
      with hown
    have length : own.length = child.size := length_entries ..
    rw [childrenFrom_append, length]
    rcases Nat.lt_or_ge k child.size with hk | hk
    · rw [List.getElem?_append_left (by rwa [length])] at h
      rw [childrenFrom_entries _ _ _ _ (by simpa using hn) child h, childrenFrom_eq_nil,
        List.append_nil]
      intro e he hp
      obtain ⟨j, hj⟩ := List.mem_iff_getElem?.mp he
      rcases parent_of_childEntries hj with h | ⟨p, -, h⟩ <;>
      · have := Option.some.inj (hp.symm.trans h)
        omega
    · rw [List.getElem?_append_right (by rwa [length]), length] at h
      have rest := childrenFrom_childEntries_at address place parent (position + 1) _
        (next + child.size) (by omega) rest h
      rw [show next + child.size + (k - child.size) = next + k by omega] at rest
      rw [rest, childrenFrom_eq_nil, List.nil_append]
      intro e he hp
      obtain ⟨j, hj⟩ := List.mem_iff_getElem?.mp he
      have hlt := (List.getElem?_eq_some_iff.mp hj).1
      rcases parent_of_entries hj with ⟨-, h⟩ | ⟨p, hp', h⟩
      · have := Option.some.inj (hp.symm.trans h)
        omega
      · have := Option.some.inj (hp.symm.trans h)
        omega
end

/-- The children of an entry are those in the whole outline. -/
theorem childrenOf_eq_childrenFrom (o : Outline) (parent : Nat) :
    o.childrenOf parent = childrenFrom 0 o parent := by
  have range : List.range o.length = o.zipIdx.map (·.2) := by
    rw [List.zipIdx_map_snd, List.range_eq_range']
  rw [childrenOf, childrenFrom, range, List.filter_map]
  refine congrArg _ (List.filter_congr fun x hx => ?_)
  rw [Function.comp, List.mem_zipIdx_iff_getElem?.mp hx]
  rfl

/-- The children of an entry start where the subtrees of those before them end. -/
theorem childrenOf_eq {root : Node} {n : Nat} {e : OutlineEntry}
    (h : (ofRoot root)[n]? = some e) :
    (ofRoot root).childrenOf n = starts (n + 1) e.node.children := by
  have := childrenFrom_entries [] [] none 0 (by simp) root h
  rw [Nat.zero_add] at this
  rw [childrenOf_eq_childrenFrom]
  exact this

/-- The children of a node have positions after its own. -/
theorem lt_of_mem_starts {next : Nat} {children : List Node} {s : Nat}
    (h : s ∈ starts next children) : next ≤ s ∧ s < next + Node.sizeAll children := by
  induction children generalizing next with
  | nil => cases h
  | cons child rest ih =>
    have := child.size_pos
    rw [Node.sizeAll]
    rcases List.mem_cons.mp h with rfl | hs
    · omega
    · have := ih hs
      omega

/-- Children start at different entries. -/
theorem nodup_starts (next : Nat) (children : List Node) : (starts next children).Nodup := by
  induction children generalizing next with
  | nil => exact List.nodup_nil
  | cons child rest ih =>
    refine List.nodup_cons.mpr ⟨fun hm => ?_, ih _⟩
    have := (lt_of_mem_starts hm).1
    have := child.size_pos
    omega

/-- The children of an entry of a subtree are in the subtree. -/
theorem lt_of_mem_starts_entries {address : Address} {place : List Nat} {parent : Option Nat}
    {index : Nat} (hp : ∀ p ∈ parent, p < index) {n : Node} {k s : Nat} {e : OutlineEntry}
    (h : (entries address place parent index n)[k]? = some e)
    (hs : s ∈ starts (index + k + 1) e.node.children) : index ≤ s ∧ s < index + n.size := by
  rw [← childrenFrom_entries address place parent index hp n h] at hs
  obtain ⟨j, e, hj, rfl, -⟩ := mem_childrenFrom.mp hs
  have := (List.getElem?_eq_some_iff.mp hj).1
  rw [length_entries] at this
  omega

/-! ## The entries of children -/

/-- The entries of the children of a node, found by their position. -/
theorem getElem?_childEntries {address : Address} {place : List Nat}
    {parent position markupPosition next : Nat} {children : List Node} {q s : Nat} {child : Node}
    (hs : (starts next children)[q]? = some (next + s)) (hq : children[q]? = some child) :
    (childEntries address place parent position markupPosition next children)[s]?
      = some ⟨address ++ [position + q], if child.head.isRepeated then place
          else place ++ [markupPosition + markupCount (children.take q)], child, some parent⟩ := by
  induction children generalizing position markupPosition next q s with
  | nil => simp at hq
  | cons first rest ih =>
    rw [childEntries]
    cases q with
    | zero =>
      obtain rfl := Option.some.inj hq
      obtain rfl : 0 = s := by
        have := Option.some.inj hs
        omega
      rw [List.getElem?_append_left (by rw [length_entries]; exact first.size_pos),
        getElem?_entries_zero]
      simp [markupCount]
    | succ q =>
      rw [List.getElem?_cons_succ] at hq
      rw [starts, List.getElem?_cons_succ] at hs
      have hle := (lt_of_mem_starts (List.mem_of_getElem? hs)).1
      rw [List.getElem?_append_right (by rw [length_entries]; omega), length_entries,
        ih (by rw [hs]; congr 1; omega) hq, List.take_succ_cons]
      congr 2
      · rw [show position + 1 + q = position + (q + 1) by omega]
      · cases h : first.head.isRepeated <;> simp [markupCount, h, Nat.add_assoc, Nat.add_comm 1]

mutual
/-- What comes after an entry begins with what is below it. -/
theorem drop_entries (address : Address) (place : List Nat) (parent : Option Nat) (index : Nat) :
    ∀ (n : Node) {k : Nat} {e : OutlineEntry},
      (entries address place parent index n)[k]? = some e →
        ∃ rest, (entries address place parent index n).drop (k + 1)
          = childEntries e.address e.place (index + k) 0 0 (index + k + 1) e.node.children ++ rest
  | ⟨head, children⟩, 0, e, h => by
    rw [getElem?_entries_zero] at h
    obtain rfl := Option.some.inj h
    exact ⟨[], by rw [entries]; simp⟩
  | ⟨head, children⟩, k + 1, e, h => by
    rw [entries, List.getElem?_cons_succ] at h
    obtain ⟨rest, hr⟩ := drop_childEntries address place index 0 0 (index + 1) children h
    refine ⟨rest, ?_⟩
    rw [entries, List.drop_succ_cons, hr, show index + 1 + k = index + (k + 1) by omega]

/-- From the entry of a child on the entries begin with its tree. -/
theorem drop_childEntries (address : Address) (place : List Nat)
    (parent position markupPosition next : Nat) :
    ∀ (children : List Node) {k : Nat} {e : OutlineEntry},
      (childEntries address place parent position markupPosition next children)[k]? = some e →
        ∃ rest, (childEntries address place parent position markupPosition next children).drop (k + 1)
          = childEntries e.address e.place (next + k) 0 0 (next + k + 1) e.node.children ++ rest
  | [], k, e, h => by simp [childEntries] at h
  | child :: rest, k, e, h => by
    rw [childEntries] at h ⊢
    rcases Nat.lt_or_ge k child.size with hk | hk
    · rw [List.getElem?_append_left (by rwa [length_entries])] at h
      obtain ⟨after, ha⟩ := drop_entries _ _ _ _ child h
      rw [List.drop_append_of_le_length (by rw [length_entries]; omega), ha, List.append_assoc]
      exact ⟨_, rfl⟩
    · rw [List.getElem?_append_right (by rwa [length_entries]), length_entries] at h
      obtain ⟨after, ha⟩ := drop_childEntries _ _ _ _ _ _ rest h
      refine ⟨after, ?_⟩
      rw [List.drop_append, List.drop_eq_nil_of_le (by rw [length_entries]; omega),
        List.nil_append, length_entries, show k + 1 - child.size = k - child.size + 1 by omega,
        ha, show next + child.size + (k - child.size) = next + k by omega]
end

/-- The entry of the child of a node at a position. -/
theorem getElem?_child {root : Node} {n : Nat} {e : OutlineEntry} (h : (ofRoot root)[n]? = some e)
    {q m : Nat} {child : Node} (hm : ((ofRoot root).childrenOf n)[q]? = some m)
    (hq : e.node.children[q]? = some child) :
    (ofRoot root)[m]? = some ⟨e.address ++ [q], if child.head.isRepeated then e.place
      else e.place ++ [markupCount (e.node.children.take q)], child, some n⟩ := by
  rw [childrenOf_eq h] at hm
  obtain ⟨rest, hr⟩ := drop_entries [] [] none 0 root h
  rw [Nat.zero_add] at hr
  obtain ⟨s, rfl⟩ := Nat.le.dest (lt_of_mem_starts (List.mem_of_getElem? hm)).1
  have entry : (childEntries e.address e.place n 0 0 (n + 1) e.node.children)[s]?
      = some ⟨e.address ++ [0 + q], if child.head.isRepeated then e.place
          else e.place ++ [0 + markupCount (e.node.children.take q)], child, some n⟩ :=
    getElem?_childEntries hm hq
  rw [Nat.zero_add, Nat.zero_add] at entry
  rw [ofRoot, ← List.getElem?_drop, hr,
    List.getElem?_append_left (List.getElem?_eq_some_iff.mp entry).1, entry]

/-- Every child starts somewhere. -/
theorem length_starts (next : Nat) (children : List Node) :
    (starts next children).length = children.length := by
  induction children generalizing next with
  | nil => rfl
  | cons child rest ih => rw [starts, List.length_cons, ih, List.length_cons]

/-- No two entries have the same address. -/
theorem eq_of_address {root : Node} {i j : Nat} {a b : OutlineEntry}
    (hi : (ofRoot root)[i]? = some a) (hj : (ofRoot root)[j]? = some b)
    (h : a.address = b.address) : i = j := by
  have sorted := List.pairwise_iff_getElem.mp (pairwise_ofRoot root)
  obtain ⟨hi', rfl⟩ := List.getElem?_eq_some_iff.mp hi
  obtain ⟨hj', rfl⟩ := List.getElem?_eq_some_iff.mp hj
  rcases Nat.lt_trichotomy i j with hij | hij | hij
  · exact absurd (h ▸ sorted i j hi' hj' hij) (Address.order_self_ne_lt _)
  · exact hij
  · exact absurd (h ▸ sorted j i hj' hi' hij) (Address.order_self_ne_lt _)

/-- The child at a position stands at that position among the children. -/
theorem getElem?_childrenOf {root : Node} {n m : Nat} {a e : OutlineEntry}
    (ha : (ofRoot root)[n]? = some a) (he : (ofRoot root)[m]? = some e) {position : Nat}
    (h : ChildAt a position e) : ((ofRoot root).childrenOf n)[position]? = some m := by
  have hlt := (List.getElem?_eq_some_iff.mp h.node).1
  rw [← length_starts (n + 1), ← childrenOf_eq ha] at hlt
  have entry := getElem?_child ha (List.getElem?_eq_getElem hlt) h.node
  rw [List.getElem?_eq_getElem hlt]
  exact congrArg some (eq_of_address entry he h.address.symm)

/-- A child of a node stands at some position among its children. -/
theorem exists_child {root : Node} {n m : Nat} {a e : OutlineEntry}
    (ha : (ofRoot root)[n]? = some a) (he : (ofRoot root)[m]? = some e)
    (hp : e.parent = some n) : ∃ position, ChildAt a position e ∧
      ((ofRoot root).childrenOf n)[position]? = some m := by
  rcases parent_ofRoot he with ⟨-, rfl⟩ | ⟨p, -, b, position, hb, hp', hc⟩
  · cases hp
  · obtain rfl : n = p := Option.some.inj (hp.symm.trans hp')
    obtain rfl : a = b := Option.some.inj (ha.symm.trans hb)
    exact ⟨position, hc, getElem?_childrenOf ha he hc⟩

end Outline

end ComponentView
