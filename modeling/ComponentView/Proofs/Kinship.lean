import ComponentView.Proofs.Preorder
import ComponentView.Proofs.Layout.Steps

/-! # Parents and children in an outline

Every entry but the first has its parent before it, among whose children its node is, and every
child of a node has an entry (`Outline.parent_ofRoot`, `Outline.child_ofRoot`). With what the checks
refuse this gives all that the walk takes for granted (`Outline.sound_ofRoot`). -/

namespace ComponentView

namespace Outline

/-- The number of nodes with markup of their own. -/
def markupCount (ns : List Node) : Nat := ns.countP fun n => !n.head.isRepeated

/-- The entry of the child of a node at a position. -/
structure ChildAt (a : OutlineEntry) (position : Nat) (e : OutlineEntry) : Prop where
  node : a.node.children[position]? = some e.node
  address : e.address = a.address ++ [position]
  place : e.place = if e.node.head.isRepeated then a.place
    else a.place ++ [markupCount (a.node.children.take position)]

/-- The position of an entry after those of `front`, counted from `start`. -/
private theorem getElem?_append_shift {front back : List OutlineEntry} {k : Nat}
    {e : OutlineEntry} (h : back[k]? = some e) : (front ++ back)[front.length + k]? = some e := by
  rw [List.getElem?_append_right (Nat.le_add_right _ _), Nat.add_sub_cancel_left]
  exact h

/-- The first entry of a subtree is that of its root. -/
theorem getElem?_entries_zero (address : Address) (place : List Nat) (parent : Option Nat)
    (index : Nat) (n : Node) :
    (entries address place parent index n)[0]? = some ⟨address, place, n, parent⟩ := by
  cases n
  simp [entries]

/-- The entry of the next child, after those that were passed. -/
theorem childAt_next {a : OutlineEntry} {passed children : List Node} {child : Node}
    {parent : Option Nat} (h : a.node.children = passed ++ child :: children) :
    ChildAt a passed.length
      ⟨a.address ++ [passed.length],
        if child.head.isRepeated then a.place else a.place ++ [markupCount passed], child,
        parent⟩ where
  node := by simp [h]
  address := rfl
  place := by simp [h]

/-- The next position in the markup, after one more child. -/
theorem markupCount_next (passed : List Node) (child : Node) :
    (if child.head.isRepeated then markupCount passed else markupCount passed + 1)
      = markupCount (passed ++ [child]) := by
  cases h : child.head.isRepeated <;> simp [markupCount, List.countP_append, h]

mutual
/-- In a subtree every entry but the first has its parent before it. -/
theorem parent_entries (address : Address) (place : List Nat) (parent : Option Nat) (index : Nat) :
    ∀ (n : Node) {k : Nat} {e : OutlineEntry},
      (entries address place parent index n)[k]? = some e →
        (k = 0 ∧ e = ⟨address, place, n, parent⟩) ∨
        ∃ p < k, ∃ a position, (entries address place parent index n)[p]? = some a ∧
          e.parent = some (index + p) ∧ ChildAt a position e
  | ⟨head, children⟩, 0, e, h => by
    rw [getElem?_entries_zero] at h
    exact Or.inl ⟨rfl, (Option.some.inj h).symm⟩
  | ⟨head, children⟩, k + 1, e, h => by
    rw [entries, List.getElem?_cons_succ] at h
    rcases parent_childEntries ⟨address, place, ⟨head, children⟩, parent⟩ [] index (index + 1)
      children rfl h with ⟨hp, position, hc⟩ | ⟨p, hk, a, position, ha, hp, hc⟩
    · exact Or.inr ⟨0, by omega, _, position, getElem?_entries_zero .., hp, hc⟩
    · exact Or.inr ⟨p + 1, by omega, a, position, by rw [entries]; exact ha,
        by rw [hp]; congr 1; omega, hc⟩

/-- Among the entries below a node every one has its parent before it, or is a child of the node. -/
theorem parent_childEntries (a : OutlineEntry) (passed : List Node) (parent next : Nat) :
    ∀ (children : List Node), a.node.children = passed ++ children →
      ∀ {k : Nat} {e : OutlineEntry},
        (childEntries a.address a.place parent passed.length (markupCount passed) next
          children)[k]? = some e →
        (e.parent = some parent ∧ ∃ position, ChildAt a position e) ∨
        ∃ p < k, ∃ b position,
          (childEntries a.address a.place parent passed.length (markupCount passed) next
            children)[p]? = some b ∧ e.parent = some (next + p) ∧ ChildAt b position e
  | [], _, k, e, h => by simp [childEntries] at h
  | child :: children, hc, k, e, h => by
    rw [childEntries] at h ⊢
    set place := if child.head.isRepeated then a.place else a.place ++ [markupCount passed]
    set own := entries (a.address ++ [passed.length]) place (some parent) next child with hown
    by_cases hk : k < own.length
    · -- The entry belongs to the first child.
      rw [List.getElem?_append_left hk] at h
      rcases parent_entries _ _ _ _ child h with ⟨-, rfl⟩ | ⟨p, hp, b, position, hb, rest⟩
      · exact Or.inl ⟨rfl, _, childAt_next hc⟩
      · refine Or.inr ⟨p, hp, b, position, ?_, rest⟩
        rw [List.getElem?_append_left (List.getElem?_eq_some_iff.mp hb).1]
        exact hb
    · rw [List.getElem?_append_right (Nat.not_lt.mp hk), markupCount_next,
        show passed.length + 1 = (passed ++ [child]).length by simp] at h
      rcases parent_childEntries a (passed ++ [child]) parent (next + own.length) children
        (by simpa using hc) h with h | ⟨p, hp, b, position, hb, he, hc⟩
      · exact Or.inl h
      · refine Or.inr ⟨own.length + p, by omega, b, position, ?_, by rw [he]; congr 1; omega, hc⟩
        rw [markupCount_next, show passed.length + 1 = (passed ++ [child]).length by simp]
        exact getElem?_append_shift hb
end

/-- The first entry of a component is that of its root; every other one has its parent before it. -/
theorem parent_ofRoot {root : Node} {i : Nat} {e : OutlineEntry} (h : (ofRoot root)[i]? = some e) :
    (i = 0 ∧ e = ⟨[], [], root, none⟩) ∨
      ∃ p < i, ∃ a position, (ofRoot root)[p]? = some a ∧ e.parent = some p ∧
        ChildAt a position e := by
  rcases parent_entries [] [] none 0 root h with h | ⟨p, hp, a, position, ha, he, hc⟩
  · exact Or.inl h
  · exact Or.inr ⟨p, hp, a, position, ha, by simpa using he, hc⟩

/-! ## What the checks make sure of -/

/-- The outline of a root that passes the checks. -/
structure Accepts (root : Node) : Prop where
  rooted : root.checkRoot = .ok ()
  checked : (ofRoot root).check = .ok ()

/-- A loop without a fault has no fault at any step. -/
theorem forM_ok {α ε : Type} {f : α → Except ε Unit} {xs : List α} (h : xs.forM f = .ok ()) :
    ∀ x ∈ xs, f x = .ok () := by
  induction xs with
  | nil => simp
  | cons x xs ih =>
    rw [List.forM_eq_forM, List.forM_cons] at h
    cases hx : f x with
    | error fault => rw [hx] at h; cases h
    | ok u =>
      rw [hx] at h
      exact List.forall_mem_cons.mpr ⟨hx, ih h⟩

/-- No entry of an accepted component has a fault. -/
theorem Accepts.not_fault {root : Node} (h : Accepts root) {i : Nat} {e : OutlineEntry}
    (hi : (ofRoot root)[i]? = some e) {b : Bool} {c : CompileFault}
    (hf : (b, c) ∈ faults ((ofRoot root).take i) ((ofRoot root).elementSiblings e) e) :
    b = false := by
  have hm : (e, i) ∈ (ofRoot root).zipIdx := List.mem_zipIdx_iff_getElem?.mpr hi
  have checked : (ofRoot root).checkEntry i e = .ok () := forM_ok h.checked (e, i) hm
  rw [checkEntry] at checked
  cases hfind : (faults ((ofRoot root).take i) ((ofRoot root).elementSiblings e) e).find? (·.1) with
  | some f => rw [hfind] at checked; cases checked
  | none => simpa using List.find?_eq_none.mp hfind _ hf

/-- A child component of an accepted component has no children. -/
theorem Accepts.children {root : Node} (h : Accepts root) {i : Nat} {e : OutlineEntry}
    (hi : (ofRoot root)[i]? = some e) (hc : e.node.head.isComponent = true) :
    e.node.children = [] := by
  have := h.not_fault hi (b := e.node.head.isComponent && !e.node.children.isEmpty)
    (c := .nestedChildren e.address) (by simp [faults])
  simpa [hc] using this

/-- A repeated node of an accepted component is always visible. -/
theorem Accepts.visibility {root : Node} (h : Accepts root) {i : Nat} {e : OutlineEntry}
    (hi : (ofRoot root)[i]? = some e) (hr : e.node.head.isRepeated = true) :
    e.node.head.visibility = none := by
  have := h.not_fault hi (b := e.node.head.isRepeated && e.node.head.visibility.isSome)
    (c := .conditionalRepeat e.address) (by simp [faults])
  simpa [hr] using this

/-- No two parts of an accepted component have the same name. -/
theorem Accepts.part {root : Node} (h : Accepts root) {i j : Nat} {a b : OutlineEntry}
    (hi : (ofRoot root)[i]? = some a) (hj : (ofRoot root)[j]? = some b) (hij : i < j)
    {name : String} (ha : a.node.head.part = some name) : b.node.head.part ≠ some name := by
  intro hb
  have := h.not_fault hj (b := b.node.head.part.isSome &&
      ((ofRoot root).take j).any fun other => other.node.head.part = b.node.head.part)
    (c := .duplicatePart (b.node.head.part.getD "") b.address) (by simp [faults])
  rw [hb, Option.isSome_some, Bool.true_and, List.any_eq_false] at this
  have hm : a ∈ (ofRoot root).take j :=
    List.mem_of_getElem? (i := i) (by rw [List.getElem?_take, if_pos hij, hi])
  exact this a hm (by simpa using ha)

/-- What is known of an accepted root. -/
theorem Accepts.head {root : Node} (h : Accepts root) :
    root.head.visibility = none ∧ root.head.isElement = true ∧
      root.head.isComponent = false := by
  have := h.rooted
  unfold Node.checkRoot at this
  unfold NodeHead.isComponent
  split at this
  · cases this
  · next hv =>
    split at this
    · cases this
    · next he =>
      split at this
      · cases this
      · split at this
        · cases this
        · next hn =>
          split at this
          · cases this
          · next hs => exact ⟨by simpa using hv, by simpa using he, by simp_all⟩

/-- The outline of an accepted component is what the walk takes for granted. -/
theorem Accepts.sound {root : Node} (h : Accepts root) : (ofRoot root).Sound where
  parent {i e p} hi hp := by
    rcases parent_ofRoot hi with ⟨-, rfl⟩ | ⟨p', hlt, a, position, ha, he, hc⟩
    · cases hp
    · obtain rfl : p = p' := by simpa [hp] using he
      refine ⟨hlt, a, ha, Bool.eq_false_iff.mpr fun hcomp => ?_⟩
      have := hc.node
      rw [h.children ha hcomp] at this
      cases this
  repeated {i e} hi hr := by
    refine ⟨?_, h.visibility hi hr⟩
    rcases parent_ofRoot hi with ⟨-, rfl⟩ | ⟨p, -, -, -, -, he, -⟩
    · have := h.head.2.2
      simp_all [NodeHead.isComponent, NodeHead.isRepeated]
    · rw [he]
      rfl

end Outline

end ComponentView
