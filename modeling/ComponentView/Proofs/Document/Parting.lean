import ComponentView.Proofs.Document.Links
import Mathlib.Data.Set.Insert

/-! # Nodes that are taken out

Taking nodes out of their parents changes no other link and nothing but links; it makes no node and
releases none (`Document.Parted`). -/

namespace ComponentView

variable {L : Type}

/-- The node without its links. -/
def DocNode.bare (n : DocNode L) : DocNode L := { n with parent := none, children := [] }

namespace Document

variable {d later latest : Document L} {X Y : Set NodeId} {i q : NodeId}

/-- The nodes in `X` have been taken out of their parents, and nothing else has changed. -/
structure Parted (X : Set NodeId) (d later : Document L) : Prop where
  size : later.size = d.size
  free : later.free = d.free
  bare : ∀ i, (later.node i).bare = (d.node i).bare
  gone : ∀ i ∈ X, later.parent? i = none
  rest : ∀ i ∉ X, later.parent? i = d.parent? i
  sublist : ∀ q, (later.children q).Sublist (d.children q)
  mem : ∀ {q i}, i ∈ later.children q ↔ i ∈ d.children q ∧ ¬ (i ∈ X ∧ d.parent? i = some q)

/-- A change of a link changes nothing else. -/
theorem bare_update (d : Document L) (i j : NodeId) {f : DocNode L → DocNode L}
    (hf : ∀ n, (f n).bare = n.bare) : ((d.update i f).node j).bare = (d.node j).bare := by
  rw [part_update DocNode.bare, hf, ite_self]

/-- Detaching changes nothing of a node but its links. -/
theorem bare_detach (i j : NodeId) : ((d.detach i).node j).bare = (d.node j).bare := by
  cases h : d.parent? i with
  | none => rw [Document.detach, h]
  | some p =>
    rw [detach_eq_remove h, remove, if_pos h, node_count]
    unfold unlink
    refine (bare_update _ i j ?_).trans (bare_update d p j ?_)
    · exact fun _ => rfl
    · exact fun _ => rfl

/-- Detaching frees nothing. -/
theorem free_detach (i : NodeId) : (d.detach i).free = d.free := by
  unfold detach
  split
  · unfold remove
    split <;> rfl
  · rfl

namespace Parted

/-- A document that stays as it is has parted with nothing. -/
theorem refl (d : Document L) : Parted ∅ d d where
  size := rfl
  free := rfl
  bare _ := rfl
  gone _ hi := hi.elim
  rest _ _ := rfl
  sublist _ := List.Sublist.refl _
  mem := ⟨fun h => ⟨h, fun hi => hi.1⟩, And.left⟩

/-- Nodes are taken out one after another. -/
theorem trans (h : Parted X d later) (h' : Parted Y later latest) : Parted (X ∪ Y) d latest where
  size := h'.size.trans h.size
  free := h'.free.trans h.free
  bare i := (h'.bare i).trans (h.bare i)
  gone i hi := by
    by_cases hy : i ∈ Y
    · exact h'.gone i hy
    · exact (h'.rest i hy).trans (h.gone i (hi.resolve_right hy))
  rest i hi := by
    rw [Set.mem_union, not_or] at hi
    exact (h'.rest i hi.2).trans (h.rest i hi.1)
  sublist q := (h'.sublist q).trans (h.sublist q)
  mem {q i} := by
    rw [h'.mem, h.mem, and_assoc]
    refine and_congr_right fun _ => ?_
    -- What has left before has no parent that it could leave again.
    by_cases hx : i ∈ X
    · simp [hx, h.gone i hx]
    · simp [hx, h.rest i hx]

/-- A node is detached. -/
theorem detach (h : Parted X d later) (i : NodeId) : Parted (insert i X) d (later.detach i) := by
  have step : Parted {i} later (later.detach i) :=
    { size := size_detach i
      free := free_detach i
      bare := bare_detach i
      gone := fun j hj => by rw [parent?_detach, if_pos (Set.mem_singleton_iff.mp hj)]
      rest := fun j hj => by rw [parent?_detach, if_neg (Set.mem_singleton_iff.not.mp hj)]
      sublist := fun q => by
        rw [children_detach]
        split
        · exact List.filter_sublist
        · exact List.Sublist.refl _
      mem := fun {q j} => by
        rw [children_detach]
        by_cases hj : j = i
        · subst hj
          split <;> simp_all
        · split <;> simp [hj] }
  exact Set.union_singleton ▸ h.trans step

/-- No node is made, and none released. -/
theorem isLive (h : Parted X d later) (i : NodeId) : later.isLive i = d.isLive i := by
  have := congrArg DocNode.kind (h.bare i)
  exact congrArg Option.isSome this

/-- As many nodes are live after the parting as before. -/
theorem liveCount (h : Parted X d later) : later.liveCount = d.liveCount := by
  have kinds : later.kinds = d.kinds := by
    refine Array.ext h.size fun i hi hi' => ?_
    have := congrArg DocNode.kind (h.bare i)
    simpa [DocNode.bare, node, hi, hi'] using this
  unfold Document.liveCount
  rw [kinds]

end Parted

end Document

end ComponentView
