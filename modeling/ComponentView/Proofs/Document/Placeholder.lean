import ComponentView.Proofs.Document.WellFormed

/-! # Taking the place of a node

A node that has just come in can take the place of a node without children, which is then released.
Nothing else changes but the parent of the two: what was live stays live, and every node that has no
children stays as it is (`Document.Extends.swap`). -/

namespace ComponentView

namespace Document

variable {L : Type} {d later : Document L}

/-! ## What a move leaves alone -/

/-- Inserting an orphan touches only it and its new parent. -/
theorem node_insertBefore_of_ne {p i j : NodeId} (hp : j ≠ p) (hi : j ≠ i)
    (orphan : d.parent? i = none) (reference : Option NodeId) :
    (d.insertBefore p i reference).node j = d.node j := by
  rw [insertBefore_eq, node_count, without_eq_self orphan, node_update,
    if_neg fun he => hi he.1.symm, node_update,
    if_neg fun he => hp he.1.symm]

/-- Removing a child touches only it and its parent. -/
theorem node_remove_of_ne {p i j : NodeId} (hp : j ≠ p) (hi : j ≠ i) :
    (d.remove p i).node j = d.node j := by
  unfold remove
  split
  · rw [node_count, unlink, node_update, if_neg fun he => hi he.1.symm, node_update,
      if_neg fun he => hp he.1.symm]
  · rfl

/-- Removing a child leaves every node of its kind. -/
theorem kind_remove (p i j : NodeId) : ((d.remove p i).node j).kind = (d.node j).kind := by
  unfold remove
  split
  · exact kind_unlink p i j
  · rfl

/-! ## A node in place of another -/

section Replace

variable {old i j : NodeId}

/-- A replacement leaves every node as live as it was. -/
theorem isLive_replace : (d.replace old i).isLive j = d.isLive j := by
  unfold replace isLive
  split
  · rw [kind_remove, kind_insertBefore]
  · rfl

/-- A replacement changes the parents of the two nodes only. -/
theorem parent?_replace_of_ne (hi : d.isLive i = true) (ho : j ≠ old) (hj : j ≠ i) :
    (d.replace old i).parent? j = d.parent? j := by
  unfold replace
  split
  · rw [parent?_remove, if_neg fun he => ho he.2, parent?_insertBefore (lt_size_of_isLive hi),
      if_neg hj]
  · rfl

/-- Only the two nodes and the parent of the first change. -/
theorem node_replace_of_ne (orphan : d.parent? i = none) (ho : j ≠ old) (hj : j ≠ i)
    (hp : d.parent? old ≠ some j) : (d.replace old i).node j = d.node j := by
  unfold replace
  split
  · next p h =>
    have hjp : j ≠ p := fun he => hp (he ▸ h)
    rw [node_remove_of_ne hjp ho, node_insertBefore_of_ne hjp hj orphan]
  · rfl

/-- The node that is replaced has no parent any more, or it has the one it had. -/
theorem parent?_replace_self (hi : d.isLive i = true) (hne : old ≠ i) {p : NodeId}
    (h : (d.replace old i).parent? old = some p) : d.parent? old = some p := by
  unfold replace at h
  split at h
  · next q hq =>
    rw [parent?_remove, parent?_insertBefore (lt_size_of_isLive hi), if_neg hne, hq] at h
    simp at h
  · exact h

end Replace

/-! ## A release of one node -/

/-- A node without children is released alone. -/
theorem WellFormed.node_release_of_bare (h : d.WellFormed) {x : NodeId} (hx : d.isLive x = true)
    (bare : d.children x = []) (j : NodeId) :
    (d.release x).node j = if j = x then {} else (d.without x).node j := by
  obtain ⟨height, falls⟩ := h.acyclic
  obtain ⟨gone, below, clears, -⟩ := release_spec h.toSound falls hx
  have alone (y : NodeId) : y ∈ gone ↔ y = x := by
    rw [below]
    constructor
    · intro hb
      rcases Relation.ReflTransGen.cases_head hb with rfl | ⟨c, hc, -⟩
      · rfl
      · have := children_without_subset x x hc
        rw [bare] at this
        cases this
    · rintro rfl
      exact .refl
  rw [clears.node]
  by_cases hj : j = x
  · rw [if_pos ((alone j).mpr hj), if_pos hj]
  · rw [if_neg fun hg => hj ((alone j).mp hg), if_neg hj]

/-! ## New nodes -/

/-- What was live is not below a new node. -/
theorem Extends.not_below {roots : List NodeId} (h : Extends d later roots) (hd : d.WellFormed)
    {r : NodeId} (hr : d.isLive r = false) {p : NodeId} (hp : d.isLive p = true) :
    ¬ later.Below r p := by
  intro hb
  have dead : d.isLive p = false := by
    clear hp
    induction hb with
    | refl => exact hr
    | @tail b c _ hc ih =>
      -- A child that was live would have had its parent already, which was then live as well.
      by_contra live
      have live : d.isLive c = true := by simpa using live
      have linked := h.wellFormed.linked hc
      rw [parent?, h.old live] at linked
      have := (hd.isLive_of_parent? linked).1
      rw [ih] at this
      cases this
  rw [hp] at dead
  cases dead

/-! ## Taking the place of a node -/

/-- A node takes the place of another, which is released; one that starts outside only has the other
released. -/
def swap (d : Document L) (startsOutside : Bool) (x r : NodeId) : Document L :=
  (if startsOutside then d else d.replace x r).release x

/-- A node without children can make way for a root that it is not below. -/
structure MakesWay (d : Document L) (x r : NodeId) : Prop where
  bare : d.children x = []
  live : d.isLive r = true
  ne : x ≠ r
  orphan : d.parent? r = none
  apart : ∀ p, d.parent? x = some p → ¬ d.Below r p

/-- At most the places of two nodes have changed, of which the first is without children. -/
structure Replaced (d later : Document L) (x r : NodeId) : Prop where
  wellFormed : later.WellFormed
  live : ∀ j, later.isLive j = d.isLive j
  parent? : ∀ {j}, j ≠ x → j ≠ r → later.parent? j = d.parent? j
  old : ∀ {p}, later.parent? x = some p → d.parent? x = some p
  bare : later.children x = []
  node : ∀ {j}, j ≠ x → j ≠ r → d.parent? x ≠ some j → later.node j = d.node j

/-- What is left of a document when a node has taken the place of another. -/
structure Swapped (d later : Document L) (x r : NodeId) : Prop where
  wellFormed : later.WellFormed
  live : ∀ {j}, j ≠ x → later.isLive j = d.isLive j
  parent? : ∀ {j}, j ≠ x → j ≠ r → later.parent? j = d.parent? j
  node : ∀ {j}, j ≠ x → j ≠ r → d.parent? x ≠ some j → later.node j = d.node j

/-- Where a node can make way for another, the replacement does what it should. -/
theorem WellFormed.replaced (h : d.WellFormed) {x r : NodeId} (way : d.MakesWay x r) :
    Replaced d (d.replace x r) x r where
  wellFormed := h.replace way.live way.apart
  live _ := isLive_replace
  parent? := parent?_replace_of_ne way.live
  old := parent?_replace_self way.live way.ne
  bare := by
    unfold Document.replace
    split
    · next p hp =>
      have hxp : x ≠ p := by
        rintro rfl
        have := h.up hp
        rw [way.bare] at this
        cases this
      rw [children_remove, if_neg fun he => hxp he.2,
        children_insertBefore (lt_size_of_isLive (h.isLive_of_parent? hp).1), if_neg hxp,
        without_eq_self way.orphan, way.bare]
    · exact way.bare
  node := node_replace_of_ne way.orphan

/-- With the old node released the replacement is complete. -/
theorem Replaced.release {x r : NodeId} (h : Replaced d later x r) (hx : d.isLive x = true) :
    Swapped d (later.release x) x r := by
  have node {j : NodeId} (hj : j ≠ x) : (later.release x).node j = (later.without x).node j := by
    rw [h.wellFormed.node_release_of_bare ((h.live x).trans hx) h.bare, if_neg hj]
  constructor
  · exact h.wellFormed.release x
  · intro j hj
    rw [isLive, node hj]
    exact (isLive_without x j).trans (h.live j)
  · intro j hj hr
    rw [Document.parent?, node hj]
    exact (parent?_without x j).trans ((if_neg hj).trans (h.parent? hj hr))
  · intro j hj hr hp
    rw [node hj, node_without_of_ne hj fun he => hp (h.old he)]
    exact h.node hj hr hp

/-- Where a node can make way for another, the swap does what it should. -/
theorem WellFormed.swapped (h : d.WellFormed) {x r : NodeId} (hx : d.isLive x = true)
    (way : d.MakesWay x r) (startsOutside : Bool) : Swapped d (d.swap startsOutside x r) x r := by
  cases startsOutside with
  | true =>
    have same : Replaced d d x r :=
      ⟨h, fun _ => rfl, fun _ _ => rfl, fun hp => hp, way.bare, fun _ _ _ => rfl⟩
    exact same.release hx
  | false => exact (h.replaced way).release hx

/-- A node without children can make way for the root of new nodes. -/
theorem Extends.makesWay {x r : NodeId} (h : Extends d later [r]) (hd : d.WellFormed)
    (hx : d.isLive x = true) (bare : d.children x = []) : later.MakesWay x r where
  bare := by
    rw [children, h.old hx]
    exact bare
  live := h.live r List.mem_cons_self
  ne := by
    rintro rfl
    rw [h.dead x List.mem_cons_self] at hx
    cases hx
  orphan := h.orphan r List.mem_cons_self
  apart p hp := by
    rw [parent?, h.old hx] at hp
    exact h.not_below hd (h.dead r List.mem_cons_self) (hd.isLive_of_parent? hp).1

/-- Of the new nodes one without children makes way for the root of other new nodes. The nodes from
before stay as they are, and so do those of the new ones that have no children. -/
theorem Extends.swap {mid : Document L} {root x r : NodeId} (hd : d.WellFormed)
    (h : Extends d mid [root]) (h' : Extends mid later [r]) (hx : mid.isLive x = true)
    (new : d.isLive x = false) (bare : mid.children x = []) (hne : x ≠ root)
    (startsOutside : Bool) :
    Extends d (later.swap startsOutside x r) [root] ∧
      (∀ {j}, j ≠ x → later.isLive j = true → (later.swap startsOutside x r).isLive j = true) ∧
      ∀ {j}, j ≠ x → mid.isLive j = true → mid.children j = [] →
        (later.swap startsOutside x r).children j = [] := by
  have ne {j : NodeId} (hj : mid.isLive j = true) : j ≠ r := by
    rintro rfl
    rw [h'.dead j List.mem_cons_self] at hj
    cases hj
  have parent {j : NodeId} (hj : mid.isLive j = true) : later.parent? j = mid.parent? j := by
    rw [parent?, h'.old hj, parent?]
  have swapped : Swapped later (later.swap startsOutside x r) x r :=
    h'.wellFormed.swapped (h'.isLive hx) (h'.makesWay h.wellFormed hx bare) startsOutside
  have liveroot : mid.isLive root = true := h.live root List.mem_cons_self
  refine ⟨⟨swapped.wellFormed, fun {j} hj => ?_, h.dead, ?_, ?_, h.nodup⟩, fun hj hl => ?_, ?_⟩
  · have hjx : j ≠ x := by
      rintro rfl
      rw [new] at hj
      cases hj
    have hp : later.parent? x ≠ some j := by
      -- The parent of a new node is no node from before, which has the children it had.
      intro hp
      rw [parent hx] at hp
      have child := h.wellFormed.up hp
      rw [children, h.old hj] at child
      have := hd.live child
      rw [new] at this
      cases this
    rw [swapped.node hjx (ne (h.isLive hj)) hp, h'.old (h.isLive hj), h.old hj]
  · rw [List.forall_mem_singleton, swapped.live hne.symm]
    exact h'.isLive liveroot
  · rw [List.forall_mem_singleton, swapped.parent? hne.symm (ne liveroot), parent liveroot]
    exact h.orphan root List.mem_cons_self
  · rw [swapped.live hj]
    exact hl
  · intro j hj hl hc
    have hp : later.parent? x ≠ some j := by
      intro hp
      rw [parent hx] at hp
      have child := h.wellFormed.up hp
      rw [hc] at child
      cases child
    rw [children, swapped.node hj (ne hl) hp, h'.old hl]
    exact hc

end Document

end ComponentView
