import ComponentView.Document.Content
import ComponentView.Proofs.Document.Forest
import ComponentView.Tracker

/-! # Writing to stale nodes

The number of a released node may still be written to. While no new node has got it, such a write
reaches nothing: the live nodes of the document stay as they are, and no node becomes live
(`Document.Sustains`). This takes that a node that is moved is stale, so not live and not below a live
node either. -/

namespace ComponentView

namespace Document

variable {L : Type} {d later latest : Document L} {i parent : NodeId}

/-- The node is not live, and neither is the parent that it may still have. -/
def Stale (d : Document L) (i : NodeId) : Prop :=
  d.isLive i = false ∧ ∀ p, d.parent? i = some p → d.isLive p = false

/-- Live nodes stay as they are, no node becomes live, and stale nodes stay stale. -/
structure Sustains (d later : Document L) : Prop where
  live : ∀ i, d.isLive i = true → later.node i = d.node i
  dead : ∀ i, d.isLive i = false → later.isLive i = false
  stale : ∀ i, d.Stale i → later.Stale i

namespace Sustains

/-- A document that stays as it is sustains its nodes. -/
theorem refl (d : Document L) : d.Sustains d := ⟨fun _ _ => rfl, fun _ h => h, fun _ h => h⟩

/-- What is sustained and sustained again has been sustained. -/
theorem trans (h : d.Sustains later) (h' : later.Sustains latest) : d.Sustains latest where
  live i hi := by
    have same := h.live i hi
    rw [h'.live i (by rw [isLive, same]; exact hi), same]
  dead i hi := h'.dead i (h.dead i hi)
  stale i hi := h'.stale i (h.stale i hi)

/-- Counting changes no node. -/
theorem count (d : Document L) (f : Tally → Tally) : d.Sustains (d.count f) :=
  ⟨fun _ _ => rfl, fun _ h => h, fun _ h => h⟩

/-- A node that is not live may be changed if it stays so, and below no live node. -/
theorem update {f : DocNode L → DocNode L} (dead : d.isLive i = false)
    (kind : ∀ n, (f n).kind = n.kind)
    (above : ∀ n p, (f n).parent = some p → n.parent = some p ∨ d.isLive p = false) :
    d.Sustains (d.update i f) := by
  have live (j : NodeId) : (d.update i f).isLive j = d.isLive j := by
    unfold isLive
    rw [node_update]
    split
    · rw [kind]
    · rfl
  refine ⟨fun j hj => ?_, fun j hj => (live j).trans hj, fun j hj => ⟨(live j).trans hj.1, ?_⟩⟩
  · rw [node_update, if_neg]
    rintro ⟨rfl, -⟩
    rw [dead] at hj
    cases hj
  · intro p hp
    rw [live]
    rw [parent?, node_update] at hp
    split at hp
    · exact (above _ p hp).elim (hj.2 p) id
    · exact hj.2 p hp

end Sustains

/-! ## Content -/

/-- An attribute of a node that is not live may be written. -/
theorem sustains_setAttribute (dead : d.isLive i = false) (name : String) (value : Option String) :
    d.Sustains (d.setAttribute i name value) := by
  unfold setAttribute
  split
  · exact .refl d
  · refine Sustains.trans ?_ (.count _ _)
    exact .update dead (fun _ => rfl) fun _ _ h => .inl h

/-- A node that is not live has no text. -/
theorem sustains_setText (dead : d.isLive i = false) (content : String) :
    d.Sustains (d.setText i content) := by
  have none : (d.node i).kind = none := Option.not_isSome_iff_eq_none.mp (ne_true_of_eq_false dead)
  unfold setText
  rw [none]
  exact .refl d

/-- A class of a node that is not live may be switched. -/
theorem sustains_setClass (dead : d.isLive i = false) (name : String) (on : Bool) :
    d.Sustains (d.setClass i name on) := by
  unfold setClass
  split
  · exact .refl d
  · split <;> exact sustains_setAttribute dead _ _

/-- A style property of a node that is not live may be written. -/
theorem sustains_setStyle (dead : d.isLive i = false) (property : String)
    (value : Option String) : d.Sustains (d.setStyle i property value) :=
  sustains_setAttribute dead _ _

/-! ## Moves -/

/-- A stale node may leave a parent that is not live. -/
theorem sustains_unlink (above : d.isLive parent = false) (dead : d.isLive i = false) :
    d.Sustains (d.unlink parent i) := by
  have left : d.Sustains (d.update parent fun n => { n with children := n.children.filter (· ≠ i) }) :=
    .update above (fun _ => rfl) fun _ _ h => .inl h
  exact left.trans (.update (left.dead i dead) (fun _ => rfl) fun _ _ h => nomatch h)

/-- A stale node may be taken out of a parent. -/
theorem Stale.sustains_remove (h : d.Stale i) (parent : NodeId) : d.Sustains (d.remove parent i) := by
  unfold remove
  split
  · next hp => exact (sustains_unlink (h.2 parent hp) h.1).trans (.count _ _)
  · exact .refl d

/-- Releasing a node that is not live changes nothing. -/
theorem sustains_release (dead : d.isLive i = false) : d.Sustains (d.release i) := by
  unfold release
  rw [dead]
  exact .refl d

/-- A stale node may be put into a parent that is not live. -/
theorem Stale.sustains_insertBefore (h : d.Stale i) (above : d.isLive parent = false)
    (reference : Option NodeId) : d.Sustains (d.insertBefore parent i reference) := by
  have joins {later : Document L} (loose : d.Sustains later) (f : Tally → Tally) :
      d.Sustains (((later.update parent fun n =>
        { n with children := placeBefore i reference n.children }).update i
          fun n => { n with parent := some parent }).count f) := by
    have joined := loose.trans (.update (loose.dead parent above)
      (f := fun n => { n with children := placeBefore i reference n.children }) (fun _ => rfl)
      fun _ _ h => .inl h)
    refine .trans (joined.trans ?_) (.count _ f)
    refine .update (joined.dead i h.1) (fun _ => rfl) fun _ p hp => .inr ?_
    exact Option.some.inj hp ▸ joined.dead parent above
  unfold insertBefore
  split
  · next old hold => exact joins (sustains_unlink (h.2 old hold) h.1) _
  · exact joins (.refl d) _

/-- A tracker may show and hide a stale node of a parent that is not live. -/
theorem Stale.sustains_apply (h : d.Stale i) (above : d.isLive parent = false) (t : Tracker)
    (position : Nat) (visible : Bool) :
    d.Sustains (t.apply d position parent i visible).2.1 := by
  unfold Tracker.apply
  split
  · exact .refl d
  · split
    · exact h.sustains_insertBefore above _
    · exact h.sustains_remove parent

end Document

end ComponentView
