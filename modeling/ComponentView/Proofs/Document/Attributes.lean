import ComponentView.Document.Content
import ComponentView.Proofs.Document.Forest

/-! # Attributes that were written

An attribute that is there at most once is read as it was last written
(`Document.attribute?_setAttribute`). -/

namespace ComponentView

namespace Attributes

variable {name : String} {attributes : Attributes}

/-- The attribute is there at most once: where it is removed it is not there any more. -/
def Single (name : String) (attributes : Attributes) : Prop :=
  (remove name attributes).lookup name = none

/-- Removing an attribute that is not there changes nothing. -/
theorem remove_of_lookup (h : attributes.lookup name = none) :
    remove name attributes = attributes := by
  refine List.eraseP_of_forall_not fun entry he hn => ?_
  have := List.lookup_eq_none_iff.mp h entry he
  simp_all

/-- An attribute that is not there does not stand twice. -/
theorem single_of_lookup (h : attributes.lookup name = none) : Single name attributes := by
  rw [Single, remove_of_lookup h, h]

/-- After a removal the name still stands at most once. -/
theorem Single.remove (h : Single name attributes) : Single name (remove name attributes) :=
  single_of_lookup h

/-- What was written is found. -/
theorem lookup_put (name value : String) (attributes : Attributes) :
    (put name value attributes).lookup name = some value := by
  induction attributes with
  | nil => simp [put]
  | cons entry rest ih =>
    obtain ⟨key, old⟩ := entry
    rw [put]
    split
    · next he => simp [he]
    · next he => rw [List.lookup_cons, beq_false_of_ne (Ne.symm he), ih]

/-- After a write the name still stands at most once. -/
theorem Single.put (h : Single name attributes) (value : String) :
    Single name (put name value attributes) := by
  induction attributes with
  | nil => simp [Single, Attributes.put, Attributes.remove]
  | cons entry rest ih =>
    obtain ⟨key, old⟩ := entry
    rw [Attributes.put]
    by_cases he : key = name
    · subst he
      rw [if_pos rfl]
      simpa [Single, Attributes.remove] using h
    · -- An entry of another name neither hides the name nor adds to it.
      rw [if_neg he]
      simp only [Single, Attributes.remove, List.eraseP_cons, he, decide_false, cond_false,
        List.lookup_cons, beq_false_of_ne (Ne.symm he)] at h ⊢
      exact ih h

end Attributes

namespace Document

variable {L : Type} {d : Document L} {i : NodeId}

/-- Writing an attribute makes no node live and none dead. -/
theorem isLive_setAttribute (i : NodeId) (name : String) (value : Option String) (j : NodeId) :
    (d.setAttribute i name value).isLive j = d.isLive j := by
  unfold setAttribute
  split
  · rfl
  · exact (sameForest_update d i (by exact fun _ => ⟨rfl, rfl, rfl⟩)).isLive j

/-- An attribute of a live node that is there at most once is read as it was written, and is there
at most once again. -/
theorem attribute?_setAttribute (live : d.isLive i = true) {name : String}
    (single : Attributes.Single name (d.node i).attributes) (value : Option String) :
    (d.setAttribute i name value).attribute? i name = value ∧
      Attributes.Single name ((d.setAttribute i name value).node i).attributes := by
  unfold setAttribute
  split
  · next same => exact ⟨same, single⟩
  · dsimp only
    rw [attribute?, node_count, node_update, if_pos ⟨rfl, lt_size_of_isLive live⟩]
    cases value with
    | none => exact ⟨single, single.remove⟩
    | some v => exact ⟨Attributes.lookup_put name v _, single.put v⟩

end Document

end ComponentView
