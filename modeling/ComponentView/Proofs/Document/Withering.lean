import ComponentView.Proofs.Document.Forest
import ComponentView.Proofs.Document.Placeholder

/-! # Withering

Detaching takes a node from its parent, and releasing makes it and what is below it blank. Nothing else
comes of either: each node is as live as it was, under the parent that it had or under none, or it is
gone (`Document.Withers`). -/

namespace ComponentView

namespace Document

variable {L : Type} {d : Document L} {n : NodeId}

/-- There is no node at the index, and nothing links it to a parent. -/
structure Gone (d : Document L) (n : NodeId) : Prop where
  dead : d.isLive n = false
  loose : d.parent? n = none

instance (d : Document L) (n : NodeId) : Decidable (d.Gone n) :=
  decidable_of_iff (d.isLive n = false ∧ d.parent? n = none) ⟨fun h => ⟨h.1, h.2⟩, fun h => ⟨h.1, h.2⟩⟩

/-- Detaching a node that is gone changes nothing. -/
theorem Gone.detach (h : d.Gone n) : d.detach n = d := by
  unfold Document.detach
  rw [h.loose]

/-- Releasing a node that is gone changes nothing. -/
theorem Gone.release (h : d.Gone n) : d.release n = d := by
  unfold Document.release
  rw [h.dead]
  rfl

/-- There is a node at the index, or it is gone. -/
def Settled (d : Document L) (n : NodeId) : Prop := d.isLive n = true ∨ d.Gone n

instance (d : Document L) (n : NodeId) : Decidable (d.Settled n) :=
  inferInstanceAs (Decidable (_ ∨ _))

/-- Every node is gone later, or as live as it was, at the parent that it had or at none. -/
def Withers (d later : Document L) : Prop :=
  ∀ n, later.Gone n ∨
    later.isLive n = d.isLive n ∧ ∀ p, later.parent? n = some p → d.parent? n = some p

namespace Withers

variable {later latest : Document L}

/-- A document that stays as it is withers. -/
theorem refl (d : Document L) : Withers d d := fun _ => .inr ⟨rfl, fun _ h => h⟩

/-- What is gone stays gone. -/
theorem gone (h : Withers d later) (hn : d.Gone n) : later.Gone n := by
  rcases h n with gone | ⟨live, parent⟩
  · exact gone
  · exact ⟨live.trans hn.dead, Option.eq_none_iff_forall_ne_some.mpr fun p hp =>
      nomatch hn.loose.symm.trans (parent p hp)⟩

/-- A node that is settled stays so while the document withers. -/
theorem settled (h : Withers d later) (hn : d.Settled n) : later.Settled n := by
  rcases hn with live | gone
  · exact (h n).symm.imp (fun same => same.1.trans live) id
  · exact .inr (h.gone gone)

/-- What withers and withers again has withered. -/
theorem trans (h : Withers d later) (h' : Withers later latest) : Withers d latest := by
  intro n
  rcases h' n with gone | ⟨live', parent'⟩
  · exact .inl gone
  · rcases h n with gone | ⟨live, parent⟩
    · exact .inl (h'.gone gone)
    · exact .inr ⟨live'.trans live, fun p hp => parent p (parent' p hp)⟩

/-- A document withers when a node is detached. -/
theorem detach (d : Document L) (i : NodeId) : Withers d (d.detach i) := by
  intro n
  refine .inr ⟨?_, fun p hp => ?_⟩
  · unfold Document.detach
    split
    · rw [isLive, kind_remove, isLive]
    · rfl
  · rw [parent?_detach] at hp
    split at hp
    · cases hp
    · exact hp

/-- A document withers when a node is taken out of its parent. -/
theorem without (d : Document L) (i : NodeId) : Withers d (d.without i) := by
  intro n
  refine .inr ⟨isLive_without i n, fun p hp => ?_⟩
  rw [parent?_without] at hp
  split at hp
  · cases hp
  · exact hp

/-- A document withers when a node loses its children. -/
theorem childless (d : Document L) (i : NodeId) :
    Withers d (d.update i fun n => { n with children := [] }) := fun n =>
  .inr ⟨by rw [isLive, part_update DocNode.kind, ite_self, isLive],
    fun p hp => by rwa [parent?, part_update DocNode.parent, ite_self] at hp⟩

/-- A blank node is gone. -/
theorem blank (d : Document L) (i : NodeId) :
    Withers d (d.update i fun _ => {}) ∧ (d.update i fun _ => {}).Gone i := by
  have node (n : NodeId) : (d.update i fun _ => {}).node n = if i = n then {} else d.node n := by
    rw [node_update]
    by_cases he : i = n
    · subst he
      by_cases hlt : i < d.size
      · rw [if_pos ⟨rfl, hlt⟩, if_pos rfl]
      · rw [if_neg fun h => hlt h.2, if_pos rfl, node_of_size_le (not_lt.mp hlt)]
    · rw [if_neg fun h => he h.1, if_neg he]
  have gone : (d.update i fun _ => {}).Gone i := by
    constructor
    · rw [isLive, node, if_pos rfl]
      rfl
    · rw [parent?, node, if_pos rfl]
  refine ⟨fun n => ?_, gone⟩
  by_cases he : i = n
  · exact .inl (he ▸ gone)
  · refine .inr ⟨?_, fun p hp => ?_⟩
    · rw [isLive, node, if_neg he, isLive]
    · rwa [parent?, node, if_neg he] at hp

/-- A document withers when a tree is released. -/
theorem releaseWithin (depth : Nat) (d : Document L) (i : NodeId) :
    Withers d (Document.releaseWithin depth d i) := by
  induction depth generalizing d i with
  | zero => exact refl d
  | succ depth ih =>
    have all (kids : List NodeId) (d : Document L) :
        Withers d (kids.foldl (Document.releaseWithin depth) d) := by
      induction kids generalizing d with
      | nil => exact refl d
      | cons kid kids ihk => exact (ih d kid).trans (ihk _)
    have cleared := ((childless d i).trans (all (d.children i) _)).trans (blank _ i).1
    exact fun n => (cleared n).imp (fun gone => ⟨gone.dead, gone.loose⟩) fun same => ⟨same.1, same.2⟩

/-- A document withers with a release. -/
theorem release (d : Document L) (i : NodeId) : Withers d (d.release i) := by
  unfold Document.release
  split
  · exact (without d i).trans (releaseWithin _ _ i)
  · exact refl d

end Withers

/-- A node that is released is gone. -/
theorem Settled.gone_release (h : d.Settled n) : (d.release n).Gone n := by
  rcases h with live | gone
  · unfold Document.release
    rw [if_pos live]
    -- The node itself is made blank last.
    exact Gone.mk (Withers.blank _ n).2.dead (Withers.blank _ n).2.loose
  · rwa [gone.release]

/-- In a well-formed document there is nothing below a node that is gone. -/
theorem WellFormed.eq_of_below_gone (wf : d.WellFormed) {i x : NodeId} (gone : d.Gone i)
    (hx : d.Below i x) : x = i := by
  rcases Relation.ReflTransGen.cases_head hx with he | ⟨c, hc, -⟩
  · exact he.symm
  · have live := (wf.isLive_of_mem_children hc).1
    rw [gone.dead] at live
    cases live

/-- What is below a node in a well-formed document is still there after a release, or it is gone: no way
down is broken off. -/
theorem WellFormed.below_release (wf : d.WellFormed) {i x : NodeId} (hx : d.Below i x) (q : NodeId) :
    (d.release q).Below i x ∨ (d.release q).Gone x := by
  by_cases hq : d.isLive q = true
  · obtain ⟨height, falls⟩ := wf.acyclic
    obtain ⟨cleared, below, clears, -⟩ := release_spec wf.toSound falls hq
    have gone {y : NodeId} (hy : y ∈ cleared) : (d.release q).Gone y := by
      have blank := clears.node y
      rw [if_pos hy] at blank
      exact ⟨by rw [isLive, blank]; rfl, by rw [parent?, blank]⟩
    induction hx with
    | refl => exact .inl .refl
    | @tail y z _ hz ih =>
      by_cases hc : z ∈ cleared
      · exact .inr (gone hc)
      -- The last link is still there, for `z` is not cleared.
      have kept : z ∈ (d.without q).children y := by
        rw [children_without]
        split
        · refine List.mem_filter.mpr ⟨hz, decide_eq_true ?_⟩
          rintro rfl
          exact hc ((below _).mpr .refl)
        · exact hz
      have hy : y ∉ cleared := fun hy => hc ((below z).mpr (((below y).mp hy).tail kept))
      rcases ih with ih | ih
      · refine .inl (ih.tail ?_)
        rwa [clears.children_of_not_mem hy]
      · have live := (wf.isLive_of_mem_children hz).1
        have dead := ih.dead
        rw [isLive, clears.node, if_neg hy] at dead
        rw [← isLive_without q, isLive, dead] at live
        cases live
  · have same : d.release q = d := if_neg hq
    exact .inl (by rwa [same])

end Document

end ComponentView
