import ComponentView.Proofs.Document.Placeholder
import Mathlib.Data.Set.Lattice

/-! # Taking new nodes back

While new nodes come into a document, some of them cover the others: each new node is below one of
these (`Document.Covers`). Releasing all that cover the new nodes takes them back, and then every
index holds what it held before (`Document.Extends.takenBack`). -/

namespace ComponentView

namespace Document

variable {L : Type} {d later latest : Document L} {X Y : Set NodeId}

/-- Each node that is live in `later` but not in `d` is below a node in `X`. -/
def Covers (d later : Document L) (X : Set NodeId) : Prop :=
  ∀ x, later.isLive x = true → d.isLive x = false → ∃ r ∈ X, later.Below r x

namespace Extends

variable {roots : List NodeId}

/-- None of the new nodes has to be told from the others. -/
theorem forget (h : Extends d later roots) : Extends d later [] :=
  { h with dead := nofun, live := nofun, orphan := nofun, nodup := List.nodup_nil }

/-- The nodes from before keep their children. -/
theorem children_subset (h : Extends d later roots) (hd : d.WellFormed) (q : NodeId) :
    d.children q ⊆ later.children q := by
  intro c hc
  rw [children, h.old (hd.isLive_of_mem_children hc).1]
  exact hc

/-- Nodes that were not live before the last new ones came were not live at first. -/
theorem dead_of_dead (h : Extends d later roots) {x : NodeId} (hx : later.isLive x = false) :
    d.isLive x = false := by
  by_contra live
  rw [h.isLive (by simpa using live)] at hx
  cases hx

/-- What has come in is released again, and nothing from before with it. -/
theorem release (h : Extends d later []) (hd : d.WellFormed) {r : NodeId}
    (hr : d.isLive r = false) : Extends d (later.release r) [] := by
  refine
    { wellFormed := h.wellFormed.release r, old := fun {j} hj => ?_, dead := nofun, live := nofun
      orphan := nofun, nodup := List.nodup_nil }
  rw [node_release (h.not_below hd hr hj), ← h.old hj]
  split
  · refine node_without_of_ne (fun he => ?_) fun hp => ?_
    · rw [he, hr] at hj
      cases hj
    · -- A node from before has the children it had, and none of them is new.
      have child := h.wellFormed.up hp
      rw [children, h.old hj] at child
      have := hd.live child
      rw [hr] at this
      cases this
  · rfl

/-- When no new node is left, every index holds what it held. -/
theorem node_eq (h : Extends d later []) (hd : d.WellFormed) (none : Covers d later ∅)
    (i : NodeId) : later.node i = d.node i := by
  cases hi : d.isLive i with
  | true => exact h.old hi
  | false =>
    cases hl : later.isLive i with
    | true => exact (none i hl hi).elim fun _ hr => hr.1.elim
    | false => rw [h.wellFormed.blank hl, hd.blank hi]

end Extends

namespace Covers

/-- Where nothing is new, nothing has to be covered. -/
theorem self (d : Document L) : Covers d d X := fun _ live dead => by
  rw [live] at dead
  cases dead

/-- What all of a cover is below covers the same. -/
theorem of_below (h : Covers d later X) (hs : ∀ r ∈ X, ∃ s ∈ Y, later.Below s r) :
    Covers d later Y := fun x hl hd => by
  obtain ⟨r, hr, hb⟩ := h x hl hd
  obtain ⟨s, hs, hsr⟩ := hs r hr
  exact ⟨s, hs, hsr.trans hb⟩

/-- A larger set covers too. -/
theorem mono (h : Covers d later X) (hs : X ⊆ Y) : Covers d later Y :=
  h.of_below fun r hr => ⟨r, hs hr, .refl⟩

/-- The same nodes are live, and none has lost a child. -/
theorem congr (h : Covers d later X) (live : ∀ i, latest.isLive i = later.isLive i)
    (children : ∀ q, later.children q ⊆ latest.children q) : Covers d latest X := fun x hl hd => by
  obtain ⟨r, hr, hb⟩ := h x (live x ▸ hl) hd
  exact ⟨r, hr, .of_subset children hb⟩

/-- What covers a change covers it also when the forest then stays the same. -/
theorem same (h : Covers d later X) (same : SameForest later latest) : Covers d latest X :=
  h.congr same.isLive fun q => (same.children q).symm ▸ List.Subset.refl _

/-- Nodes come in after others. -/
theorem trans {roots : List NodeId} (h : Covers d later X) (hl : later.WellFormed)
    (new : Extends later latest roots) (h' : Covers later latest Y) :
    Covers d latest (X ∪ Y) := by
  intro x live dead
  cases hx : later.isLive x with
  | true =>
    obtain ⟨r, hr, hb⟩ := h x hx dead
    exact ⟨r, Or.inl hr, Below.of_subset (new.children_subset hl) hb⟩
  | false =>
    obtain ⟨r, hr, hb⟩ := h' x live hx
    exact ⟨r, Or.inr hr, hb⟩

/-! ## Releases -/

/-- What is left after a release is covered by what is left of the cover. -/
theorem release (h : Covers d later X) (wf : later.WellFormed) (r : NodeId) :
    Covers d (later.release r) (X \ {r}) := by
  intro x live dead
  by_cases hr : later.isLive r = true
  · obtain ⟨height, falls⟩ := wf.acyclic
    obtain ⟨gone, below, clears, -⟩ := release_spec wf.toSound falls hr
    have left {y : NodeId} (hy : (later.release r).isLive y = true) :
        y ∉ gone ∧ later.isLive y = true := by
      rw [isLive, clears.node] at hy
      split at hy
      · cases hy
      · next hg => exact ⟨hg, (isLive_without r y).symm.trans hy⟩
    obtain ⟨s, hs, hb⟩ := h x (left live).2 dead
    have top : r ∈ gone := (below r).mpr .refl
    -- The way down to a node that is left leads through nodes that are left.
    have way {y : NodeId} (hb : later.Below s y) (hy : y ∉ gone) :
        s ≠ r ∧ (later.release r).Below s y := by
      induction hb with
      | refl => exact ⟨fun he => hy (he ▸ top), .refl⟩
      | @tail b c _ hc ih =>
        have hcr : c ≠ r := fun he => hy (he ▸ top)
        have kept : c ∈ (later.without r).children b := by
          rw [children_without]
          split
          · exact List.mem_filter.mpr ⟨hc, by simpa using hcr⟩
          · exact hc
        have hb : b ∉ gone := fun hg => hy ((below c).mpr (((below b).mp hg).tail kept))
        obtain ⟨hne, hsb⟩ := ih hb
        exact ⟨hne, hsb.tail (by rwa [clears.children_of_not_mem hb])⟩
    obtain ⟨hne, hb⟩ := way hb (left live).1
    exact ⟨s, ⟨hs, hne⟩, hb⟩
  · have same : later.release r = later := by rw [Document.release, if_neg hr]
    rw [same] at live ⊢
    obtain ⟨s, hs, hb⟩ := h _ live dead
    refine ⟨s, ⟨hs, ?_⟩, hb⟩
    -- Nothing is below a node that is not live.
    rintro rfl
    rcases Relation.ReflTransGen.cases_head hb with rfl | ⟨c, hc, -⟩
    · exact hr live
    · exact hr (wf.isLive_of_mem_children hc).1

end Covers

/-- When all that covers the new nodes is released, every index holds what it held before. -/
theorem Extends.takenBack (hd : d.WellFormed) (h : Extends d later []) {rs : List NodeId}
    (covers : Covers d later {r | r ∈ rs}) (new : ∀ r ∈ rs, d.isLive r = false) :
    (rs.foldl Document.release later).WellFormed ∧
      ∀ i, (rs.foldl Document.release later).node i = d.node i := by
  induction rs generalizing later with
  | nil => exact ⟨h.wellFormed, h.node_eq hd (covers.mono fun _ hr => nomatch hr)⟩
  | cons r rs ih =>
    rw [List.forall_mem_cons] at new
    -- What is left after the first release is covered by the rest of the list.
    refine ih (h.release hd new.1) ((covers.release h.wellFormed r).mono ?_) new.2
    rintro s ⟨hs, hne⟩
    exact (List.mem_cons.mp hs).resolve_left hne

/-! ## Copies -/

/-- All that a new node changes is covered by the node. -/
theorem Sound.covers_allocate (h : d.Sound) (kind : DocKind) (text : String) :
    Covers d (d.allocate kind text).1 {(d.allocate kind text).2} := by
  intro x live dead
  have joins := h.allocate kind text
  have only : x = (d.allocate kind text).2 := by
    by_contra hne
    rw [joins.isLive, if_neg hne, dead] at live
    cases live
  exact ⟨x, only, .refl⟩

/-- A node that takes in the other nodes of a cover covers what they cover. -/
theorem Covers.adopt {i : NodeId} {kids : List NodeId} (h : Covers d later ({i} ∪ {r | r ∈ kids}))
    (hi : later.isLive i = true) (bare : later.children i = []) :
    Covers d (later.adopt i kids) {i} := by
  have children (q : NodeId) : later.children q ⊆ (later.adopt i kids).children q := by
    rw [children_adopt hi]
    split
    · next hq => rw [hq, bare]; exact List.nil_subset kids
    · exact List.Subset.refl _
  have live (q : NodeId) : (later.adopt i kids).isLive q = later.isLive q := by
    rw [isLive, kind_adopt, isLive]
  refine (h.congr live children).of_below fun r hr => ⟨i, rfl, ?_⟩
  rcases hr with rfl | hr
  · exact .refl
  · exact .single (by rw [children_adopt hi, if_pos rfl]; exact hr)

mutual
/-- The root of a copy covers it. -/
theorem WellFormed.covers_instantiate :
    ∀ (m : Markup) {d : Document L}, d.WellFormed →
      Covers d (d.instantiate m).1 {(d.instantiate m).2}
  | .text content, _, h => h.covers_allocate .text content
  | .element tag attributes children, d, h => by
    have made : Extends d (d.createElement tag).1 [(d.createElement tag).2] :=
      h.extends_allocate (.element tag) ""
    have top : Covers d (d.createElement tag).1 {(d.createElement tag).2} :=
      h.covers_allocate (.element tag) ""
    have bare : (d.createElement tag).1.children (d.createElement tag).2 = [] :=
      ((h.toSound.allocate (.element tag) "").children _).trans (if_pos rfl)
    rw [instantiate_element_eq]
    dsimp only
    set i := (d.createElement tag).2
    have same := sameForest_update (d.createElement tag).1 i
      (f := fun n => { n with attributes }) fun _ => ⟨rfl, rfl, rfl⟩
    have written := made.write (made.dead i List.mem_cons_self) (made.live i List.mem_cons_self)
      (f := fun n => { n with attributes }) fun _ => ⟨rfl, rfl, rfl⟩
    -- The element covers itself, and the copies of its children cover what is inside.
    have inner := written.wellFormed.extends_instantiateAll children
    have both := (top.same same).trans written.wellFormed inner
      (WellFormed.covers_instantiateAll children written.wellFormed)
    have live := written.live i List.mem_cons_self
    refine both.adopt (inner.isLive live) ?_
    -- What is inside leaves the new node as it is.
    rw [Document.children, inner.old live, ← Document.children, same.children]
    exact bare

/-- The roots of copies cover them. -/
theorem WellFormed.covers_instantiateAll :
    ∀ (ms : List Markup) {d : Document L}, d.WellFormed →
      Covers d (d.instantiateAll ms).1 {r | r ∈ (d.instantiateAll ms).2}
  | [], d, _ => .self d
  | m :: rest, _, h => by
    have one := h.extends_instantiate m
    have both := (WellFormed.covers_instantiate m h).trans one.wellFormed
      (one.wellFormed.extends_instantiateAll rest)
      (WellFormed.covers_instantiateAll rest one.wellFormed)
    exact both.mono fun r hr => List.mem_cons.mpr hr
end

/-! ## Taking the place of a node -/

/-- A node that takes the place of another brings no new node out of the cover, if the other has no
children; nor does the release of the other. -/
theorem Covers.swap (h : Covers d later X) (wf : later.WellFormed) {x r : NodeId}
    (way : later.MakesWay x r) (startsOutside : Bool) :
    Covers d (later.swap startsOutside x r) X := by
  cases startsOutside with
  | true => exact (h.release wf x).mono Set.sdiff_subset
  | false =>
    have replaced := wf.replaced way
    have kept {q c : NodeId} (hc : c ∈ later.children q) (hcx : c ≠ x) :
        c ∈ (later.replace x r).children q := by
      unfold replace
      split
      · next p hp =>
        have hcp : c ∈ (later.insertBefore p r (some x)).children q := by
          rw [children_insertBefore (lt_size_of_isLive (wf.isLive_of_parent? hp).1),
            without_eq_self way.orphan]
          split
          · exact mem_placeBefore.mpr (Or.inr hc)
          · exact hc
        rw [children_remove]
        split
        · exact List.mem_filter.mpr ⟨hcp, by simpa using hcx⟩
        · exact hcp
      · exact hc
    -- The node that makes way only covers itself.
    have both : Covers d (later.replace x r) (insert x X) := by
      intro y live dead
      rw [replaced.live] at live
      obtain ⟨s, hs, hb⟩ := h _ live dead
      by_cases hy : y = x
      · exact ⟨x, Or.inl rfl, hy ▸ .refl⟩
      · refine ⟨s, Or.inr hs, ?_⟩
        clear live dead
        induction hb with
        | refl => exact .refl
        | @tail b c _ hc ih =>
          refine .tail (ih ?_) (kept hc hy)
          rintro rfl
          rw [way.bare] at hc
          cases hc
    refine (both.release replaced.wellFormed x).mono ?_
    rintro s ⟨rfl | hs, hsx⟩
    · exact absurd rfl hsx
    · exact hs

end Document

end ComponentView
