import ComponentView.Document.Content
import ComponentView.Proofs.Document.Links
import Mathlib.Data.List.Flatten
import Mathlib.Algebra.GroupWithZero.Nat
import Mathlib.Algebra.Order.BigOperators.Group.List
import Mathlib.Algebra.Order.Group.Nat
import Mathlib.Data.List.Nodup
import Mathlib.Data.List.Perm.Subperm
import Mathlib.Order.Basic

/-! # The document as a forest

In a sound document every child knows its parent, stands among the children of that parent once, and
is live, and no live node waits on the free list (`Document.Sound`). Every operation keeps it so. A
release goes through the nodes below a node, each once as long as no node is below itself, and
releases exactly these (`Document.release_spec`). A new node takes an index that nothing uses
(`Document.Sound.allocate`). -/

namespace ComponentView

namespace Document

variable {L : Type} {d later : Document L}

/-- Parents and children fit, and what waits on the free list is not live. -/
structure Sound (d : Document L) : Prop where
  linked : ∀ {p c}, c ∈ d.children p → d.parent? c = some p
  nodup : ∀ p, (d.children p).Nodup
  live : ∀ {p c}, c ∈ d.children p → d.isLive c = true
  free : d.free.Nodup
  spare : ∀ x ∈ d.free, x < d.size ∧ d.isLive x = false

/-- A live node has a place in the array. -/
theorem lt_size_of_isLive {i : NodeId} (h : d.isLive i = true) : i < d.size := by
  refine Nat.lt_of_not_le fun hi => ?_
  rw [isLive, node_of_size_le hi] at h
  cases h

/-- A document without nodes is sound. -/
theorem sound_empty : Sound ({} : Document L) where
  linked h := by simp [children, node] at h
  nodup p := by simp [children, node]
  live h := by simp [children, node] at h
  free := List.nodup_nil
  spare x hx := by cases hx

/-! ## What does not move nodes -/

/-- The same nodes are live, at the same places. -/
structure SameForest (d later : Document L) : Prop where
  kind : ∀ i, (later.node i).kind = (d.node i).kind
  parent : ∀ i, later.parent? i = d.parent? i
  children : ∀ i, later.children i = d.children i
  free : later.free = d.free
  size : later.size = d.size

namespace SameForest

/-- The same nodes are live in the same forest. -/
theorem isLive (h : SameForest d later) (i : NodeId) : later.isLive i = d.isLive i := by
  rw [Document.isLive, h.kind, Document.isLive]

/-- What has the forest of a sound document is sound. -/
theorem sound (h : SameForest d later) (hs : d.Sound) : later.Sound where
  linked hc := by
    rw [h.parent]
    exact hs.linked (h.children _ ▸ hc)
  nodup p := by
    rw [h.children]
    exact hs.nodup p
  live hc := by
    rw [h.isLive]
    exact hs.live (h.children _ ▸ hc)
  free := h.free ▸ hs.free
  spare x hx := by
    rw [h.size, h.isLive]
    exact hs.spare x (h.free ▸ hx)

end SameForest

/-- An update of what a node shows moves nothing. -/
theorem sameForest_update (d : Document L) (i : NodeId) {f : DocNode L → DocNode L}
    (hf : ∀ n, (f n).kind = n.kind ∧ (f n).parent = n.parent ∧ (f n).children = n.children) :
    SameForest d (d.update i f) where
  kind j := by rw [part_update DocNode.kind, (hf _).1, ite_self]
  parent j := by
    unfold parent?
    rw [part_update DocNode.parent, (hf _).2.1, ite_self]
  children j := by
    unfold children
    rw [part_update DocNode.children, (hf _).2.2, ite_self]
  free := rfl
  size := size_update ..

/-! ## Moving nodes -/

/-- Taking a node out of its parent leaves every node as live as it was. -/
theorem isLive_without (i j : NodeId) : (d.without i).isLive j = d.isLive j := by
  rw [isLive, kind_without, isLive]

/-- Inserting a node leaves every node as live as it was. -/
theorem isLive_insertBefore (p i : NodeId) (reference : Option NodeId) (j : NodeId) :
    (d.insertBefore p i reference).isLive j = d.isLive j := by
  rw [isLive, kind_insertBefore, isLive]

/-- A node without its parent is among the children of nobody. -/
theorem Sound.not_mem_without (h : d.Sound) (i q : NodeId) : i ∉ (d.without i).children q := by
  rw [children_without]
  split
  · simp
  · next hp => exact fun hm => hp (h.linked hm)

/-- Without a reference the node becomes the last child. -/
theorem placeBefore_none (i : NodeId) (kids : List NodeId) :
    placeBefore i none kids = kids ++ [i] := by
  induction kids with
  | nil => rfl
  | cons kid kids ih => rw [placeBefore, if_neg (by simp), ih, List.cons_append]

/-- A node that was not among the children can be placed among them. -/
theorem nodup_placeBefore {i : NodeId} {reference : Option NodeId} {kids : List NodeId}
    (h : kids.Nodup) (hi : i ∉ kids) : (placeBefore i reference kids).Nodup := by
  induction kids with
  | nil => simp [placeBefore]
  | cons kid kids ih =>
    rw [List.nodup_cons] at h
    rw [List.mem_cons, not_or] at hi
    rw [placeBefore]
    split
    · exact List.nodup_cons.mpr ⟨by simpa using hi, List.nodup_cons.mpr h⟩
    · refine List.nodup_cons.mpr ⟨fun hm => ?_, ih h.2 hi.2⟩
      rcases mem_placeBefore.mp hm with rfl | hm
      · exact hi.1 rfl
      · exact h.1 hm

namespace Sound

/-- A document stays sound when a node is taken out of its parent. -/
theorem without (h : d.Sound) (i : NodeId) : (d.without i).Sound where
  linked {p c} hc := by
    have hne : c ≠ i := fun he => h.not_mem_without i p (he ▸ hc)
    rw [parent?_without, if_neg hne]
    exact h.linked (children_without_subset i p hc)
  nodup p := by
    rw [children_without]
    split
    · exact (h.nodup p).filter _
    · exact h.nodup p
  live hc := by
    rw [isLive_without]
    exact h.live (children_without_subset i _ hc)
  free := free_without (d := d) i ▸ h.free
  spare x hx := by
    rw [size_without, isLive_without]
    exact h.spare x (free_without (d := d) i ▸ hx)

/-- A live node is put anywhere, even where there is no node. -/
theorem insertBefore (h : d.Sound) (p : NodeId) {i : NodeId} (hi : d.isLive i = true)
    (reference : Option NodeId) : (d.insertBefore p i reference).Sound := by
  refine
    { linked := fun {q c} hc => ?_, nodup := fun q => ?_, live := fun {q c} hc => ?_
      free := free_insertBefore (d := d) p i reference ▸ h.free, spare := fun x hx => ?_ }
  · rw [parent?_insertBefore (lt_size_of_isLive hi)]
    rcases mem_children_insertBefore hc with ⟨rfl, rfl⟩ | hc
    · exact if_pos rfl
    · have hne : c ≠ i := fun he => h.not_mem_without i q (he ▸ hc)
      rw [if_neg hne]
      exact h.linked (children_without_subset i q hc)
  · have kept := (h.without i).nodup q
    rcases Nat.lt_or_ge p d.size with hp | hp
    · rw [children_insertBefore hp]
      split
      · exact nodup_placeBefore kept (h.not_mem_without i q)
      · exact kept
    · rwa [children_insertBefore_of_size_le hp]
  · rw [isLive_insertBefore]
    rcases mem_children_insertBefore hc with ⟨-, rfl⟩ | hc
    · exact hi
    · exact h.live (children_without_subset i q hc)
  · rw [size_insertBefore, isLive_insertBefore]
    exact h.spare x (free_insertBefore (d := d) p i reference ▸ hx)

end Sound

/-- A node without a parent is already out of the way. -/
theorem without_eq_self {i : NodeId} (h : d.parent? i = none) : d.without i = d := by
  rw [Document.without, h]


/-! ## What a release goes through -/

/-- The nodes that a release of a node goes through, to a depth. -/
def releasing (d : Document L) : (depth : Nat) → NodeId → List NodeId
  | 0, _ => []
  | depth + 1, i => i :: (d.children i).flatMap (d.releasing depth)

/-- What a release frees lies below the released node. -/
theorem below_of_mem_releasing {depth : Nat} {i y : NodeId} (h : y ∈ d.releasing depth i) :
    d.Below i y := by
  induction depth generalizing i with
  | zero => cases h
  | succ depth ih =>
    rcases List.mem_cons.mp h with rfl | h
    · exact .refl
    · obtain ⟨kid, hk, hy⟩ := List.mem_flatMap.mp h
      exact .head hk (ih hy)

/-- Whatever a release goes through is the node itself or a child of what it goes through. -/
theorem parent_of_mem_releasing {depth : Nat} {i y : NodeId} (h : y ∈ d.releasing depth i) :
    y = i ∨ ∃ p ∈ d.releasing depth i, y ∈ d.children p := by
  induction depth generalizing i with
  | zero => cases h
  | succ depth ih =>
    rcases List.mem_cons.mp h with rfl | h
    · exact Or.inl rfl
    · obtain ⟨kid, hk, hy⟩ := List.mem_flatMap.mp h
      refine Or.inr ?_
      rcases ih hy with rfl | ⟨p, hp, hy⟩
      · exact ⟨i, List.mem_cons_self, hk⟩
      · exact ⟨p, List.mem_cons_of_mem _ (List.mem_flatMap.mpr ⟨kid, hk, hp⟩), hy⟩

/-- Only the children of the nodes on the way matter. -/
theorem releasing_congr {depth : Nat} {i : NodeId}
    (h : ∀ j ∈ d.releasing depth i, later.children j = d.children j) :
    later.releasing depth i = d.releasing depth i := by
  induction depth generalizing i with
  | zero => rfl
  | succ depth ih =>
    rw [releasing, releasing, h i List.mem_cons_self]
    congr 1
    refine List.flatMap_congr fun kid hk => ih fun j hj => ?_
    exact h j (List.mem_cons_of_mem _ (List.mem_flatMap.mpr ⟨kid, hk, hj⟩))

/-- A release goes through some nodes if it clears these and no others. -/
structure Clears (gone : List NodeId) (d later : Document L) : Prop where
  node : ∀ j, later.node j = if j ∈ gone then {} else d.node j
  free : later.free.Perm (gone ++ d.free)
  size : later.size = d.size

/-- A node that is not cleared away keeps its children. -/
theorem Clears.children_of_not_mem {gone : List NodeId} (h : Clears gone d later) {j : NodeId}
    (hj : j ∉ gone) : later.children j = d.children j := by
  rw [Document.children, h.node, if_neg hj, Document.children]

/-- Clearing live nodes, with all that is below each, leaves a sound document. -/
theorem Clears.sound {gone : List NodeId} (h : Clears gone d later) (hs : d.Sound)
    (nodup : gone.Nodup) (live : ∀ y ∈ gone, d.isLive y = true)
    (closed : ∀ {q c}, c ∈ d.children q → c ∈ gone → q ∈ gone) : later.Sound := by
  have left {q c : NodeId} (hc : c ∈ later.children q) : c ∈ d.children q ∧ c ∉ gone := by
    by_cases hq : q ∈ gone
    · rw [children, h.node, if_pos hq] at hc
      cases hc
    · rw [h.children_of_not_mem hq] at hc
      exact ⟨hc, fun hg => hq (closed hc hg)⟩
  have isLive (y : NodeId) : later.isLive y = if y ∈ gone then false else d.isLive y := by
    rw [Document.isLive, h.node]
    split <;> rfl
  refine
    { linked := fun {q c} hc => ?_, nodup := fun q => ?_, live := fun {q c} hc => ?_
      free := ?_, spare := fun x hx => ?_ }
  · rw [parent?, h.node, if_neg (left hc).2]
    exact hs.linked (left hc).1
  · by_cases hq : q ∈ gone
    · rw [children, h.node, if_pos hq]
      exact List.nodup_nil
    · rw [h.children_of_not_mem hq]
      exact hs.nodup q
  · rw [isLive, if_neg (left hc).2]
    exact hs.live (left hc).1
  · refine h.free.nodup_iff.mpr (List.nodup_append.mpr ⟨nodup, hs.free, fun y hy z hz he => ?_⟩)
    subst he
    have := (hs.spare y hz).2
    rw [live y hy] at this
    cases this
  · rw [h.size, isLive]
    rcases List.mem_append.mp (h.free.mem_iff.mp hx) with hg | hx
    · rw [if_pos hg]
      exact ⟨lt_size_of_isLive (live x hg), rfl⟩
    · rw [(hs.spare x hx).2, ite_self]
      exact ⟨(hs.spare x hx).1, rfl⟩

/-- Releasing several nodes clears what each release goes through. -/
theorem clears_foldl {depth : Nat}
    (one : ∀ (d : Document L) (i : NodeId), (d.releasing depth i).Nodup →
      Clears (d.releasing depth i) d (releaseWithin depth d i))
    {kids : List NodeId} (h : (kids.flatMap (d.releasing depth)).Nodup) :
    Clears (kids.flatMap (d.releasing depth)) d (kids.foldl (releaseWithin depth) d) := by
  induction kids generalizing d with
  | nil => exact ⟨fun _ => by simp, .refl _, rfl⟩
  | cons kid kids ih =>
    rw [List.flatMap_cons, List.nodup_append] at h
    obtain ⟨first, others, apart⟩ := h
    have now := one d kid first
    have same : kids.flatMap ((releaseWithin depth d kid).releasing depth)
        = kids.flatMap (d.releasing depth) := by
      refine List.flatMap_congr fun k hk => releasing_congr fun j hj => ?_
      exact now.children_of_not_mem fun hm => apart j hm j (List.mem_flatMap.mpr ⟨k, hk, hj⟩) rfl
    have rest := ih (d := releaseWithin depth d kid) (same ▸ others)
    rw [same] at rest
    rw [List.foldl_cons, List.flatMap_cons]
    refine ⟨fun j => ?_, rest.free.trans ?_, rest.size.trans now.size⟩
    · rw [rest.node, now.node]
      by_cases hj : j ∈ kids.flatMap (d.releasing depth) <;> simp [hj]
    · refine (now.free.append_left _).trans ?_
      rw [← List.append_assoc]
      exact List.perm_append_comm.append_right _

/-- A release clears what it goes through, if it goes through each node once. -/
theorem clears_releaseWithin (depth : Nat) (d : Document L) (i : NodeId)
    (h : (d.releasing depth i).Nodup) :
    Clears (d.releasing depth i) d (releaseWithin depth d i) := by
  induction depth generalizing d i with
  | zero => exact ⟨fun _ => by simp [releasing, releaseWithin], .refl _, rfl⟩
  | succ depth ih =>
    obtain ⟨absent, nodup⟩ := List.nodup_cons.mp h
    set cut : Document L := d.update i fun n => { n with children := [] } with hcut
    have kept {j : NodeId} (hj : j ≠ i) : cut.children j = d.children j := by
      unfold children
      rw [hcut, part_update DocNode.children, if_neg fun he => hj he.1.symm]
    have same : (d.children i).flatMap (cut.releasing depth)
        = (d.children i).flatMap (d.releasing depth) := by
      refine List.flatMap_congr fun k hk => releasing_congr fun j hj => kept ?_
      rintro rfl
      exact absent (List.mem_flatMap.mpr ⟨k, hk, hj⟩)
    have kids : Clears ((d.children i).flatMap (cut.releasing depth)) cut
        ((d.children i).foldl (releaseWithin depth) cut) := clears_foldl ih (same ▸ nodup)
    rw [same] at kids
    have result : releaseWithin (depth + 1) d i
        = { ((d.children i).foldl (releaseWithin depth) cut).update i fun _ => {} with
            free := i :: ((d.children i).foldl (releaseWithin depth) cut).free } := rfl
    rw [result, releasing]
    refine ⟨fun j => ?_, ?_, ?_⟩
    · show (((d.children i).foldl (releaseWithin depth) cut).update i fun _ => {}).node j = _
      rw [node_update, kids.node]
      by_cases hj : j = i
      · subst hj
        rw [if_pos List.mem_cons_self]
        split
        · rfl
        · next hs =>
          rw [kids.size, hcut, size_update] at hs
          have out : d.size ≤ j := Nat.le_of_not_lt fun hlt => hs ⟨rfl, hlt⟩
          rw [hcut, node_update, node_of_size_le out]
          simp [Nat.not_lt.mpr out]
      · rw [if_neg fun he => hj he.1.symm]
        simp only [List.mem_cons, hj, false_or]
        split
        · rfl
        · rw [hcut, node_update, if_neg fun he => hj he.1.symm]
    · exact (kids.free.cons i).trans (by rfl)
    · show (((d.children i).foldl (releaseWithin depth) cut).update i fun _ => {}).size = _
      rw [size_update, kids.size, hcut, size_update]

/-! ## No node is below itself -/

section Heights

variable {α : Type} [Preorder α] {height : NodeId → α}

/-- Every child is lower than its parent. -/
def Falls (d : Document L) (height : NodeId → α) : Prop :=
  ∀ p c, c ∈ d.children p → height c < height p

/-- A node is no higher than what it lies below. -/
theorem Falls.le_of_below (h : d.Falls height) {x y : NodeId} (hb : d.Below x y) :
    height y ≤ height x := by
  induction hb with
  | refl => exact le_refl _
  | tail _ hc ih => exact (le_of_lt (h _ _ hc)).trans ih

/-- Of two nodes that a third is below, one is below the other. -/
theorem Sound.below_or_below (hs : d.Sound) {x y z : NodeId} (hx : d.Below x z) (hy : d.Below y z) :
    d.Below x y ∨ d.Below y x := by
  induction hx with
  | refl => exact Or.inr hy
  | @tail b c _ hc ih =>
    rcases Relation.ReflTransGen.cases_tail hy with rfl | ⟨b', hb', hc'⟩
    · exact Or.inl (.tail ‹_› hc)
    · obtain rfl : b = b' := Option.some.inj ((hs.linked hc).symm.trans (hs.linked hc'))
      exact ih hb'

/-- Nothing is below two children of one node. -/
theorem Sound.eq_of_below (hs : d.Sound) (hf : d.Falls height) {p k k' y : NodeId}
    (hk : k ∈ d.children p) (hk' : k' ∈ d.children p) (hy : d.Below k y) (hy' : d.Below k' y) :
    k = k' := by
  -- A child is not strictly below another: its parent would be below that one.
  have strict {k k' : NodeId} (hk : k ∈ d.children p) (hk' : k' ∈ d.children p)
      (hb : d.Below k k') : k = k' := by
    rcases Relation.ReflTransGen.cases_tail hb with rfl | ⟨q, hq, hc⟩
    · rfl
    · obtain rfl : p = q := Option.some.inj ((hs.linked hk').symm.trans (hs.linked hc))
      exact absurd (hf _ _ hk) (hf.le_of_below hq).not_gt
  rcases hs.below_or_below hy hy' with hb | hb
  · exact strict hk hk' hb
  · exact (strict hk' hk hb).symm

/-- A release goes through each node once. -/
theorem Sound.nodup_releasing (hs : d.Sound) (hf : d.Falls height) (depth : Nat) (i : NodeId) :
    (d.releasing depth i).Nodup := by
  induction depth generalizing i with
  | zero => exact List.nodup_nil
  | succ depth ih =>
    refine List.nodup_cons.mpr ⟨fun hm => ?_, ?_⟩
    · obtain ⟨kid, hk, hi⟩ := List.mem_flatMap.mp hm
      exact absurd (hf _ _ hk) (hf.le_of_below (below_of_mem_releasing hi)).not_gt
    · refine List.nodup_flatMap.mpr ⟨fun kid _ => ih kid, ?_⟩
      refine ((hs.nodup i).pairwise_of_forall_ne fun k hk k' hk' hne => ?_)
      intro y hy hy'
      exact hne (hs.eq_of_below hf hk hk' (below_of_mem_releasing hy) (below_of_mem_releasing hy'))

/-- A release that goes deeper goes through more. -/
theorem mem_releasing_of_le {depth depth' : Nat} (h : depth ≤ depth') {i y : NodeId}
    (hy : y ∈ d.releasing depth i) : y ∈ d.releasing depth' i := by
  induction depth generalizing depth' i with
  | zero => cases hy
  | succ depth ih =>
    obtain ⟨depth', rfl⟩ : ∃ k, depth' = k + 1 := ⟨depth' - 1, by omega⟩
    rcases List.mem_cons.mp hy with rfl | hy
    · exact List.mem_cons_self
    · obtain ⟨kid, hk, hy⟩ := List.mem_flatMap.mp hy
      exact List.mem_cons_of_mem _ (List.mem_flatMap.mpr ⟨kid, hk, ih (by omega) hy⟩)

/-- All links from parents to children, parent by parent. -/
theorem linkCount_eq (d : Document L) :
    d.linkCount = ((List.range d.size).map fun i => (d.children i).length).sum := by
  have counted (lists : List (List NodeId)) (n : Nat) :
      lists.foldl (fun n kids => n + kids.length) n = n + (lists.map List.length).sum := by
    induction lists generalizing n with
    | nil => rfl
    | cons kids lists ih => rw [List.foldl_cons, ih, List.map_cons, List.sum_cons, Nat.add_assoc]
  rw [linkCount, counted, Nat.zero_add]
  congr 1
  have aligned : d.childLists.size = d.size := d.aligned.2.1
  apply List.ext_getElem (by simp [aligned])
  intro i hi hi'
  have hi : i < d.childLists.size := by simpa using hi
  simp [children, node, hi]

/-- There are at most as many different nodes with children as there are links. -/
theorem length_le_linkCount {way : List NodeId} (nodup : way.Nodup)
    (full : ∀ x ∈ way, d.children x ≠ []) : way.length ≤ d.linkCount := by
  have inside : way ⊆ List.range d.size := by
    intro x hx
    obtain ⟨c, hc⟩ := List.exists_mem_of_ne_nil _ (full x hx)
    exact List.mem_range.mpr (lt_size_of_mem_children hc)
  obtain ⟨some, perm, sub⟩ := nodup.subperm inside
  calc way.length ≤ (way.map fun i => (d.children i).length).sum := by
        have := List.length_le_sum_of_one_le (way.map fun i => (d.children i).length) (by
          intro n hn
          obtain ⟨x, hx, rfl⟩ := List.mem_map.mp hn
          exact List.length_pos_iff.mpr (full x hx))
        simpa using this
    _ = (some.map fun i => (d.children i).length).sum := ((perm.map _).sum_eq).symm
    _ ≤ d.linkCount := by
        rw [linkCount_eq]
        exact (sub.map _).sum_le_sum fun _ _ => Nat.zero_le _

/-- A release to the depth of all links goes through everything below the node. -/
theorem mem_releasing_iff (hf : d.Falls height) {i y : NodeId} :
    y ∈ d.releasing (d.linkCount + 1) i ↔ d.Below i y := by
  refine ⟨below_of_mem_releasing, fun hb => ?_⟩
  -- The nodes on the way down have children, and each is lower than the ones before.
  have found : ∃ way : List NodeId, way.Pairwise (fun a b => height b < height a) ∧
      (∀ x ∈ way, d.children x ≠ [] ∧ height x ≤ height i) ∧
        y ∈ d.releasing (way.length + 1) i := by
    induction hb using Relation.ReflTransGen.head_induction_on with
    | refl => exact ⟨[], .nil, nofun, List.mem_cons_self⟩
    | @head i kid hk _ ih =>
      obtain ⟨way, lower, full, hy⟩ := ih
      have hlt := hf i kid hk
      refine ⟨i :: way, List.pairwise_cons.mpr ⟨fun x hx => (full x hx).2.trans_lt hlt, lower⟩, ?_,
        List.mem_cons_of_mem _ (List.mem_flatMap.mpr ⟨kid, hk, hy⟩)⟩
      rw [List.forall_mem_cons]
      refine ⟨⟨List.ne_nil_of_mem hk, le_refl _⟩, fun x hx => ⟨(full x hx).1, ?_⟩⟩
      exact (full x hx).2.trans hlt.le
  obtain ⟨way, lower, full, hy⟩ := found
  have nodup : way.Nodup := lower.imp fun hlt he => hlt.ne (congrArg height he.symm)
  have short := length_le_linkCount nodup fun x hx => (full x hx).1
  exact mem_releasing_of_le (by omega) hy

/-- A release takes a node out of its parent, clears it and all below it, and leaves a sound
document. -/
theorem release_spec (hs : d.Sound) (hf : d.Falls height) {i : NodeId} (hi : d.isLive i = true) :
    ∃ gone, (∀ y, y ∈ gone ↔ (d.without i).Below i y) ∧
      Clears gone (d.without i) (d.release i) ∧ (d.release i).Sound := by
  set cut := d.without i with hcut
  have sub (q : NodeId) : cut.children q ⊆ d.children q := children_without_subset i q
  have falls : cut.Falls height := fun p c hc => hf p c (sub p hc)
  have sound : cut.Sound := hs.without i
  have result : d.release i = releaseWithin (cut.linkCount + 1) cut i := by
    unfold release
    rw [if_pos hi]
    rfl
  have nodup : (cut.releasing (cut.linkCount + 1) i).Nodup := sound.nodup_releasing falls _ i
  have clears := clears_releaseWithin (cut.linkCount + 1) cut i nodup
  refine ⟨cut.releasing (cut.linkCount + 1) i, fun y => mem_releasing_iff falls, result ▸ clears,
    result ▸ clears.sound sound nodup (fun y hy => ?_) fun {q c} hc hg => ?_⟩
  · rcases parent_of_mem_releasing hy with rfl | ⟨p, -, hp⟩
    · rwa [hcut, isLive_without]
    · exact sound.live hp
  · -- The node itself is cut off, so the parent of what is gone is gone.
    rcases parent_of_mem_releasing hg with rfl | ⟨p, hp, hcp⟩
    · exact absurd hc (hs.not_mem_without c q)
    · obtain rfl : q = p := Option.some.inj ((sound.linked hc).symm.trans (sound.linked hcp))
      exact hp

/-- After a release the heights still fall. -/
theorem Falls.release (hf : d.Falls height) (i : NodeId) : (d.release i).Falls height :=
  fun p _ hc => hf p _ (children_release_subset i p hc)

end Heights

/-! ## New nodes -/

/-- A new node is put at an index that nothing uses, and what listened there goes on listening. -/
theorem node_allocate (inside : ∀ x ∈ d.free, x < d.size) (kind : DocKind) (text : String)
    (q : NodeId) : (d.allocate kind text).1.node q = if q = (d.allocate kind text).2
      then { kind, text, listeners := (d.node q).listeners } else d.node q := by
  cases hd : d.free with
  | nil =>
    rw [allocate_of_nil hd, node_push]
    by_cases hq : q = d.size
    · rw [if_pos hq, if_pos hq, node_of_size_le (Nat.le_of_eq hq.symm)]
    · rw [if_neg hq, if_neg hq]
  | cons x rest =>
    rw [allocate_of_cons hd, node_update]
    by_cases hq : q = x
    · subst hq
      rw [if_pos ⟨rfl, inside q (hd ▸ List.mem_cons_self)⟩, if_pos rfl]
      rfl
    · rw [if_neg fun he => hq he.1.symm, if_neg hq]
      rfl

/-- From `d` to `later` the node `n` joins, at an index that is not live; it is by itself. -/
structure Joins (d later : Document L) (x : NodeId) (n : DocNode L) : Prop where
  dead : d.isLive x = false
  node : ∀ q, later.node q = if q = x then n else d.node q
  live : n.kind.isSome = true
  bare : n.children = []
  orphan : n.parent = none
  sound : later.Sound

namespace Joins

variable {x : NodeId} {n : DocNode L}

/-- Of a new node only that one becomes live. -/
theorem isLive (h : Joins d later x n) (q : NodeId) :
    later.isLive q = if q = x then true else d.isLive q := by
  rw [Document.isLive, h.node]
  split
  · exact h.live
  · rfl

/-- A new node has no children, and the others keep theirs. -/
theorem children (h : Joins d later x n) (q : NodeId) :
    later.children q = if q = x then [] else d.children q := by
  rw [Document.children, h.node]
  split
  · exact h.bare
  · rfl

/-- A new node has no parent, and the others keep theirs. -/
theorem parent? (h : Joins d later x n) (q : NodeId) :
    later.parent? q = if q = x then none else d.parent? q := by
  rw [Document.parent?, h.node]
  split
  · exact h.orphan
  · rfl

/-- Something is written to the node that has joined. -/
theorem write (h : Joins d later x n) {f : DocNode L → DocNode L}
    (hf : ∀ n, (f n).kind = n.kind ∧ (f n).parent = n.parent ∧ (f n).children = n.children) :
    Joins d (later.update x f) x (f n) where
  dead := h.dead
  node q := by
    have inside : x < later.size := lt_size_of_isLive (by rw [h.isLive, if_pos rfl])
    rw [node_update, h.node]
    by_cases hq : q = x
    · rw [if_pos ⟨hq.symm, inside⟩, if_pos hq, if_pos hq]
    · rw [if_neg fun he => hq he.1.symm, if_neg hq, if_neg hq]
  live := (hf n).1 ▸ h.live
  bare := (hf n).2.2.trans h.bare
  orphan := (hf n).2.1.trans h.orphan
  sound := (sameForest_update later x hf).sound h.sound

end Joins

/-- A new node joins a sound document. -/
theorem Sound.allocate (h : d.Sound) (kind : DocKind) (text : String) :
    Joins d (d.allocate kind text).1 (d.allocate kind text).2
      { kind, text, listeners := (d.node (d.allocate kind text).2).listeners } := by
  have fresh := fresh_allocate h.free (fun x hx => (h.spare x hx).1) kind text
  have node := node_allocate (fun x hx => (h.spare x hx).1) kind text
  set later := (d.allocate kind text).1
  set x := (d.allocate kind text).2
  have dead : d.isLive x = false := by
    rcases fresh.unused with hx | hx
    · exact (h.spare x hx).2
    · rw [isLive, node_of_size_le hx]
      rfl
  have other {p c : NodeId} (hc : c ∈ later.children p) : c ∈ d.children p := by
    rw [fresh.children] at hc
    split at hc
    · cases hc
    · exact hc
  have ne {p c : NodeId} (hc : c ∈ d.children p) : c ≠ x := by
    rintro rfl
    exact absurd (h.live hc) (by simp [dead])
  have live (q : NodeId) : later.isLive q = if q = x then true else d.isLive q := by
    rw [isLive, node]
    split <;> rfl
  have sound : later.Sound := by
    constructor
    · intro p c hc
      rw [fresh.parent, if_neg (ne (other hc))]
      exact h.linked (other hc)
    · intro p
      rw [fresh.children]
      split
      · exact List.nodup_nil
      · exact h.nodup p
    · intro p c hc
      rw [live, if_neg (ne (other hc))]
      exact h.live (other hc)
    · exact h.free.sublist fresh.free
    · intro y hy
      have hne := (fresh.left y (Or.inl hy)).2
      obtain ⟨hlt, hd⟩ := h.spare y (fresh.free.subset hy)
      rw [live, if_neg hne]
      exact ⟨Nat.lt_of_lt_of_le hlt fresh.size, hd⟩
  refine ⟨dead, fun q => ?_, rfl, rfl, rfl, sound⟩
  rw [node]
  split
  · next hq => rw [hq]
  · rfl

/-! ## Taking nodes in -/

/-- A node takes in some nodes as its children. -/
def adopt (d : Document L) (i : NodeId) (kids : List NodeId) : Document L :=
  (kids.foldl (fun d kid => d.update kid fun n => { n with parent := some i }) d).update i
    fun n => { n with children := kids }

/-- An element is made, then its children, which it then adopts. -/
theorem instantiate_element_eq (d : Document L) (tag : String) (attributes : Attributes)
    (children : List Markup) : d.instantiate (.element tag attributes children) =
      let made := d.createElement tag
      let inner := (made.1.update made.2 fun n => { n with attributes }).instantiateAll children
      (inner.1.adopt made.2 inner.2, made.2) := rfl

/-- What taking nodes in does to one node. -/
theorem node_adopt (d : Document L) (i : NodeId) (kids : List NodeId) (q : NodeId) :
    (d.adopt i kids).node q =
      if q < d.size then
        { d.node q with
          parent := if q ∈ kids then some i else d.parent? q
          children := if q = i then kids else d.children q }
      else {} := by
  have told (kids : List NodeId) (d : Document L) :
      (kids.foldl (fun d kid => d.update kid fun n => { n with parent := some i }) d).node q
        = (if q ∈ kids ∧ q < d.size then { d.node q with parent := some i } else d.node q) ∧
      (kids.foldl (fun d kid => d.update kid fun n => { n with parent := some i }) d).size
        = d.size := by
    induction kids generalizing d with
    | nil => simp
    | cons kid kids ih =>
      rw [List.foldl_cons]
      obtain ⟨node, size⟩ := ih (d.update kid fun n => { n with parent := some i })
      refine ⟨?_, size.trans (size_update ..)⟩
      rw [node, size_update, node_update]
      by_cases hk : q = kid
      · subst hk
        by_cases hs : q < d.size <;> simp [hs]
      · by_cases hq : q ∈ kids <;> simp [hk, hq, Ne.symm hk]
  obtain ⟨node, size⟩ := told kids d
  rw [adopt, node_update, size, node]
  by_cases hs : q < d.size
  · by_cases hi : q = i
    · subst hi
      by_cases hq : q ∈ kids <;> simp [hs, hq, parent?]
    · by_cases hq : q ∈ kids <;> simp [hs, hi, hq, Ne.symm hi, parent?, children]
  · have hi : ¬ (i = q ∧ i < d.size) := fun h => hs (h.1 ▸ h.2)
    rw [if_neg hi, if_neg fun h => hs h.2, if_neg hs, node_of_size_le (Nat.le_of_not_lt hs)]

/-- Adopting children touches only the parent and the children. -/
theorem node_adopt_of_not_mem {i : NodeId} {kids : List NodeId} {q : NodeId} (hi : q ≠ i)
    (hk : q ∉ kids) : (d.adopt i kids).node q = d.node q := by
  rw [node_adopt, if_neg hk, if_neg hi]
  split
  · rfl
  · next hs => rw [node_of_size_le (Nat.le_of_not_lt hs)]

/-- Adopting children needs no new nodes. -/
theorem size_adopt (d : Document L) (i : NodeId) (kids : List NodeId) :
    (d.adopt i kids).size = d.size ∧ (d.adopt i kids).free = d.free := by
  have told (kids : List NodeId) (d : Document L) :
      let later := kids.foldl (fun d kid => d.update kid fun n => { n with parent := some i }) d
      later.size = d.size ∧ later.free = d.free := by
    induction kids generalizing d with
    | nil => exact ⟨rfl, rfl⟩
    | cons kid kids ih =>
      obtain ⟨size, free⟩ := ih (d.update kid fun n => { n with parent := some i })
      exact ⟨size.trans (size_update ..), free⟩
  exact ⟨(size_update ..).trans (told kids d).1, (told kids d).2⟩

/-- Adopting children leaves every node of its kind. -/
theorem kind_adopt (d : Document L) (i : NodeId) (kids : List NodeId) (q : NodeId) :
    ((d.adopt i kids).node q).kind = (d.node q).kind := by
  rw [node_adopt]
  split
  · rfl
  · next hs => rw [node_of_size_le (Nat.le_of_not_lt hs)]

/-- The parent has the adopted nodes for children, and the others keep theirs. -/
theorem children_adopt {i : NodeId} (hi : d.isLive i = true) (kids : List NodeId) (q : NodeId) :
    (d.adopt i kids).children q = if q = i then kids else d.children q := by
  rw [children, node_adopt]
  split
  · rfl
  · next hs =>
    have hq : q ≠ i := fun he => hs (he ▸ lt_size_of_isLive hi)
    rw [if_neg hq, children, node_of_size_le (Nat.le_of_not_lt hs)]

/-- The adopted nodes have the new parent, and the others keep theirs. -/
theorem parent?_adopt (i : NodeId) {kids : List NodeId} (live : ∀ k ∈ kids, d.isLive k = true)
    (q : NodeId) : (d.adopt i kids).parent? q = if q ∈ kids then some i else d.parent? q := by
  rw [parent?, node_adopt]
  split
  · rfl
  · next hs =>
    have hq : q ∉ kids := fun hm => hs (lt_size_of_isLive (live q hm))
    rw [if_neg hq, parent?, node_of_size_le (Nat.le_of_not_lt hs)]

/-- A node without children takes some in that have no parent. -/
theorem Sound.adopt (hs : d.Sound) {i : NodeId} {kids : List NodeId} (hi : d.isLive i = true)
    (nodup : kids.Nodup) (live : ∀ k ∈ kids, d.isLive k = true)
    (orphan : ∀ k ∈ kids, d.parent? k = none) : (d.adopt i kids).Sound := by
  have isLive (q : NodeId) : (d.adopt i kids).isLive q = d.isLive q := by
    rw [Document.isLive, kind_adopt, Document.isLive]
  constructor
  · intro q c hc
    rw [children_adopt hi] at hc
    rw [parent?_adopt i live]
    split at hc
    · next hq => rw [if_pos hc, hq]
    · have hk : c ∉ kids := fun hk => by
        have := hs.linked hc
        rw [orphan c hk] at this
        cases this
      rw [if_neg hk]
      exact hs.linked hc
  · intro q
    rw [children_adopt hi]
    split
    · exact nodup
    · exact hs.nodup q
  · intro q c hc
    rw [children_adopt hi] at hc
    rw [isLive]
    split at hc
    · exact live c hc
    · exact hs.live hc
  · rw [(size_adopt d i kids).2]
    exact hs.free
  · intro x hx
    rw [(size_adopt d i kids).2] at hx
    rw [(size_adopt d i kids).1, isLive]
    exact hs.spare x hx

end Document

end ComponentView
