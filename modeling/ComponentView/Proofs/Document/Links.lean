import ComponentView.Document
import Mathlib.Logic.Relation
import Mathlib.Tactic.Set

/-! # Parents and children

What moving a node does to the links between parents and children, node by node. A release touches
only the node and what is below it (`Document.node_release_of_not_below`), and nothing that only
takes nodes out brings a node below another (`Document.Below.of_sublist`). -/

namespace ComponentView

namespace Document

variable {L : Type} {d : Document L}

/-! ## One node at a time -/

/-- What an update does to one part of a node, if it leaves the node of an index never used as it
is. -/
theorem part_update {β : Type} (part : DocNode L → β) (i : NodeId) (f : DocNode L → DocNode L)
    (j : NodeId) : part ((d.update i f).node j) =
      if i = j ∧ i < d.size then part (f (d.node j)) else part (d.node j) := by
  rw [node_update]
  split <;> rfl

/-- Counting an operation changes no children. -/
@[simp] theorem children_count (f : Tally → Tally) (i : NodeId) :
    (d.count f).children i = d.children i := rfl

/-- Counting an operation changes no parent. -/
@[simp] theorem parent?_count (f : Tally → Tally) (i : NodeId) :
    (d.count f).parent? i = d.parent? i := rfl

/-- Counting an operation adds no node. -/
@[simp] theorem size_count (f : Tally → Tally) : (d.count f).size = d.size := rfl

/-- A node with children has a place in the array. -/
theorem lt_size_of_mem_children {i p : NodeId} (h : i ∈ d.children p) : p < d.size := by
  refine Nat.lt_of_not_le fun hp => ?_
  rw [children, node_of_size_le hp] at h
  cases h

/-! ## Taking a node out -/

/-- A node taken out of its parent is no longer among the children of that parent. -/
theorem children_unlink (p i q : NodeId) :
    (d.unlink p i).children q =
      if q = p then (d.children q).filter (· ≠ i) else d.children q := by
  unfold unlink children
  rw [part_update DocNode.children, part_update DocNode.children, ite_self]
  by_cases hq : q = p
  · subst hq
    rw [if_pos rfl]
    split
    · rfl
    · next h =>
      rw [node_of_size_le (by simpa using h)]
      rfl
  · rw [if_neg (fun h => hq h.1.symm), if_neg hq]

/-- After unlinking a node has no parent, and the others keep theirs. -/
theorem parent?_unlink (p i j : NodeId) :
    (d.unlink p i).parent? j = if j = i then none else d.parent? j := by
  unfold unlink parent?
  rw [part_update DocNode.parent, part_update DocNode.parent, ite_self, size_update]
  by_cases hj : j = i
  · subst hj
    rw [if_pos rfl]
    split
    · rfl
    · next h =>
      rw [node_of_size_le (by simpa using h)]
  · rw [if_neg (fun h => hj h.1.symm), if_neg hj]

/-- Unlinking adds no node. -/
@[simp] theorem size_unlink (p i : NodeId) : (d.unlink p i).size = d.size := by
  simp [unlink]

/-- Unlinking leaves every node of its kind. -/
theorem kind_unlink (p i j : NodeId) : ((d.unlink p i).node j).kind = (d.node j).kind := by
  unfold unlink
  rw [part_update DocNode.kind, part_update DocNode.kind, ite_self, ite_self]

/-- A node is taken out of its parent, if that is its parent. -/
theorem children_remove (p i q : NodeId) :
    (d.remove p i).children q =
      if d.parent? i = some p ∧ q = p then (d.children q).filter (· ≠ i) else d.children q := by
  unfold remove
  split
  · next h => rw [children_count, children_unlink]; simp [h]
  · next h => simp [h]

/-- A child that is removed has no parent, and the others keep theirs. -/
theorem parent?_remove (p i j : NodeId) :
    (d.remove p i).parent? j =
      if d.parent? i = some p ∧ j = i then none else d.parent? j := by
  unfold remove
  split
  · next h => rw [parent?_count, parent?_unlink]; simp [h]
  · next h => simp [h]

/-- Removing a child adds no node. -/
@[simp] theorem size_remove (p i : NodeId) : (d.remove p i).size = d.size := by
  unfold remove
  split <;> simp

/-- To detach a node is to remove it from its parent. -/
theorem detach_eq_remove {i p : NodeId} (h : d.parent? i = some p) : d.detach i = d.remove p i := by
  rw [detach, h]

/-- Once detached a node has no parent, and it is no longer among the children of the one it had. -/
theorem children_detach (i q : NodeId) :
    (d.detach i).children q =
      if d.parent? i = some q then (d.children q).filter (· ≠ i) else d.children q := by
  cases h : d.parent? i with
  | none => simp [detach, h]
  | some p =>
    rw [detach_eq_remove h, children_remove]
    by_cases hq : q = p
    · simp [h, hq]
    · simp [h, hq, Ne.symm hq]

/-- A detached node has no parent, and the others keep theirs. -/
theorem parent?_detach (i j : NodeId) :
    (d.detach i).parent? j = if j = i then none else d.parent? j := by
  cases h : d.parent? i with
  | none =>
    have : d.detach i = d := by rw [detach, h]
    rw [this]
    by_cases hj : j = i
    · rw [if_pos hj, hj, h]
    · rw [if_neg hj]
  | some p => rw [detach_eq_remove h, parent?_remove]; simp [h]

/-- Detaching adds no node. -/
@[simp] theorem size_detach (i : NodeId) : (d.detach i).size = d.size := by
  unfold detach
  split <;> simp

/-- The document without a node in the parent it has. -/
def without (d : Document L) (i : NodeId) : Document L :=
  match d.parent? i with
  | some parent => d.unlink parent i
  | none => d

/-- Only the parent of a node loses it from its children. -/
theorem children_without (i q : NodeId) :
    (d.without i).children q =
      if d.parent? i = some q then (d.children q).filter (· ≠ i) else d.children q := by
  unfold without
  cases h : d.parent? i with
  | none => simp
  | some p =>
    rw [children_unlink]
    by_cases hq : q = p
    · simp [hq]
    · simp [hq, Ne.symm hq]

/-- A node that was taken out has no parent, and the others keep theirs. -/
theorem parent?_without (i j : NodeId) :
    (d.without i).parent? j = if j = i then none else d.parent? j := by
  unfold without
  cases h : d.parent? i with
  | none =>
    by_cases hj : j = i
    · rw [if_pos hj, hj, h]
    · rw [if_neg hj]
  | some p => exact parent?_unlink p i j

/-- Taking a node out of its parent adds no node. -/
@[simp] theorem size_without (i : NodeId) : (d.without i).size = d.size := by
  unfold without
  split <;> simp

/-- Taking a node out of its parent leaves every node of its kind. -/
theorem kind_without (i j : NodeId) : ((d.without i).node j).kind = (d.node j).kind := by
  unfold without
  split
  · exact kind_unlink ..
  · rfl

/-- Taking a node out of its parent touches only the two. -/
theorem node_without_of_ne {i j : NodeId} (hj : j ≠ i) (hp : d.parent? i ≠ some j) :
    (d.without i).node j = d.node j := by
  unfold without
  cases h : d.parent? i with
  | none => rfl
  | some p =>
    have hpj : p ≠ j := fun he => hp (he ▸ h)
    show ((d.update p _).update i _).node j = _
    rw [node_update, if_neg fun he => hj he.1.symm, node_update, if_neg fun he => hpj he.1]

/-- Taking a node out of its parent frees nothing. -/
theorem free_without (i : NodeId) : (d.without i).free = d.free := by
  unfold without
  split <;> rfl

/-! ## Putting a node in -/

/-- A node put into a list comes to those that are there. -/
theorem mem_placeBefore {i c : NodeId} {reference : Option NodeId} {kids : List NodeId} :
    c ∈ placeBefore i reference kids ↔ c = i ∨ c ∈ kids := by
  induction kids with
  | nil => simp [placeBefore]
  | cons kid kids ih =>
    rw [placeBefore]
    split
    · rw [List.mem_cons]
    · rw [List.mem_cons, ih, List.mem_cons, or_left_comm]

/-- A node that is put into a parent is taken out of the one it has first. -/
theorem insertBefore_eq (d : Document L) (p i : NodeId) (reference : Option NodeId) :
    d.insertBefore p i reference =
      (((d.without i).update p fun n =>
          { n with children := placeBefore i reference n.children }).update i
        fun n => { n with parent := some p }).count fun t =>
          if reference.isNone then { t with appends := t.appends + 1 }
          else { t with inserts := t.inserts + 1 } := rfl

/-- A node put into a parent leaves the one it had. -/
theorem children_insertBefore {p : NodeId} (hp : p < d.size) (i : NodeId)
    (reference : Option NodeId) (q : NodeId) :
    (d.insertBefore p i reference).children q =
      if q = p then placeBefore i reference ((d.without i).children q)
      else (d.without i).children q := by
  rw [insertBefore_eq, children_count, children]
  rw [part_update DocNode.children, part_update DocNode.children, ite_self, size_without]
  by_cases hq : q = p
  · subst hq
    rw [if_pos ⟨rfl, hp⟩, if_pos rfl]
    rfl
  · rw [if_neg (fun h => hq h.1.symm), if_neg hq]
    rfl

/-- Where there is no parent, the node only leaves the one it had. -/
theorem children_insertBefore_of_size_le {p : NodeId} (hp : d.size ≤ p) (i : NodeId)
    (reference : Option NodeId) (q : NodeId) :
    (d.insertBefore p i reference).children q = (d.without i).children q := by
  rw [insertBefore_eq, children_count, children]
  rw [part_update DocNode.children, part_update DocNode.children, ite_self, size_without,
    if_neg fun he => Nat.not_lt.mpr hp he.2]
  rfl

/-- A child after a move is the node that has been put there, or was a child before. -/
theorem mem_children_insertBefore {p i q c : NodeId} {reference : Option NodeId}
    (hc : c ∈ (d.insertBefore p i reference).children q) :
    q = p ∧ c = i ∨ c ∈ (d.without i).children q := by
  rcases Nat.lt_or_ge p d.size with hp | hp
  · rw [children_insertBefore hp] at hc
    split at hc
    · next hq => exact (mem_placeBefore.mp hc).imp_left fun he => ⟨hq, he⟩
    · exact Or.inr hc
  · rw [children_insertBefore_of_size_le hp] at hc
    exact Or.inr hc

/-- An inserted node has the new parent, and the others keep theirs. -/
theorem parent?_insertBefore {i : NodeId} (hi : i < d.size) (p : NodeId)
    (reference : Option NodeId) (j : NodeId) :
    (d.insertBefore p i reference).parent? j = if j = i then some p else d.parent? j := by
  rw [insertBefore_eq, parent?_count, parent?]
  rw [part_update DocNode.parent, part_update DocNode.parent, ite_self, size_update, size_without]
  by_cases hj : j = i
  · subst hj
    rw [if_pos ⟨rfl, hi⟩, if_pos rfl]
  · rw [if_neg (fun h => hj h.1.symm), if_neg hj]
    exact (parent?_without i j).trans (if_neg hj)

/-- Inserting adds no node. -/
@[simp] theorem size_insertBefore (p i : NodeId) (reference : Option NodeId) :
    (d.insertBefore p i reference).size = d.size := by
  rw [insertBefore_eq, size_count, size_update, size_update, size_without]

/-- Inserting frees nothing. -/
theorem free_insertBefore (p i : NodeId) (reference : Option NodeId) :
    (d.insertBefore p i reference).free = d.free := free_without i

/-- Inserting leaves every node of its kind. -/
theorem kind_insertBefore (p i : NodeId) (reference : Option NodeId) (j : NodeId) :
    ((d.insertBefore p i reference).node j).kind = (d.node j).kind := by
  rw [insertBefore_eq, node_count, part_update DocNode.kind, part_update DocNode.kind, ite_self,
    ite_self, kind_without]

/-! ## What is below a node -/

/-- Whether a node is another or below it. -/
def Below (d : Document L) : NodeId → NodeId → Prop :=
  Relation.ReflTransGen fun p i => i ∈ d.children p

/-- Where nodes have lost children, less is below. -/
theorem Below.of_subset {later : Document L} (h : ∀ q, later.children q ⊆ d.children q)
    {p i : NodeId} (hb : later.Below p i) : d.Below p i :=
  Relation.ReflTransGen.mono (fun q _ hj => h q hj) _ _ hb

/-- Taking a node out of its parent adds nobody's children. -/
theorem children_without_subset (i q : NodeId) : (d.without i).children q ⊆ d.children q := by
  rw [children_without]
  split
  · exact List.filter_sublist.subset
  · exact List.Subset.refl _

/-- A node put into a parent comes below nothing but the parent and what that is below. -/
theorem Below.of_insertBefore {p i : NodeId} {reference : Option NodeId} {x c : NodeId}
    (hx : ¬ d.Below x p) (h : (d.insertBefore p i reference).Below x c) : d.Below x c := by
  induction h with
  | refl => exact .refl
  | @tail y c _ hc ih =>
    rcases mem_children_insertBefore hc with ⟨hy, -⟩ | hc
    · exact absurd (hy ▸ ih) hx
    · exact .tail ih (children_without_subset i y hc)

/-- A release makes no new index. -/
@[simp] theorem size_releaseWithin (depth : Nat) (d : Document L) (i : NodeId) :
    (releaseWithin depth d i).size = d.size := by
  induction depth generalizing d i with
  | zero => rfl
  | succ depth ih =>
    have all (kids : List NodeId) (d : Document L) :
        (kids.foldl (releaseWithin depth) d).size = d.size := by
      induction kids generalizing d with
      | nil => rfl
      | cons kid kids ihk => rw [List.foldl_cons, ihk, ih]
    show (((d.children i).foldl (releaseWithin depth) _).update i fun _ => {}).size = _
    rw [size_update, all, size_update]

/-- A release leaves the array as long as it was. -/
@[simp] theorem size_release (i : NodeId) : (d.release i).size = d.size := by
  unfold release
  split
  · exact (size_releaseWithin _ (d.without i) i).trans (size_without i)
  · rfl

/-- A release from a node touches only what is below it, and no node gets a child. -/
theorem releaseWithin_frame (depth : Nat) (d : Document L) (i : NodeId) :
    (∀ q, (releaseWithin depth d i).children q ⊆ d.children q) ∧
      ∀ j, ¬ d.Below i j → (releaseWithin depth d i).node j = d.node j := by
  induction depth generalizing d i with
  | zero => exact ⟨fun _ => List.Subset.refl _, fun _ _ => rfl⟩
  | succ depth ih =>
    -- The children of `i` are released one after another, with ever less below them.
    have all (kids : List NodeId) (d₁ : Document L) :
        (∀ q, (kids.foldl (releaseWithin depth) d₁).children q ⊆ d₁.children q) ∧
          ∀ j, (∀ kid ∈ kids, ¬ d₁.Below kid j) →
            (kids.foldl (releaseWithin depth) d₁).node j = d₁.node j := by
      induction kids generalizing d₁ with
      | nil => exact ⟨fun _ => List.Subset.refl _, fun _ _ => rfl⟩
      | cons kid kids ihk =>
        obtain ⟨sub, same⟩ := ih d₁ kid
        obtain ⟨subs, sames⟩ := ihk (releaseWithin depth d₁ kid)
        refine ⟨fun q => List.Subset.trans (subs q) (sub q), fun j hj => ?_⟩
        rw [List.forall_mem_cons] at hj
        exact (sames j fun k hk hb => hj.2 k hk (.of_subset sub hb)).trans (same j hj.1)
    have cut : ∀ q, (d.update i fun n => { n with children := [] }).children q ⊆ d.children q := by
      intro q
      unfold children
      rw [part_update DocNode.children]
      split
      · exact List.nil_subset _
      · exact List.Subset.refl _
    obtain ⟨sub, same⟩ := all (d.children i) (d.update i fun n => { n with children := [] })
    set cleared := (d.children i).foldl (releaseWithin depth)
      (d.update i fun n => { n with children := [] })
    constructor
    · intro q
      refine List.Subset.trans ?_ (List.Subset.trans (sub q) (cut q))
      show ((cleared.update i fun _ => {}).node q).children ⊆ (cleared.node q).children
      rw [part_update DocNode.children]
      split
      · exact List.nil_subset _
      · exact List.Subset.refl _
    · intro j hj
      have hij : i ≠ j := fun h => hj (h ▸ .refl)
      show (cleared.update i fun _ => {}).node j = _
      rw [node_update, if_neg (fun h => hij h.1), same j, node_update,
        if_neg (fun h => hij h.1)]
      intro kid hkid hb
      exact hj (.head hkid (Below.of_subset cut hb))

/-- No node gets a parent by a release. -/
theorem parent?_releaseWithin (depth : Nat) (d : Document L) (i : NodeId) {j p : NodeId}
    (h : (releaseWithin depth d i).parent? j = some p) : d.parent? j = some p := by
  induction depth generalizing d i with
  | zero => exact h
  | succ depth ih =>
    have all (kids : List NodeId) (d : Document L)
        (h : (kids.foldl (releaseWithin depth) d).parent? j = some p) : d.parent? j = some p := by
      induction kids generalizing d with
      | nil => exact h
      | cons kid kids ihk => exact ih d kid (ihk _ h)
    have kept : ((d.children i).foldl (releaseWithin depth)
        (d.update i fun n => { n with children := [] })).parent? j = some p := by
      change ((((d.children i).foldl (releaseWithin depth) _).update i fun _ => {}).node j).parent
        = some p at h
      rw [part_update DocNode.parent] at h
      split at h
      · cases h
      · exact h
    have := all _ _ kept
    unfold parent? at this
    rwa [part_update DocNode.parent, ite_self] at this

/-- A parent that a node has after a release it had before. -/
theorem parent?_release {i j p : NodeId} (h : (d.release i).parent? j = some p) :
    d.parent? j = some p := by
  unfold release at h
  split at h
  · have := parent?_releaseWithin _ (d.without i) i h
    rw [parent?_without] at this
    split at this
    · cases this
    · exact this
  · exact h

/-- No node gets a child by a release. -/
theorem children_release_subset (i q : NodeId) : (d.release i).children q ⊆ d.children q := by
  unfold release
  split
  · refine List.Subset.trans ((releaseWithin_frame _ (d.without i) i).1 q) ?_
    rw [children_without]
    split
    · exact List.filter_sublist.subset
    · exact List.Subset.refl _
  · exact List.Subset.refl _

/-- What is not below a released node only loses that node. -/
theorem node_release {i j : NodeId} (h : ¬ d.Below i j) :
    (d.release i).node j = (if d.isLive i then d.without i else d).node j := by
  unfold release
  split
  · exact (releaseWithin_frame _ (d.without i) i).2 j fun hb =>
      h (.of_subset (children_without_subset i) hb)
  · rfl

/-! ## New nodes -/

/-- From `d` to `later` one node comes in that was not in use, without parent and children. -/
structure Fresh (d later : Document L) (x : NodeId) : Prop where
  unused : x ∈ d.free ∨ d.size ≤ x
  inside : x < later.size
  size : d.size ≤ later.size
  children : ∀ q, later.children q = if q = x then [] else d.children q
  parent : ∀ q, later.parent? q = if q = x then none else d.parent? q
  free : later.free.Sublist d.free
  left : ∀ y, y ∈ later.free ∨ later.size ≤ y → (y ∈ d.free ∨ d.size ≤ y) ∧ y ≠ x

/-- A new node takes an index that is not in use. -/
theorem fresh_allocate (nodup : d.free.Nodup) (inside : ∀ x ∈ d.free, x < d.size)
    (kind : DocKind) (text : String) :
    Fresh d (d.allocate kind text).1 (d.allocate kind text).2 := by
  cases hd : d.free with
  | nil =>
    rw [allocate_of_nil hd]
    refine
      { unused := Or.inr (Nat.le_refl _), inside := by simp, size := by simp
        children := fun q => ?_, parent := fun q => ?_, free := .refl _
        left := fun y hy => ?_ }
    · unfold Document.children
      rw [node_push]
      split <;> rfl
    · unfold Document.parent?
      rw [node_push]
      split <;> rfl
    · have hy : d.size + 1 ≤ y := by simpa [hd] using hy
      exact ⟨Or.inr (Nat.le_of_lt hy), Nat.ne_of_gt hy⟩
  | cons x rest =>
    have hx : x < d.size := inside x (hd ▸ List.mem_cons_self ..)
    rw [allocate_of_cons hd]
    have hsize (f : DocNode L → DocNode L) :
        ({ d with free := rest }.update x f).size = d.size := size_update ..
    refine
      { unused := Or.inl (hd ▸ List.mem_cons_self ..), inside := by rwa [hsize]
        size := Nat.le_of_eq (hsize _).symm
        children := fun q => ?_, parent := fun q => ?_
        free := hd ▸ List.sublist_cons_self x rest
        left := fun y hy => ?_ }
    · unfold Document.children
      rw [part_update DocNode.children]
      by_cases hq : q = x
      · rw [if_pos ⟨hq.symm, hx⟩, if_pos hq]
      · rw [if_neg fun h => hq h.1.symm, if_neg hq]
        rfl
    · unfold Document.parent?
      rw [part_update DocNode.parent]
      by_cases hq : q = x
      · rw [if_pos ⟨hq.symm, hx⟩, if_pos hq]
      · rw [if_neg fun h => hq h.1.symm, if_neg hq]
        rfl
    · rw [hsize] at hy
      rcases hy with hy | hy
      · refine ⟨Or.inl (hd ▸ List.mem_cons_of_mem x hy), ?_⟩
        rintro rfl
        exact (List.nodup_cons.mp (hd ▸ nodup)).1 hy
      · exact ⟨Or.inr hy, Nat.ne_of_gt (Nat.lt_of_lt_of_le hx hy)⟩

end Document

end ComponentView
