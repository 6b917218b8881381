import ComponentView.Proofs.Document.WellFormed

/-! # What a change leaves alone

Writes move no node. Taking a node out or putting it in changes the lists of children in one place,
and writing a text over what is below a node changes nothing of the nodes that are not below it
(`Document.WellFormed.rewrites_setText`). -/

namespace ComponentView

namespace Document

variable {L : Type} {d later : Document L}

/-! ## Writes -/

namespace SameForest

/-- A document has its own forest. -/
theorem refl (d : Document L) : SameForest d d :=
  ⟨fun _ => rfl, fun _ => rfl, fun _ => rfl, rfl, rfl⟩

/-- The forest stays the same over two changes that leave it so. -/
theorem trans {latest : Document L} (h : SameForest d later) (h' : SameForest later latest) :
    SameForest d latest :=
  ⟨fun i => (h'.kind i).trans (h.kind i), fun i => (h'.parent i).trans (h.parent i),
    fun i => (h'.children i).trans (h.children i), h'.free.trans h.free, h'.size.trans h.size⟩

end SameForest

/-- Counting an operation leaves the forest as it is. -/
theorem sameForest_count (d : Document L) (f : Tally → Tally) : SameForest d (d.count f) :=
  ⟨fun _ => rfl, fun _ => rfl, fun _ => rfl, rfl, rfl⟩

/-- Writing an attribute leaves the forest as it is. -/
theorem sameForest_setAttribute (d : Document L) (i : NodeId) (name : String)
    (value : Option String) : SameForest d (d.setAttribute i name value) := by
  unfold setAttribute
  split
  · exact .refl d
  · exact (sameForest_update d i (by exact fun _ => ⟨rfl, rfl, rfl⟩)).trans (sameForest_count _ _)

/-- Setting a class leaves the forest as it is. -/
theorem sameForest_setClass (d : Document L) (i : NodeId) (name : String) (on : Bool) :
    SameForest d (d.setClass i name on) := by
  unfold setClass
  split
  · exact .refl d
  · split
    · exact sameForest_setAttribute ..
    · exact sameForest_setAttribute ..

/-- Setting a style leaves the forest as it is. -/
theorem sameForest_setStyle (d : Document L) (i : NodeId) (property : String)
    (value : Option String) : SameForest d (d.setStyle i property value) :=
  sameForest_setAttribute ..

/-- Listening leaves the forest as it is. -/
theorem sameForest_listen (d : Document L) (i : NodeId) (event : String) (listener : L) :
    SameForest d (d.listen i event listener) :=
  sameForest_update d i fun _ => ⟨rfl, rfl, rfl⟩

/-- Detaching a node is taking it out of the parent it has. -/
theorem sameForest_detach (d : Document L) (i : NodeId) : SameForest (d.without i) (d.detach i) := by
  cases h : d.parent? i with
  | none =>
    rw [detach, Document.without, h]
    exact .refl d
  | some p =>
    rw [detach_eq_remove h, remove, if_pos h, Document.without, h]
    exact sameForest_count ..

/-- A node is removed from the parent it has, or nothing happens. -/
theorem remove_eq (d : Document L) (p i : NodeId) :
    d.remove p i = if d.parent? i = some p then d.detach i else d := by
  split
  · next h => rw [detach_eq_remove h]
  · next h => rw [remove, if_neg h]

/-! ## Lists of children -/

namespace Sound

/-- A node that is taken out is among the children of nobody. -/
theorem children_without (h : d.Sound) (i q : NodeId) :
    (d.without i).children q = (d.children q).filter (· ≠ i) := by
  rw [Document.children_without]
  split
  · rfl
  · next hp =>
    refine (List.filter_eq_self.mpr fun c hc => ?_).symm
    rw [decide_eq_true_eq]
    exact fun he => hp (h.linked (he ▸ hc))

/-- An inserted node stands before the reference in its parent, and nowhere else. -/
theorem children_insertBefore (h : d.Sound) {p : NodeId} (hp : d.isLive p = true) (i : NodeId)
    (reference : Option NodeId) (q : NodeId) :
    (d.insertBefore p i reference).children q =
      if q = p then placeBefore i reference ((d.children q).filter (· ≠ i))
      else (d.children q).filter (· ≠ i) := by
  rw [Document.children_insertBefore (lt_size_of_isLive hp), h.children_without]

/-- A node keeps its children when another is put into a third. -/
theorem children_insertBefore_of_not_mem (h : d.Sound) {p i q : NodeId}
    (hp : d.isLive p = true) (hq : q ≠ p) (hi : i ∉ d.children q) (reference : Option NodeId) :
    (d.insertBefore p i reference).children q = d.children q := by
  rw [h.children_insertBefore hp, if_neg hq]
  exact List.filter_eq_self.mpr fun c hc => decide_eq_true fun he => hi (he ▸ hc)

/-- A removed node is no longer a child of its parent, and the others keep theirs. -/
theorem children_remove (h : d.Sound) (p i q : NodeId) :
    (d.remove p i).children q =
      if q = p then (d.children q).filter (· ≠ i) else d.children q := by
  rw [Document.children_remove]
  by_cases hq : q = p
  · subst hq
    by_cases hp : d.parent? i = some q
    · rw [if_pos ⟨hp, rfl⟩, if_pos rfl]
    · rw [if_neg fun he => hp he.1, if_pos rfl]
      refine (List.filter_eq_self.mpr fun c hc => ?_).symm
      rw [decide_eq_true_eq]
      exact fun he => hp (h.linked (he ▸ hc))
  · rw [if_neg fun he => hq he.2, if_neg hq]

/-- Removing a child adds nobody's children. -/
theorem children_remove_subset (h : d.Sound) (p i q : NodeId) :
    (d.remove p i).children q ⊆ d.children q := by
  rw [h.children_remove]
  split
  · exact List.filter_sublist.subset
  · exact List.Subset.refl _

end Sound

/-- A node that is put before another, which is taken out then, is in the place of the other. -/
theorem filter_placeBefore {i x : NodeId} {kids : List NodeId} (hx : x ∈ kids) (nodup : kids.Nodup)
    (hi : i ≠ x) : (placeBefore i (some x) kids).filter (· ≠ x)
      = kids.map fun c => if c = x then i else c := by
  induction kids with
  | nil => cases hx
  | cons kid kids ih =>
    rw [List.nodup_cons] at nodup
    rw [placeBefore, List.map_cons]
    by_cases hk : x = kid
    · subst hk
      have other {c : NodeId} (hc : c ∈ kids) : c ≠ x := fun he => nodup.1 (he ▸ hc)
      rw [if_pos rfl, if_pos rfl, List.filter_cons_of_pos (by simpa using hi),
        List.filter_cons_of_neg (by simp),
        List.filter_eq_self.mpr fun c hc => by simpa using other hc]
      exact congrArg (i :: ·) ((List.map_id kids).symm.trans
        (List.map_congr_left fun c hc => (if_neg (other hc)).symm))
    · rw [if_neg fun he => hk (Option.some.inj he), if_neg (Ne.symm hk),
        List.filter_cons_of_pos (by simpa using Ne.symm hk),
        ih ((List.mem_cons.mp hx).resolve_left hk) nodup.2]

/-! ## Releases -/

/-- A release takes the node out of its parent first. -/
theorem release_without {i : NodeId} (h : d.isLive i = true) :
    (d.without i).release i = d.release i := by
  have again : (d.without i).without i = d.without i :=
    without_eq_self (by rw [parent?_without, if_pos rfl])
  unfold release
  rw [isLive_without, if_pos h, if_pos h]
  show releaseWithin (((d.without i).without i).linkCount + 1) ((d.without i).without i) i = _
  rw [again]
  rfl

section Outside

variable {S : NodeId → Prop}

/-- Nothing of what is closed upwards is below what is not in it. -/
theorem not_below_of_up (up : ∀ {q c}, c ∈ d.children q → S c → S q) {i q : NodeId} (hi : ¬ S i)
    (hq : S q) : ¬ d.Below i q := by
  intro hb
  induction hb with
  | refl => exact hi hq
  | tail _ hc ih => exact ih (up hc hq)

/-- From `d` to `later` nothing of the nodes in `S` changes but the children of `p`. -/
structure Rewrites (S : NodeId → Prop) (p : NodeId) (d later : Document L) : Prop where
  kind : ∀ q, S q → (later.node q).kind = (d.node q).kind
  parent : ∀ q, S q → later.parent? q = d.parent? q
  children : ∀ q, S q → q ≠ p → later.children q = d.children q
  own : ∀ c ∈ later.children p, ¬ S c

/-- The children of a node are released one after another. -/
theorem rewrites_foldl_release {p : NodeId} (up : ∀ {q c}, c ∈ d.children q → S c → S q)
    (own : ∀ c ∈ d.children p, ¬ S c) {kids : List NodeId} (hk : ∀ k ∈ kids, ¬ S k)
    (hp : ∀ k ∈ kids, ∀ q, d.parent? k = some q → q = p) :
    Rewrites S p d (kids.foldl Document.release d) := by
  induction kids generalizing d with
  | nil => exact ⟨fun _ _ => rfl, fun _ _ => rfl, fun _ _ _ => rfl, own⟩
  | cons k kids ih =>
    rw [List.forall_mem_cons] at hk hp
    have subset (q : NodeId) := children_release_subset (d := d) k q
    have rest : Rewrites S p (d.release k) ((k :: kids).foldl Document.release d) :=
      ih (fun hc => up (subset _ hc)) (fun c hc => own c (subset p hc)) hk.2
        fun k' hk' q hq => hp.2 k' hk' q (parent?_release hq)
    -- What is in `S` is not below `k`, and `k` has no other parent than `p`.
    have node {q : NodeId} (hq : S q) :
        (d.release k).node q = (if d.isLive k then d.without k else d).node q :=
      node_release (not_below_of_up up hk.1 hq)
    have ne {q : NodeId} (hq : S q) : q ≠ k := fun he => hk.1 (he ▸ hq)
    constructor
    · intro q hq
      rw [rest.kind q hq, node hq]
      split
      · exact kind_without k q
      · rfl
    · intro q hq
      rw [rest.parent q hq, parent?, node hq]
      split
      · exact (parent?_without k q).trans (if_neg (ne hq))
      · rfl
    · intro q hq hne
      rw [rest.children q hq hne, Document.children, node hq]
      split
      · rw [node_without_of_ne (ne hq) fun he => hne (hp.1 q he)]
        rfl
      · rfl
    · exact rest.own

/-- A text is written over what is below a node. -/
theorem WellFormed.rewrites_setText (h : d.WellFormed) {p : NodeId} (hp : S p)
    (live : ∀ q, S q → d.isLive q = true) (up : ∀ {q c}, c ∈ d.children q → S c → S q)
    (own : ∀ c ∈ d.children p, ¬ S c) (content : String) :
    Rewrites S p d (d.setText p content) := by
  have same {later : Document L} (hs : SameForest d later) : Rewrites S p d later :=
    ⟨fun q _ => hs.kind q, fun q _ => hs.parent q, fun q _ _ => hs.children q,
      fun c hc => own c (hs.children p ▸ hc)⟩
  have written (i : NodeId) : SameForest d (d.writeText i content).countText :=
    (sameForest_update d i (f := fun n => { n with text := content })
      fun _ => ⟨rfl, rfl, rfl⟩).trans (sameForest_count _ _)
  unfold Document.setText
  split
  · exact same (.refl d)
  · exact same (written p)
  · split
    · exact same (written _)
    · have cleared : Rewrites S p d ((d.children p).foldl Document.release d) :=
        rewrites_foldl_release up own own fun k hk q hq =>
          Option.some.inj (hq.symm.trans (h.linked hk))
      obtain ⟨wellFormed, alive⟩ := h.foldl_release fun k hk => h.not_below_parent hk
      rw [live p hp] at alive
      generalize (d.children p).foldl Document.release d = d₁ at cleared wellFormed alive ⊢
      have joins := wellFormed.toSound.allocate .text content
      change Joins d₁ (d₁.createText content).1 (d₁.createText content).2 _ at joins
      dsimp only
      generalize d₁.createText content = new at joins ⊢
      obtain ⟨d₂, x⟩ := new
      dsimp only at joins ⊢
      -- The new text is in `S` as little as any node that is not live.
      have ne {q : NodeId} (hq : S q) : q ≠ x := by
        rintro rfl
        have := live q hq
        rw [isLive, ← cleared.kind q hq, ← isLive, joins.dead] at this
        cases this
      have inside : p < d₂.size :=
        lt_size_of_isLive (by rw [joins.isLive, if_neg (ne hp)]; exact alive)
      set d₃ := d₂.update p fun n => { n with children := n.children ++ [x] }
      have node {q : NodeId} (hq : S q) : (d₃.update x fun n => { n with parent := some p }).node q
          = if p = q then { d₁.node q with children := d₁.children q ++ [x] } else d₁.node q := by
        rw [node_update, if_neg fun he => ne hq he.1.symm, node_update, joins.node, if_neg (ne hq)]
        by_cases he : p = q
        · rw [if_pos ⟨he, inside⟩, if_pos he]
          rfl
        · rw [if_neg fun hc => he hc.1, if_neg he]
      constructor
      · intro q hq
        rw [node_countText, node hq, ← cleared.kind q hq]
        split <;> rfl
      · intro q hq
        rw [parent?, node_countText, node hq, ← cleared.parent q hq]
        split <;> rfl
      · intro q hq hne
        rw [children, node_countText, node hq, if_neg (Ne.symm hne)]
        exact cleared.children q hq hne
      · intro c hc
        rw [children, node_countText, node hp, if_pos rfl] at hc
        rcases List.mem_append.mp hc with hc | hc
        · exact cleared.own c hc
        · exact fun hS => ne hS (List.mem_singleton.mp hc)

end Outside

end Document

end ComponentView
