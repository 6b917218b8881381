import ComponentView.Document.Content
import ComponentView.Proofs.Document.Forest

/-! # Well-formed documents

The links between nodes are kept twice, at the child and at the parent, and an index can be used
again. In a well-formed document the two sides of every link fit, the links form a forest, nothing
is kept under an index that is not live, and exactly these indices wait on the free list, each once
(`Document.WellFormed`). Each operation on the document keeps it so, when it is called for live
nodes and puts none of them under itself or below itself. -/

namespace ComponentView

namespace Document

variable {L : Type} {d : Document L}

/-- Both sides of every link fit, there is no way around in a circle, and an index is live, or its
node is blank and it waits on the free list. -/
structure WellFormed (d : Document L) : Prop extends Sound d where
  up : ∀ {p c}, d.parent? c = some p → c ∈ d.children p
  blank : ∀ {i}, d.isLive i = false → d.node i = {}
  spent : ∀ {i}, i < d.size → d.isLive i = false → i ∈ d.free
  acyclic : ∃ height : NodeId → Nat, d.Falls height

/-- The document without nodes is well-formed. -/
theorem wellFormed_empty : WellFormed ({} : Document L) :=
  { sound_empty with
    up := by simp [parent?, node]
    blank := by simp [node]
    spent := by simp
    acyclic := ⟨fun _ => 0, fun p c hc => by simp [children, node] at hc⟩ }

namespace WellFormed

/-! ## What is known of links -/

/-- Both ends of a link downwards are live. -/
theorem isLive_of_mem_children (h : d.WellFormed) {p c : NodeId} (hc : c ∈ d.children p) :
    d.isLive p = true ∧ d.isLive c = true := by
  refine ⟨?_, h.live hc⟩
  by_contra hp
  rw [children, h.blank (by simpa using hp)] at hc
  cases hc

/-- Both ends of a link upwards are live. -/
theorem isLive_of_parent? (h : d.WellFormed) {p c : NodeId} (hp : d.parent? c = some p) :
    d.isLive p = true ∧ d.isLive c = true := h.isLive_of_mem_children (h.up hp)

/-- A node below another is as high at most, so no parent is below its child. -/
theorem not_below_parent (h : d.WellFormed) {p c : NodeId} (hc : c ∈ d.children p) :
    ¬ d.Below c p := by
  obtain ⟨height, falls⟩ := h.acyclic
  intro hb
  have := falls p c hc
  have := falls.le_of_below hb
  omega

/-! ## What a node shows -/

/-- Counting an operation leaves a document well-formed. -/
theorem count (h : d.WellFormed) (f : Tally → Tally) : (d.count f).WellFormed :=
  { linked := h.linked, nodup := h.nodup, live := h.live, free := h.free, spare := h.spare
    up := h.up, blank := h.blank, spent := h.spent, acyclic := h.acyclic }

/-- A document that is well-formed after an operation was counted was so before. -/
theorem of_count {f : Tally → Tally} (h : (d.count f).WellFormed) : d.WellFormed :=
  { linked := h.linked, nodup := h.nodup, live := h.live, free := h.free, spare := h.spare
    up := h.up, blank := h.blank, spent := h.spent, acyclic := h.acyclic }

/-- What a live node shows can be written. -/
theorem write (h : d.WellFormed) {i : NodeId} (hi : d.isLive i = true)
    {f : DocNode L → DocNode L}
    (hf : ∀ n, (f n).kind = n.kind ∧ (f n).parent = n.parent ∧ (f n).children = n.children) :
    (d.update i f).WellFormed := by
  have same := sameForest_update d i hf
  obtain ⟨height, falls⟩ := h.acyclic
  refine
    { same.sound h.toSound with
      up := fun {p c} hp => ?_, blank := fun {j} hj => ?_, spent := fun {j} hlt hj => ?_
      acyclic := ⟨height, fun p c hc => falls p c (same.children p ▸ hc)⟩ }
  · rw [same.children]
    exact h.up (same.parent c ▸ hp)
  · rw [same.isLive] at hj
    have hne : i ≠ j := by
      rintro rfl
      rw [hi] at hj
      cases hj
    rw [node_update, if_neg fun he => hne he.1]
    exact h.blank hj
  · rw [same.isLive] at hj
    exact h.spent (same.size ▸ hlt) hj

/-- Writing an attribute of a live node leaves a document well-formed. -/
theorem setAttribute (h : d.WellFormed) {i : NodeId} (hi : d.isLive i = true) (name : String)
    (value : Option String) : (d.setAttribute i name value).WellFormed := by
  unfold Document.setAttribute
  split
  · exact h
  · exact (h.write hi (by exact fun _ => ⟨rfl, rfl, rfl⟩)).count _

/-- Setting a class of a live node leaves a document well-formed. -/
theorem setClass (h : d.WellFormed) {i : NodeId} (hi : d.isLive i = true) (name : String)
    (on : Bool) : (d.setClass i name on).WellFormed := by
  unfold Document.setClass
  split
  · exact h
  · split
    · exact h.setAttribute hi _ _
    · exact h.setAttribute hi _ _

/-- Setting a style of a live node leaves a document well-formed. -/
theorem setStyle (h : d.WellFormed) {i : NodeId} (hi : d.isLive i = true) (property : String)
    (value : Option String) : (d.setStyle i property value).WellFormed := h.setAttribute hi _ _

/-- Listening at a live node leaves a document well-formed. -/
theorem listen (h : d.WellFormed) {i : NodeId} (hi : d.isLive i = true) (event : String)
    (listener : L) : (d.listen i event listener).WellFormed := h.write hi fun _ => ⟨rfl, rfl, rfl⟩

/-! ## Taking a node out -/

/-- Taking a node out of its parent leaves a document well-formed. -/
theorem without (h : d.WellFormed) (i : NodeId) : (d.without i).WellFormed := by
  obtain ⟨height, falls⟩ := h.acyclic
  refine
    { h.toSound.without i with
      up := fun {p c} hp => ?_, blank := fun {j} hj => ?_, spent := fun {j} hlt hj => ?_
      acyclic := ⟨height, fun p c hc => falls p c (children_without_subset i p hc)⟩ }
  · rw [parent?_without] at hp
    split at hp
    · cases hp
    · next hc =>
      rw [children_without]
      split
      · exact List.mem_filter.mpr ⟨h.up hp, by simpa using hc⟩
      · exact h.up hp
  · rw [isLive_without] at hj
    cases hp : d.parent? i with
    | none =>
      rw [without_eq_self hp]
      exact h.blank hj
    | some p =>
      obtain ⟨livep, livei⟩ := h.isLive_of_parent? hp
      have hi : j ≠ i := by
        rintro rfl
        rw [livei] at hj
        cases hj
      have hpj : d.parent? i ≠ some j := by
        rw [hp]
        rintro he
        obtain rfl := Option.some.inj he
        rw [livep] at hj
        cases hj
      rw [node_without_of_ne hi hpj]
      exact h.blank hj
  · rw [isLive_without] at hj
    rw [size_without] at hlt
    rw [free_without]
    exact h.spent hlt hj

/-- Removing a child leaves a document well-formed. -/
theorem remove (h : d.WellFormed) (p i : NodeId) : (d.remove p i).WellFormed := by
  unfold Document.remove
  split
  · next hp =>
    have := h.without i
    rw [Document.without, hp] at this
    exact this.count _
  · exact h

/-- Detaching a node leaves a document well-formed. -/
theorem detach (h : d.WellFormed) (i : NodeId) : (d.detach i).WellFormed := by
  unfold Document.detach
  split
  · exact h.remove _ i
  · exact h

/-! ## Putting a node in -/

open Classical in
/-- A node that is put into a parent which is not below it closes no circle: all that the parent is
below is lifted above the node. -/
theorem falls_insertBefore (h : d.WellFormed) {p i : NodeId} (hp : d.isLive p = true)
    (apart : ¬ d.Below i p) (reference : Option NodeId) :
    ∃ height : NodeId → Nat, (d.insertBefore p i reference).Falls height := by
  obtain ⟨height, falls⟩ := h.acyclic
  refine ⟨fun j => if d.Below j p then height j + height i + 1 else height j, fun q c hc => ?_⟩
  have old (hc : c ∈ d.children q) :
      (if d.Below c p then height c + height i + 1 else height c)
        < if d.Below q p then height q + height i + 1 else height q := by
    have := falls q c hc
    by_cases hb : d.Below c p
    · rw [if_pos hb, if_pos (show d.Below q p from .head hc hb)]
      omega
    · rw [if_neg hb]
      split <;> omega
  rcases mem_children_insertBefore hc with ⟨rfl, rfl⟩ | hc
  · show (if d.Below c q then _ else _) < if d.Below q q then _ else _
    rw [if_neg apart, if_pos (show d.Below q q from .refl)]
    omega
  · exact old (children_without_subset i q hc)

/-- A live node may be inserted where its new parent does not lie below it. -/
theorem insertBefore (h : d.WellFormed) {p i : NodeId} (hp : d.isLive p = true)
    (hi : d.isLive i = true) (apart : ¬ d.Below i p) (reference : Option NodeId) :
    (d.insertBefore p i reference).WellFormed := by
  refine
    { h.toSound.insertBefore p hi reference with
      up := fun {q c} hq => ?_, blank := fun {j} hj => ?_, spent := fun {j} hlt hj => ?_
      acyclic := h.falls_insertBefore hp apart reference }
  · rw [parent?_insertBefore (lt_size_of_isLive hi)] at hq
    rw [children_insertBefore (lt_size_of_isLive hp)]
    split at hq
    · next hc =>
      obtain rfl := Option.some.inj hq
      rw [if_pos rfl]
      exact mem_placeBefore.mpr (Or.inl hc)
    · next hc =>
      have kept : c ∈ (d.without i).children q :=
        (h.without i).up ((parent?_without i c).trans ((if_neg hc).trans hq))
      split
      · exact mem_placeBefore.mpr (Or.inr kept)
      · exact kept
  · rw [isLive_insertBefore] at hj
    have ne {k : NodeId} (hk : d.isLive k = true) : k ≠ j := by
      rintro rfl
      rw [hk] at hj
      cases hj
    rw [insertBefore_eq, node_count, node_update, if_neg fun he => ne hi he.1, node_update,
      if_neg fun he => ne hp he.1]
    exact (h.without i).blank ((isLive_without i j).trans hj)
  · rw [isLive_insertBefore] at hj
    rw [size_insertBefore] at hlt
    rw [free_insertBefore]
    exact h.spent hlt hj

/-- A live node may take a place that does not lie below it. -/
theorem replace (h : d.WellFormed) {old i : NodeId} (hi : d.isLive i = true)
    (apart : ∀ p, d.parent? old = some p → ¬ d.Below i p) : (d.replace old i).WellFormed := by
  unfold Document.replace
  split
  · next p hp =>
    exact (h.insertBefore (h.isLive_of_parent? hp).1 hi (apart p hp) (some old)).remove p old
  · exact h

/-! ## Releasing nodes -/

/-- A release leaves a document well-formed. -/
theorem release (h : d.WellFormed) (i : NodeId) : (d.release i).WellFormed := by
  by_cases hi : d.isLive i = true
  · obtain ⟨height, falls⟩ := h.acyclic
    obtain ⟨gone, below, clears, sound⟩ := release_spec h.toSound falls hi
    have cut := h.without i
    have dead {j : NodeId} (hj : (d.release i).isLive j = false) :
        j ∈ gone ∨ (d.without i).isLive j = false := by
      rw [isLive, clears.node] at hj
      split at hj
      · next hg => exact Or.inl hg
      · exact Or.inr hj
    refine
      { sound with
        up := fun {p c} hp => ?_, blank := fun {j} hj => ?_, spent := fun {j} hlt hj => ?_
        acyclic := ⟨height, falls.release i⟩ }
    · -- A child that is left had its parent, which is left too: else the child were gone.
      rw [parent?, clears.node] at hp
      split at hp
      · cases hp
      · next hc =>
        have linked := cut.up hp
        have hg : p ∉ gone := fun hg => hc ((below c).mpr (((below p).mp hg).tail linked))
        rwa [clears.children_of_not_mem hg]
    · rw [clears.node]
      split
      · rfl
      · next hg => exact cut.blank ((dead hj).resolve_left hg)
    · rw [clears.size] at hlt
      rw [clears.free.mem_iff, List.mem_append]
      rcases dead hj with hg | hj
      · exact Or.inl hg
      · exact Or.inr (cut.spent hlt hj)
  · rw [Document.release, if_neg hi]
    exact h

/-- A node stays live when another is released that it is not below. -/
theorem isLive_release {i j : NodeId} (h : ¬ d.Below i j) : (d.release i).isLive j = d.isLive j := by
  rw [isLive, node_release h]
  split
  · exact isLive_without i j
  · rfl

/-- A node without children stays when all its children are released. -/
theorem foldl_release (h : d.WellFormed) {kids : List NodeId} {i : NodeId}
    (hk : ∀ k ∈ kids, ¬ d.Below k i) : (kids.foldl Document.release d).WellFormed ∧
      (kids.foldl Document.release d).isLive i = d.isLive i := by
  induction kids generalizing d with
  | nil => exact ⟨h, rfl⟩
  | cons k kids ih =>
    rw [List.forall_mem_cons] at hk
    have later := ih (h.release k) fun k' hk' hb =>
      hk.2 k' hk' (.of_subset (children_release_subset k) hb)
    exact ⟨later.1, later.2.trans (isLive_release hk.1)⟩

/-! ## New nodes -/

/-- A new node takes an index that is not live, and it has nothing but what it is made with. -/
theorem node_allocate (h : d.WellFormed) (kind : DocKind) (text : String) (q : NodeId) :
    (d.allocate kind text).1.node q
      = if q = (d.allocate kind text).2 then { kind, text } else d.node q := by
  rw [Document.node_allocate fun x hx => (h.spare x hx).1]
  split
  · next hq =>
    have dead := (h.toSound.allocate kind text).dead
    rw [hq, h.blank dead]
  · rfl

/-- The indices that are left on the free list are all but that of the new node. -/
theorem mem_free_allocate {kind : DocKind} {text : String} {y : NodeId} (hy : y ∈ d.free)
    (hne : y ≠ (d.allocate kind text).2) : y ∈ (d.allocate kind text).1.free := by
  cases hd : d.free with
  | nil => cases hd ▸ hy
  | cons x rest =>
    rw [allocate_of_cons hd] at hne ⊢
    exact (List.mem_cons.mp (hd ▸ hy)).resolve_left hne

/-- There is room for no other new node. -/
theorem lt_size_of_allocate {kind : DocKind} {text : String} {j : NodeId}
    (hj : j < (d.allocate kind text).1.size) (hne : j ≠ (d.allocate kind text).2) :
    j < d.size := by
  cases hd : d.free with
  | nil =>
    rw [allocate_of_nil hd] at hj hne
    rw [size_push] at hj
    exact Nat.lt_of_le_of_ne (Nat.le_of_lt_succ hj) hne
  | cons x rest =>
    rw [allocate_of_cons hd] at hj
    exact lt_of_lt_of_eq hj (size_update ..)

/-- A new node leaves a document well-formed. -/
theorem allocate (h : d.WellFormed) (kind : DocKind) (text : String) :
    (d.allocate kind text).1.WellFormed := by
  have joins := h.toSound.allocate kind text
  have node := h.node_allocate kind text
  set later := (d.allocate kind text).1
  set x := (d.allocate kind text).2
  obtain ⟨height, falls⟩ := h.acyclic
  refine
    { joins.sound with
      up := fun {p c} hp => ?_, blank := fun {j} hj => ?_, spent := fun {j} hlt hj => ?_
      acyclic := ⟨height, fun p c hc => ?_⟩ }
  · rw [joins.parent?] at hp
    split at hp
    · cases hp
    · have hpx : p ≠ x := by
        rintro rfl
        have := (h.isLive_of_parent? hp).1
        rw [joins.dead] at this
        cases this
      rw [joins.children, if_neg hpx]
      exact h.up hp
  · rw [joins.isLive] at hj
    split at hj
    · cases hj
    · next hx =>
      rw [node, if_neg hx]
      exact h.blank hj
  · rw [joins.isLive] at hj
    split at hj
    · cases hj
    · next hx => exact mem_free_allocate (h.spent (lt_size_of_allocate hlt hx) hj) hx
  · rw [joins.children] at hc
    split at hc
    · cases hc
    · exact falls p c hc

/-- A node without a parent takes in some nodes without a parent. -/
theorem adopt (h : d.WellFormed) {i : NodeId} {kids : List NodeId} (hi : d.isLive i = true)
    (nodup : kids.Nodup) (live : ∀ k ∈ kids, d.isLive k = true)
    (orphan : ∀ k ∈ kids, d.parent? k = none) (bare : d.children i = [])
    (root : d.parent? i = none) (apart : i ∉ kids) : (d.adopt i kids).WellFormed := by
  have isLive (q : NodeId) : (d.adopt i kids).isLive q = d.isLive q := by
    rw [Document.isLive, kind_adopt, Document.isLive]
  obtain ⟨height, falls⟩ := h.acyclic
  refine
    { h.toSound.adopt hi nodup live orphan with
      up := fun {p c} hp => ?_, blank := fun {j} hj => ?_, spent := fun {j} hlt hj => ?_
      acyclic := ⟨fun j => if j = i then (kids.map height).sum + 1 else height j,
        fun p c hc => ?_⟩ }
  · rw [parent?_adopt i live] at hp
    rw [children_adopt hi]
    split at hp
    · next hc =>
      obtain rfl := Option.some.inj hp
      rwa [if_pos rfl]
    · have hpi : p ≠ i := by
        rintro rfl
        have := h.up hp
        rw [bare] at this
        cases this
      rw [if_neg hpi]
      exact h.up hp
  · rw [isLive] at hj
    have ne {k : NodeId} (hk : d.isLive k = true) : j ≠ k := by
      rintro rfl
      rw [hk] at hj
      cases hj
    rw [node_adopt, if_neg fun hm => ne (live j hm) rfl, if_neg (ne hi)]
    have := h.blank hj
    split
    · rw [parent?, children, this]
    · rfl
  · rw [isLive] at hj
    rw [(size_adopt d i kids).1] at hlt
    rw [(size_adopt d i kids).2]
    exact h.spent hlt hj
  · show (if c = i then _ else _) < if p = i then _ else _
    rw [children_adopt hi] at hc
    split at hc
    · next hp =>
      have hci : c ≠ i := fun he => apart (he ▸ hc)
      rw [if_neg hci, if_pos hp]
      exact Nat.lt_succ_of_le (List.single_le_sum (fun _ _ => Nat.zero_le _) _
        (List.mem_map_of_mem hc))
    · next hp =>
      have hci : c ≠ i := by
        rintro rfl
        have := h.linked hc
        rw [root] at this
        cases this
      rw [if_neg hci, if_neg hp]
      exact falls p c hc

end WellFormed

/-! ## Copies -/

/-- From `d` to `later` only new nodes come in, and those in `roots` have no parent. -/
structure Extends (d later : Document L) (roots : List NodeId) : Prop where
  wellFormed : later.WellFormed
  old : ∀ {j}, d.isLive j = true → later.node j = d.node j
  dead : ∀ r ∈ roots, d.isLive r = false
  live : ∀ r ∈ roots, later.isLive r = true
  orphan : ∀ r ∈ roots, later.parent? r = none
  nodup : roots.Nodup

namespace Extends

variable {later latest : Document L}

/-- A document extends itself by nothing. -/
theorem nil (h : d.WellFormed) : Extends d d [] where
  wellFormed := h
  old _ := rfl
  dead := nofun
  live := nofun
  orphan := nofun
  nodup := List.nodup_nil

/-- What was live stays live in an extension. -/
theorem isLive {roots : List NodeId} (h : Extends d later roots) {j : NodeId}
    (hj : d.isLive j = true) : later.isLive j = true := by
  rw [Document.isLive, h.old hj]
  exact hj

/-- New nodes come in after others. -/
theorem append {roots others : List NodeId} (h : Extends d later roots)
    (h' : Extends later latest others) : Extends d latest (roots ++ others) where
  wellFormed := h'.wellFormed
  old hj := (h'.old (h.isLive hj)).trans (h.old hj)
  dead := by
    refine List.forall_mem_append.mpr ⟨h.dead, fun r hr => ?_⟩
    by_contra hl
    have := h'.dead r hr
    rw [h.isLive (by simpa using hl)] at this
    cases this
  live := List.forall_mem_append.mpr ⟨fun r hr => h'.isLive (h.live r hr), h'.live⟩
  orphan := by
    refine List.forall_mem_append.mpr ⟨fun r hr => ?_, h'.orphan⟩
    rw [parent?, h'.old (h.live r hr)]
    exact h.orphan r hr
  nodup := by
    refine List.nodup_append.mpr ⟨h.nodup, h'.nodup, ?_⟩
    rintro r hr _ hr' rfl
    have := h'.dead r hr'
    rw [h.live r hr] at this
    cases this

/-- Something can be written to a new node. -/
theorem write {roots : List NodeId} (h : Extends d later roots) {i : NodeId}
    (new : d.isLive i = false) (hi : later.isLive i = true) {f : DocNode L → DocNode L}
    (hf : ∀ n, (f n).kind = n.kind ∧ (f n).parent = n.parent ∧ (f n).children = n.children) :
    Extends d (later.update i f) roots := by
  have same := sameForest_update later i hf
  refine
    { wellFormed := h.wellFormed.write hi hf, old := fun {j} hj => ?_
      dead := h.dead, live := fun r hr => ?_, orphan := fun r hr => ?_, nodup := h.nodup }
  · have hne : i ≠ j := by
      rintro rfl
      rw [new] at hj
      cases hj
    rw [node_update, if_neg fun he => hne he.1]
    exact h.old hj
  · rw [same.isLive]
    exact h.live r hr
  · rw [same.parent]
    exact h.orphan r hr

/-- One of the new nodes takes in the others. -/
theorem adopt {i : NodeId} {kids : List NodeId} (h : Extends d later (i :: kids))
    (bare : later.children i = []) : Extends d (later.adopt i kids) [i] := by
  obtain ⟨apart, nodup⟩ := List.nodup_cons.mp h.nodup
  obtain ⟨livei, livek⟩ := List.forall_mem_cons.mp h.live
  obtain ⟨root, orphan⟩ := List.forall_mem_cons.mp h.orphan
  refine
    { wellFormed := h.wellFormed.adopt livei nodup livek orphan bare root apart
      old := fun {j} hj => ?_, dead := fun r hr => h.dead r (by simp_all), live := ?_, orphan := ?_
      nodup := List.nodup_singleton i }
  · have ne {k : NodeId} (hk : k ∈ i :: kids) : j ≠ k := by
      rintro rfl
      rw [h.dead j hk] at hj
      cases hj
    rw [node_adopt_of_not_mem (ne List.mem_cons_self) fun hm => ne (List.mem_cons_of_mem i hm) rfl]
    exact h.old hj
  · rw [List.forall_mem_singleton, Document.isLive, kind_adopt]
    exact livei
  · rw [List.forall_mem_singleton, parent?_adopt i livek, if_neg apart]
    exact root

end Extends

namespace WellFormed

/-- A new node extends a document by itself. -/
theorem extends_allocate (h : d.WellFormed) (kind : DocKind) (text : String) :
    Extends d (d.allocate kind text).1 [(d.allocate kind text).2] := by
  have joins := h.toSound.allocate kind text
  refine
    { wellFormed := h.allocate kind text, old := fun {j} hj => ?_
      dead := by simpa using joins.dead
      live := by simp [joins.isLive]
      orphan := by simp [joins.parent?]
      nodup := List.nodup_singleton _ }
  have hne : j ≠ (d.allocate kind text).2 := by
    rintro rfl
    rw [joins.dead] at hj
    cases hj
  rw [h.node_allocate, if_neg hne]

mutual
/-- A copy of some markup brings in new nodes, one of which is the root. -/
theorem extends_instantiate :
    ∀ (m : Markup) {d : Document L}, d.WellFormed →
      Extends d (d.instantiate m).1 [(d.instantiate m).2]
  | .text content, _, h => h.extends_allocate .text content
  | .element tag attributes children, d, h => by
    have made : Extends d (d.createElement tag).1 [(d.createElement tag).2] :=
      h.extends_allocate (.element tag) ""
    have bare : (d.createElement tag).1.children (d.createElement tag).2 = [] :=
      ((h.toSound.allocate (.element tag) "").children _).trans (if_pos rfl)
    rw [instantiate_element_eq]
    dsimp only
    set i := (d.createElement tag).2
    have written := made.write (made.dead i List.mem_cons_self) (made.live i List.mem_cons_self)
      (f := fun n => { n with attributes }) fun _ => ⟨rfl, rfl, rfl⟩
    have inner := extends_instantiateAll children written.wellFormed
    refine (written.append inner).adopt ?_
    -- What is inside leaves the new node as it is.
    rw [Document.children, inner.old (written.live i List.mem_cons_self)]
    rw [part_update DocNode.children, ite_self]
    exact bare

/-- Copies of some trees bring in new nodes, among them their roots. -/
theorem extends_instantiateAll :
    ∀ (ms : List Markup) {d : Document L}, d.WellFormed →
      Extends d (d.instantiateAll ms).1 (d.instantiateAll ms).2
  | [], _, h => .nil h
  | m :: rest, _, h => by
    have one := extends_instantiate m h
    exact one.append (extends_instantiateAll rest one.wellFormed)
end

/-! ## Texts -/

/-- The text of a live node is written. -/
theorem setText (h : d.WellFormed) {i : NodeId} (hi : d.isLive i = true) (content : String) :
    (d.setText i content).WellFormed := by
  have written {j : NodeId} (hj : d.isLive j = true) :
      (d.writeText j content).countText.WellFormed :=
    (h.write hj (f := fun n => { n with text := content }) fun _ => ⟨rfl, rfl, rfl⟩).count _
  unfold Document.setText
  split
  · exact h
  · exact written hi
  · split
    · next only ho =>
      refine written (h.isLive_of_mem_children (p := i) ?_).2
      unfold onlyText? at ho
      split at ho
      · next hc =>
        split at ho
        · rw [hc, Option.some.inj ho]
          exact List.mem_cons_self
        · cases ho
      · cases ho
    · -- The children make way for a new text, which comes last among the children that are left.
      have under : ∀ k ∈ d.children i, ¬ d.Below k i := fun k hk => h.not_below_parent hk
      obtain ⟨cleared, live⟩ := h.foldl_release under
      rw [hi] at live
      generalize (d.children i).foldl Document.release d = later at cleared live ⊢
      have made : Extends later (later.createText content).1 [(later.createText content).2] :=
        cleared.extends_allocate .text content
      have bare : (later.createText content).1.children (later.createText content).2 = [] :=
        ((cleared.toSound.allocate .text content).children _).trans (if_pos rfl)
      dsimp only
      generalize later.createText content = new at made bare ⊢
      obtain ⟨d₁, x⟩ := new
      have orphan : d₁.parent? x = none := made.orphan x List.mem_cons_self
      have apart : ¬ d₁.Below x i := by
        intro hb
        rcases Relation.ReflTransGen.cases_head hb with rfl | ⟨c, hc, -⟩
        · have := made.dead _ List.mem_cons_self
          rw [live] at this
          cases this
        · rw [bare] at hc
          cases hc
      have placed := made.wellFormed.insertBefore (made.isLive live)
        (made.live x List.mem_cons_self) apart none
      rw [Document.insertBefore, orphan] at placed
      simp only [placeBefore_none] at placed
      exact placed.of_count.count _

end WellFormed

end Document

end ComponentView
