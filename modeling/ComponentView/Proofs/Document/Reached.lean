import ComponentView.Proofs.Document.WellFormed

/-! # Documents that operations lead to

Whoever works with the document creates, copies, moves, releases and writes nodes and listens to
them (`Document.Edit`). As long as this is done to live nodes, and no node is put under itself or
below itself (`Document.Edit.Fair`), the document is well-formed; so its links are a forest, its free
list is exact, and a new node starts out with nothing (`Document.forest_of_reached`). -/

namespace ComponentView

namespace Document

variable {L : Type} {d later latest : Document L}

/-! ## Who is listened to -/

/-- No node gets a listener. -/
def Hushed (d later : Document L) : Prop :=
  ∀ i, (later.node i).listeners ⊆ (d.node i).listeners

namespace Hushed

/-- A document that stays as it is has no new listeners. -/
theorem refl (d : Document L) : Hushed d d := fun _ _ h => h

/-- Over two changes without new listeners there are none. -/
theorem trans (h : Hushed d later) (h' : Hushed later latest) : Hushed d latest :=
  fun i => List.Subset.trans (h' i) (h i)

/-- A node that nobody listens to does not come to be listened to. -/
theorem silent (h : Hushed d later) {i : NodeId} (blank : (d.node i).listeners = []) :
    (later.node i).listeners = [] := List.subset_nil.mp (blank ▸ h i)

/-- A node that is changed keeps its listeners or loses them. -/
theorem update (d : Document L) (i : NodeId) {f : DocNode L → DocNode L}
    (hf : ∀ n, (f n).listeners ⊆ n.listeners) : Hushed d (d.update i f) := by
  intro j
  rw [part_update DocNode.listeners]
  split
  · exact hf _
  · exact List.Subset.refl _

/-- Counting an operation adds no listener. -/
theorem count (d : Document L) (f : Tally → Tally) : Hushed d (d.count f) := fun _ _ h => h

/-- A loop over steps that add no listener adds none. -/
theorem foldl {α : Type} {f : Document L → α → Document L} (hf : ∀ d a, Hushed d (f d a))
    (as : List α) (d : Document L) : Hushed d (as.foldl f d) := by
  induction as generalizing d with
  | nil => exact refl d
  | cons a as ih => exact (hf d a).trans (ih (f d a))

/-- Unlinking adds no listener. -/
theorem unlink (d : Document L) (p i : NodeId) : Hushed d (d.unlink p i) :=
  (update d p (by exact fun _ _ h => h)).trans (update _ i (by exact fun _ _ h => h))

/-- Taking a node out of its parent adds no listener. -/
theorem without (d : Document L) (i : NodeId) : Hushed d (d.without i) := by
  unfold Document.without
  split
  · exact unlink d _ i
  · exact refl d

/-- Inserting adds no listener. -/
theorem insertBefore (d : Document L) (p i : NodeId) (reference : Option NodeId) :
    Hushed d (d.insertBefore p i reference) := by
  rw [insertBefore_eq]
  refine (without d i).trans ?_
  exact ((update _ p (by exact fun _ _ h => h)).trans (update _ i (by exact fun _ _ h => h))).trans
    (count _ _)

/-- Removing a child adds no listener. -/
theorem remove (d : Document L) (p i : NodeId) : Hushed d (d.remove p i) := by
  unfold Document.remove
  split
  · exact unlink d p i
  · exact refl d

/-- Detaching adds no listener. -/
theorem detach (d : Document L) (i : NodeId) : Hushed d (d.detach i) := by
  unfold Document.detach
  split
  · exact remove d _ i
  · exact refl d

/-- Replacing a node adds no listener. -/
theorem replace (d : Document L) (old i : NodeId) : Hushed d (d.replace old i) := by
  unfold Document.replace
  split
  · exact (insertBefore d _ i _).trans (remove _ _ old)
  · exact refl d

/-- Releasing a tree adds no listener. -/
theorem releaseWithin (depth : Nat) (d : Document L) (i : NodeId) :
    Hushed d (releaseWithin depth d i) := by
  induction depth generalizing d i with
  | zero => exact refl d
  | succ depth ih =>
    have cut := update d i (f := fun n => { n with children := [] }) fun _ _ h => h
    have emptied := (cut.trans (foldl ih (d.children i) _)).trans
      (update _ i (f := fun _ => {}) fun _ => List.nil_subset _)
    exact emptied.trans fun _ _ h => h

/-- A release adds no listener. -/
theorem release (d : Document L) (i : NodeId) : Hushed d (d.release i) := by
  unfold Document.release
  split
  · exact (without d i).trans (releaseWithin _ _ i)
  · exact refl d

/-- A new node adds no listener. -/
theorem allocate (d : Document L) (kind : DocKind) (text : String) :
    Hushed d (d.allocate kind text).1 := by
  unfold Document.allocate
  split
  · exact update _ _ fun _ _ h => h
  · intro j
    rw [node_push]
    split
    · exact List.nil_subset _
    · exact List.Subset.refl _

/-- Adopting children adds no listener. -/
theorem adopt (d : Document L) (i : NodeId) (kids : List NodeId) : Hushed d (d.adopt i kids) :=
  (foldl (fun d kid => update d kid (by exact fun _ _ h => h)) kids d).trans
    (update _ i (by exact fun _ _ h => h))

mutual
/-- Making the nodes of a markup adds no listener. -/
theorem instantiate : ∀ (m : Markup) (d : Document L), Hushed d (d.instantiate m).1
  | .text content, d => allocate d .text content
  | .element tag attributes children, d => by
    rw [instantiate_element_eq]
    have made := allocate d (.element tag) ""
    have written := update (d.createElement tag).1 (d.createElement tag).2
      (f := fun n => { n with attributes }) fun _ _ h => h
    exact ((made.trans written).trans (instantiateAll children _)).trans (adopt _ _ _)

/-- Making the nodes of several markups adds no listener. -/
theorem instantiateAll : ∀ (ms : List Markup) (d : Document L), Hushed d (d.instantiateAll ms).1
  | [], d => refl d
  | m :: rest, d => (instantiate m d).trans (instantiateAll rest _)
end

/-- Writing an attribute adds no listener. -/
theorem setAttribute (d : Document L) (i : NodeId) (name : String) (value : Option String) :
    Hushed d (d.setAttribute i name value) := by
  unfold Document.setAttribute
  split
  · exact refl d
  · exact (update d i (by exact fun _ _ h => h)).trans (count _ _)

/-- Setting a class adds no listener. -/
theorem setClass (d : Document L) (i : NodeId) (name : String) (on : Bool) :
    Hushed d (d.setClass i name on) := by
  unfold Document.setClass
  split
  · exact refl d
  · split
    · exact setAttribute d i _ _
    · exact setAttribute d i _ _

/-- Setting a text adds no listener. -/
theorem setText (d : Document L) (i : NodeId) (content : String) :
    Hushed d (d.setText i content) := by
  unfold Document.setText
  split
  · exact refl d
  · exact (update d i (by exact fun _ _ h => h)).trans (count _ _)
  · split
    · exact (update d _ (by exact fun _ _ h => h)).trans (count _ _)
    · have made := (foldl release (d.children i) d).trans (allocate _ .text content)
      dsimp only
      change Hushed d (Document.createText _ content).1 at made
      generalize Document.createText _ content = new at made ⊢
      exact ((made.trans (update _ i (by exact fun _ _ h => h))).trans
        (update _ _ (by exact fun _ _ h => h))).trans (count _ _)

end Hushed

/-! ## Edits -/

/-- What can be done to a document. -/
inductive Edit (L : Type) where
  | createElement (tag : String)
  | createText (content : String)
  | instantiate (markup : Markup)
  | insertBefore (parent node : NodeId) (reference : Option NodeId)
  | append (parent node : NodeId)
  | remove (parent node : NodeId)
  | detach (node : NodeId)
  | replace (old node : NodeId)
  | release (node : NodeId)
  | setText (node : NodeId) (content : String)
  | setAttribute (node : NodeId) (name : String) (value : Option String)
  | setClass (node : NodeId) (name : String) (on : Bool)
  | setStyle (node : NodeId) (property : String) (value : Option String)
  | listen (node : NodeId) (event : String) (listener : L)

namespace Edit

/-- The document after an edit. -/
def apply (d : Document L) : Edit L → Document L
  | createElement tag => (d.createElement tag).1
  | createText content => (d.createText content).1
  | instantiate markup => (d.instantiate markup).1
  | insertBefore parent node reference => d.insertBefore parent node reference
  | append parent node => d.append parent node
  | remove parent node => d.remove parent node
  | detach node => d.detach node
  | replace old node => d.replace old node
  | release node => d.release node
  | setText node content => d.setText node content
  | setAttribute node name value => d.setAttribute node name value
  | setClass node name on => d.setClass node name on
  | setStyle node property value => d.setStyle node property value
  | listen node event listener => d.listen node event listener

/-- The nodes that an edit is called for. -/
def handles : Edit L → List NodeId
  | createElement _ | createText _ | instantiate _ => []
  | insertBefore parent node reference => parent :: node :: reference.toList
  | append parent node | remove parent node => [parent, node]
  | replace old node => [old, node]
  | detach node | release node | setText node _ | setAttribute node _ _ | setClass node _ _
  | setStyle node _ _ | listen node _ _ => [node]

/-- The parent that an edit puts a node into, and the node. -/
def placement (d : Document L) : Edit L → Option (NodeId × NodeId)
  | insertBefore parent node _ | append parent node => some (parent, node)
  | replace old node => (d.parent? old).map fun parent => (parent, node)
  | _ => none

/-- The edit is called for live nodes, and puts no node under itself or below itself. -/
structure Fair (d : Document L) (e : Edit L) : Prop where
  live : ∀ i ∈ e.handles, d.isLive i = true
  apart : ∀ x ∈ e.placement d, ¬ d.Below x.2 x.1

/-- A fair edit keeps the document well-formed. -/
theorem Fair.wellFormed {e : Edit L} (fair : e.Fair d) (h : d.WellFormed) :
    (e.apply d).WellFormed := by
  obtain ⟨live, apart⟩ := fair
  cases e with
  | createElement tag => exact h.allocate (.element tag) ""
  | createText content => exact h.allocate .text content
  | instantiate markup => exact (h.extends_instantiate markup).wellFormed
  | insertBefore parent node reference =>
    exact h.insertBefore (live parent (by simp [handles])) (live node (by simp [handles]))
      (apart (parent, node) rfl) reference
  | append parent node =>
    exact h.insertBefore (live parent (by simp [handles])) (live node (by simp [handles]))
      (apart (parent, node) rfl) none
  | remove parent node => exact h.remove parent node
  | detach node => exact h.detach node
  | replace old node =>
    refine h.replace (live node (by simp [handles])) fun p hp => apart (p, node) ?_
    simp [placement, hp]
  | release node => exact h.release node
  | setText node content => exact h.setText (live node (by simp [handles])) content
  | setAttribute node name value => exact h.setAttribute (live node (by simp [handles])) name value
  | setClass node name on => exact h.setClass (live node (by simp [handles])) name on
  | setStyle node property value => exact h.setStyle (live node (by simp [handles])) property value
  | listen node event listener => exact h.listen (live node (by simp [handles])) event listener

/-- A node that an edit brings to life is not listened to. -/
theorem Fair.silent {e : Edit L} (fair : e.Fair d) (h : d.WellFormed) {i : NodeId}
    (hi : d.isLive i = false) : ((e.apply d).node i).listeners = [] := by
  have blank : (d.node i).listeners = [] := by rw [h.blank hi]
  cases e with
  | createElement tag => exact (Hushed.allocate d (.element tag) "").silent blank
  | createText content => exact (Hushed.allocate d .text content).silent blank
  | instantiate markup => exact (Hushed.instantiate markup d).silent blank
  | insertBefore parent node reference =>
    exact (Hushed.insertBefore d parent node reference).silent blank
  | append parent node => exact (Hushed.insertBefore d parent node none).silent blank
  | remove parent node => exact (Hushed.remove d parent node).silent blank
  | detach node => exact (Hushed.detach d node).silent blank
  | replace old node => exact (Hushed.replace d old node).silent blank
  | release node => exact (Hushed.release d node).silent blank
  | setText node content => exact (Hushed.setText d node content).silent blank
  | setAttribute node name value => exact (Hushed.setAttribute d node name value).silent blank
  | setClass node name on => exact (Hushed.setClass d node name on).silent blank
  | setStyle node property value => exact (Hushed.setAttribute d node _ _).silent blank
  | listen node event listener =>
    have hne : node ≠ i := by
      rintro rfl
      rw [fair.live node (by simp [handles])] at hi
      cases hi
    show ((d.update node _).node i).listeners = []
    rw [node_update, if_neg fun he => hne he.1]
    exact blank

end Edit

/-! ## Reached documents -/

/-- The documents that fair edits lead to from the one without nodes. -/
inductive Reached : Document L → Prop where
  | reset : Reached {}
  | edit {d : Document L} (e : Edit L) (h : Reached d) (fair : e.Fair d) : Reached (e.apply d)

/-- Every reached document is well-formed. -/
theorem Reached.wellFormed (h : d.Reached) : d.WellFormed := by
  induction h with
  | reset => exact wellFormed_empty
  | edit e _ fair ih => exact fair.wellFormed ih

/-- A chain of parents leads down from its end to its start. -/
theorem Below.of_parents (h : d.WellFormed) {i j : NodeId}
    (hc : Relation.TransGen (fun c p => d.parent? c = some p) i j) :
    ∃ c, d.parent? i = some c ∧ d.Below j c := by
  induction hc with
  | single hp => exact ⟨_, hp, .refl⟩
  | tail _ hp ih =>
    obtain ⟨c, hc, hb⟩ := ih
    exact ⟨c, hc, .head (h.up hp) hb⟩

/-- In every document that fair edits lead to, all that is kept of nodes is kept for the same
indices; the free list holds exactly the released indices, each once; a live node is a child of
another, and then once, exactly when the other is its parent; no released index is the parent or a
child of a live node; no node is above itself; only live nodes are listened to; a new node has an
index that was not live, and starts with its kind and text and nothing else; and no edit brings a
node to life that is listened to. -/
theorem forest_of_reached (h : d.Reached) :
    (d.kinds.size = d.size ∧ d.parents.size = d.size ∧ d.childLists.size = d.size ∧
      d.attributeLists.size = d.size ∧ d.texts.size = d.size ∧ d.listenerLists.size = d.size) ∧
    d.free.Nodup ∧ (∀ i, i ∈ d.free ↔ i < d.size ∧ d.isLive i = false) ∧
    (∀ p c, d.isLive p = true → d.isLive c = true →
      (d.parent? c = some p ↔ c ∈ d.children p) ∧ (c ∈ d.children p → (d.children p).count c = 1)) ∧
    (∀ i j, d.isLive i = false → d.isLive j = true → d.parent? j ≠ some i ∧ i ∉ d.children j) ∧
    (∀ i, ¬ Relation.TransGen (fun c p => d.parent? c = some p) i i) ∧
    (∀ i, (d.node i).listeners ≠ [] → d.isLive i = true) ∧
    (∀ kind text, d.isLive (d.allocate kind text).2 = false ∧
      (d.allocate kind text).1.node (d.allocate kind text).2 = { kind, text }) ∧
    (∀ e : Edit L, e.Fair d → ∀ i, d.isLive i = false → (e.apply d).isLive i = true →
      ((e.apply d).node i).listeners = []) := by
  have wf := h.wellFormed
  refine ⟨⟨rfl, d.aligned⟩, wf.free, fun i => ⟨wf.spare i, fun hi => wf.spent hi.1 hi.2⟩,
    ?_, ?_, ?_, ?_, ?_, fun e fair i hi _ => fair.silent wf hi⟩
  · intro p c _ _
    refine ⟨⟨wf.up, wf.linked⟩, fun hc => ?_⟩
    rw [(wf.nodup p).count, if_pos hc]
  · intro i j hi _
    refine ⟨fun hp => ?_, fun hc => ?_⟩
    · rw [(wf.isLive_of_parent? hp).1] at hi
      cases hi
    · rw [(wf.isLive_of_mem_children hc).2] at hi
      cases hi
  · intro i hc
    obtain ⟨c, hp, hb⟩ := Below.of_parents wf hc
    exact wf.not_below_parent (wf.up hp) hb
  · intro i hl
    by_contra hi
    rw [wf.blank (by simpa using hi)] at hl
    exact hl rfl
  · intro kind text
    refine ⟨(wf.toSound.allocate kind text).dead, ?_⟩
    rw [wf.node_allocate, if_pos rfl]

/-- An element of which a child that is listened to makes way for a text. -/
def rewritten : Document Unit :=
  [.instantiate (.element "div" [] [.text "old", .element "p" [] []]), .listen 2 "click" (),
    .setText 0 "new", .createElement "b"].foldl Edit.apply {}

/-- The rewritten document can be reached by fair edits. -/
theorem reached_rewritten : rewritten.Reached := by
  have plain {d : Document Unit} {e : Edit Unit} (h : d.Reached)
      (live : ∀ i ∈ e.handles, d.isLive i = true) (none : e.placement d = none) :
      (e.apply d).Reached := h.edit e ⟨live, by simp [none]⟩
  have copied := plain (e := .instantiate (.element "div" [] [.text "old", .element "p" [] []]))
    .reset nofun rfl
  have heard := plain (e := .listen 2 "click" ()) copied (by decide) rfl
  have written := plain (e := .setText 0 "new") heard (by decide) rfl
  exact plain (e := .createElement "b") written nofun rfl

/-- Its text has the index of the child that was listened to, and one more element can be put after
it; the links are still a forest. -/
theorem forest_of_rewritten :
    rewritten.children 0 = [2] ∧ (rewritten.node 2).listeners = [] ∧
      ((Edit.append 0 1).apply rewritten).children 0 = [2, 1] ∧
      ((Edit.append 0 1).apply rewritten).free.Nodup ∧
      ∀ i, ¬ Relation.TransGen
        (fun c p => ((Edit.append 0 1).apply rewritten).parent? c = some p) i i := by
  have fair : (Edit.append 0 1).Fair rewritten := by
    refine ⟨by decide, ?_⟩
    intro x hx hb
    obtain rfl := Option.mem_some_iff.mp hx
    rcases Relation.ReflTransGen.cases_head hb with h | ⟨c, hc, -⟩
    · cases h
    · cases hc
  obtain ⟨-, free, -, -, -, around, -⟩ := forest_of_reached (reached_rewritten.edit _ fair)
  exact ⟨by decide, by decide, by decide, free, around⟩

end Document

end ComponentView
