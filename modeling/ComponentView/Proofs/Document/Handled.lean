import ComponentView.Definition
import ComponentView.Proofs.Document.Likeness
import ComponentView.Proofs.Document.Reached

/-! # Documents in which live nodes are handled

Edits of live nodes keep a document sound even if they put nodes below themselves, so that the links
are no longer a forest (`Document.Handled.sound`). A release then still clears no node twice: what it
comes to has been taken out of its parent before, so it is nobody's child any more. -/

namespace ComponentView

namespace Document

variable {L : Type} {d : Document L}

/-- A node is among the children of nobody. -/
def Unlisted (d : Document L) (i : NodeId) : Prop := ∀ q, i ∉ d.children q

/-- Where no list of children grows, a node that is in none stays so. -/
theorem Unlisted.of_subset {later : Document L} {i : NodeId} (h : d.Unlisted i)
    (sub : ∀ q, later.children q ⊆ d.children q) : later.Unlisted i := fun q hq => h q (sub q hq)

/-- A release comes to no other node that is among the children of nobody. -/
theorem Unlisted.node_releaseWithin {x i : NodeId} (h : d.Unlisted x) (hx : x ≠ i) (depth : Nat) :
    (Document.releaseWithin depth d i).node x = d.node x := by
  refine (releaseWithin_frame depth d i).2 x fun hb => ?_
  rcases Relation.ReflTransGen.cases_tail hb with he | ⟨q, -, hq⟩
  · exact hx he
  · exact h q hq

namespace Sound

/-! ## What moves nothing -/

/-- Counting an operation leaves a document sound. -/
theorem count (h : d.Sound) (f : Tally → Tally) : (d.count f).Sound :=
  { linked := h.linked, nodup := h.nodup, live := h.live, free := h.free, spare := h.spare }

/-- A document that is sound after an operation was counted was sound before. -/
theorem of_count {f : Tally → Tally} (h : (d.count f).Sound) : d.Sound :=
  { linked := h.linked, nodup := h.nodup, live := h.live, free := h.free, spare := h.spare }

/-- A write to a node that leaves its links alone leaves the document sound. -/
theorem write (h : d.Sound) (i : NodeId) {f : DocNode L → DocNode L}
    (hf : ∀ n, (f n).kind = n.kind ∧ (f n).parent = n.parent ∧ (f n).children = n.children) :
    (d.update i f).Sound := (sameForest_update d i hf).sound h

/-- Writing an attribute leaves a document sound. -/
theorem setAttribute (h : d.Sound) (i : NodeId) (name : String) (value : Option String) :
    (d.setAttribute i name value).Sound := by
  unfold Document.setAttribute
  split
  · exact h
  · exact (h.write i (by exact fun _ => ⟨rfl, rfl, rfl⟩)).count _

/-- Setting a class leaves a document sound. -/
theorem setClass (h : d.Sound) (i : NodeId) (name : String) (on : Bool) :
    (d.setClass i name on).Sound := by
  unfold Document.setClass
  split
  · exact h
  · split
    · exact h.setAttribute i _ _
    · exact h.setAttribute i _ _

/-! ## Moving nodes -/

/-- Removing a child leaves a document sound. -/
theorem remove (h : d.Sound) (p i : NodeId) : (d.remove p i).Sound := by
  unfold Document.remove
  split
  · next hp =>
    have same : d.unlink p i = d.without i := by rw [Document.without, hp]
    rw [same]
    exact (h.without i).count _
  · exact h

/-- Detaching a node leaves a document sound. -/
theorem detach (h : d.Sound) (i : NodeId) : (d.detach i).Sound := by
  unfold Document.detach
  split
  · exact h.remove _ i
  · exact h

/-- Putting a live node in the place of another leaves a document sound. -/
theorem replace (h : d.Sound) (old : NodeId) {i : NodeId} (hi : d.isLive i = true) :
    (d.replace old i).Sound := by
  unfold Document.replace
  split
  · exact (h.insertBefore _ hi _).remove _ old
  · exact h

/-! ## Releases -/

/-- A node lets go of its children. -/
theorem bare (h : d.Sound) (i : NodeId) : (d.update i fun n => { n with children := [] }).Sound := by
  set later : Document L := d.update i fun n => { n with children := [] } with hlater
  have kids (q : NodeId) : later.children q = [] ∨ later.children q = d.children q := by
    rw [children, hlater, part_update DocNode.children]
    split
    · exact Or.inl rfl
    · exact Or.inr rfl
  have sub {q c : NodeId} (hc : c ∈ later.children q) : c ∈ d.children q := by
    rcases kids q with he | he
    · rw [he] at hc
      cases hc
    · rwa [he] at hc
  have live (q : NodeId) : later.isLive q = d.isLive q := by
    rw [isLive, hlater, part_update DocNode.kind, ite_self, isLive]
  refine
    { linked := fun {q c} hc => ?_, nodup := fun q => ?_, live := fun {q c} hc => ?_
      free := h.free, spare := fun x hx => ?_ }
  · rw [parent?, hlater, part_update DocNode.parent, ite_self]
    exact h.linked (sub hc)
  · rcases kids q with he | he
    · rw [he]
      exact List.nodup_nil
    · rw [he]
      exact h.nodup q
  · rw [live]
    exact h.live (sub hc)
  · rw [live, hlater, size_update]
    exact h.spare x hx

/-- A live node without children that is nobody's child is cleared, and its index can be used
again. -/
theorem clear (h : d.Sound) {i : NodeId} (hi : d.isLive i = true) (alone : d.Unlisted i) :
    Sound { d.update i fun _ => {} with free := i :: d.free } := by
  set later : Document L := { d.update i fun _ => {} with free := i :: d.free } with hlater
  have node (q : NodeId) : later.node q = if q = i then {} else d.node q := by
    show (d.update i fun _ => {}).node q = _
    rw [node_update]
    by_cases hq : q = i
    · rw [if_pos ⟨hq.symm, lt_size_of_isLive hi⟩, if_pos hq]
    · rw [if_neg fun he => hq he.1.symm, if_neg hq]
  have left {q c : NodeId} (hc : c ∈ later.children q) : c ∈ d.children q ∧ c ≠ i := by
    have hm : c ∈ d.children q := by
      rw [children, node] at hc
      split at hc
      · cases hc
      · exact hc
    exact ⟨hm, fun he => alone q (he ▸ hm)⟩
  refine
    { linked := fun {q c} hc => ?_, nodup := fun q => ?_, live := fun {q c} hc => ?_
      free := List.nodup_cons.mpr ⟨fun hm => ?_, h.free⟩, spare := fun x hx => ?_ }
  · rw [parent?, node, if_neg (left hc).2]
    exact h.linked (left hc).1
  · rw [children, node]
    split
    · exact List.nodup_nil
    · exact h.nodup q
  · rw [isLive, node, if_neg (left hc).2]
    exact h.live (left hc).1
  · have := (h.spare i hm).2
    rw [hi] at this
    cases this
  · have size : later.size = d.size := size_update d i (fun _ => {})
    rw [size, isLive, node]
    rcases List.mem_cons.mp hx with rfl | hx
    · rw [if_pos rfl]
      exact ⟨lt_size_of_isLive hi, rfl⟩
    · refine ⟨(h.spare x hx).1, ?_⟩
      split
      · rfl
      · exact (h.spare x hx).2

/-- A live node that is nobody's child is released, with what is below it. -/
theorem releaseWithin (depth : Nat) {i : NodeId} (h : d.Sound) (hi : d.isLive i = true)
    (alone : d.Unlisted i) : (Document.releaseWithin depth d i).Sound := by
  induction depth generalizing d i with
  | zero => exact h
  | succ depth ih =>
    -- The children have lost their parent and wait for their release one after another.
    have all (kids : List NodeId) (d : Document L) (h : d.Sound) (hi : d.isLive i = true)
        (alone : d.Unlisted i) (nodup : kids.Nodup)
        (waiting : ∀ k ∈ kids, d.isLive k = true ∧ d.Unlisted k ∧ k ≠ i) :
        (kids.foldl (Document.releaseWithin depth) d).Sound ∧
          (kids.foldl (Document.releaseWithin depth) d).isLive i = true ∧
          (kids.foldl (Document.releaseWithin depth) d).Unlisted i := by
      induction kids generalizing d with
      | nil => exact ⟨h, hi, alone⟩
      | cons k kids ihk =>
        rw [List.nodup_cons] at nodup
        rw [List.forall_mem_cons] at waiting
        obtain ⟨⟨live, unlisted, hk⟩, others⟩ := waiting
        have sub := (releaseWithin_frame depth d k).1
        have stays {x : NodeId} (hx : x ≠ k) (hu : d.Unlisted x) (hl : d.isLive x = true) :
            (Document.releaseWithin depth d k).isLive x = true := by
          rw [isLive, hu.node_releaseWithin hx]
          exact hl
        refine ihk _ (ih h live unlisted) (stays hk.symm alone hi) (alone.of_subset sub) nodup.2
          fun x hx => ?_
        obtain ⟨lx, ux, hxi⟩ := others x hx
        exact ⟨stays (fun he => nodup.1 (he ▸ hx)) ux lx, ux.of_subset sub, hxi⟩
    set cut : Document L := d.update i fun n => { n with children := [] } with hcut
    have kept (q : NodeId) : cut.children q = if q = i then [] else d.children q := by
      rw [children, hcut, part_update DocNode.children]
      by_cases hq : q = i
      · rw [if_pos ⟨hq.symm, lt_size_of_isLive hi⟩, if_pos hq]
      · rw [if_neg fun he => hq he.1.symm, if_neg hq, children]
    have live (q : NodeId) : cut.isLive q = d.isLive q := by
      rw [isLive, hcut, part_update DocNode.kind, ite_self, isLive]
    have sub (q : NodeId) : cut.children q ⊆ d.children q := by
      rw [kept]
      split
      · exact List.nil_subset _
      · exact List.Subset.refl _
    obtain ⟨sound, stays, unlisted⟩ := all (d.children i) cut (h.bare i) (by rw [live, hi])
      (alone.of_subset sub) (h.nodup i) fun k hk => by
        refine ⟨by rw [live, h.live hk], fun q hq => ?_, fun he => alone i (he ▸ hk)⟩
        rw [kept] at hq
        split at hq
        · cases hq
        · next hne => exact hne (Option.some.inj ((h.linked hq).symm.trans (h.linked hk)))
    exact sound.clear stays unlisted

/-- Any node is released, with what is below it. -/
theorem release (h : d.Sound) (i : NodeId) : (d.release i).Sound := by
  unfold Document.release
  split
  · next hi =>
    have cut := h.without i
    exact cut.releaseWithin _ (by rw [isLive_without, hi]) (h.not_mem_without i)
  · exact h

/-! ## Texts -/

/-- The text of a node is written. -/
theorem setText (h : d.Sound) (i : NodeId) (content : String) : (d.setText i content).Sound := by
  have written (j : NodeId) : (d.writeText j content).countText.Sound :=
    (h.write j (f := fun n => { n with text := content }) fun _ => ⟨rfl, rfl, rfl⟩).count _
  unfold Document.setText
  split
  · exact h
  · exact written i
  · split
    · exact written _
    · -- The children make way for a new text, which comes last among the children that are left.
      have cleared (kids : List NodeId) (d : Document L) (h : d.Sound) :
          (kids.foldl Document.release d).Sound := by
        induction kids generalizing d with
        | nil => exact h
        | cons k kids ih => exact ih _ (h.release k)
      have made := (cleared (d.children i) d h).allocate .text content
      dsimp only
      change Joins _ (Document.createText _ content).1 (Document.createText _ content).2 _ at made
      generalize Document.createText _ content = new at made ⊢
      obtain ⟨d₁, x⟩ := new
      have orphan : d₁.parent? x = none := by rw [made.parent?, if_pos rfl]
      have placed := made.sound.insertBefore i (by rw [made.isLive, if_pos rfl]) none
      rw [Document.insertBefore, orphan] at placed
      simp only [placeBefore_none] at placed
      exact placed.of_count.count _

end Sound

/-! ## Handled documents -/

/-- An edit of live nodes keeps the document sound. -/
theorem Edit.sound {e : Edit L} (live : ∀ i ∈ e.handles, d.isLive i = true) (h : d.Sound) :
    (e.apply d).Sound := by
  cases e with
  | createElement tag => exact (h.allocate (.element tag) "").sound
  | createText content => exact (h.allocate .text content).sound
  | instantiate markup => exact (depicts_instantiate markup d 0 h).choose_spec.adds.sound
  | insertBefore parent node reference =>
    exact h.insertBefore parent (live node (by simp [handles])) reference
  | append parent node => exact h.insertBefore parent (live node (by simp [handles])) none
  | remove parent node => exact h.remove parent node
  | detach node => exact h.detach node
  | replace old node => exact h.replace old (live node (by simp [handles]))
  | release node => exact h.release node
  | setText node content => exact h.setText node content
  | setAttribute node name value => exact h.setAttribute node name value
  | setClass node name on => exact h.setClass node name on
  | setStyle node property value => exact h.setAttribute node _ _
  | listen node event listener =>
    exact h.write node (f := fun n => { n with listeners := n.listeners ++ [(event, listener)] })
      fun _ => ⟨rfl, rfl, rfl⟩

/-- The documents that edits of live nodes lead to from the one without nodes. -/
inductive Handled : Document L → Prop where
  | reset : Handled {}
  | edit {d : Document L} (e : Edit L) (h : Handled d)
    (live : ∀ i ∈ e.handles, d.isLive i = true) : Handled (e.apply d)

/-- Every handled document is sound. -/
theorem Handled.sound (h : d.Handled) : d.Sound := by
  induction h with
  | reset => exact sound_empty
  | edit e _ live ih => exact Edit.sound live ih

/-- In every document that edits of live nodes lead to, a copy of any markup is written as the markup
is; every node that was live stays as it is; every way down the copy leads to a node that was not
live and is so now, and no two ways lead to the same one. So the written form that a definition
keeps is that of a fresh copy. -/
theorem html_instantiate (h : d.Handled) :
    (∀ m : Markup,
      (d.instantiate m).1.html (d.instantiate m).2 = m.html ∧
      (∀ i, d.isLive i = true → (d.instantiate m).1.node i = d.node i) ∧
      (∀ way i, (d.instantiate m).1.descend (d.instantiate m).2 way = some i →
        d.isLive i = false ∧ (d.instantiate m).1.isLive i = true) ∧
      (∀ way other i, (d.instantiate m).1.descend (d.instantiate m).2 way = some i →
        (d.instantiate m).1.descend (d.instantiate m).2 other = some i → way = other)) ∧
    (∀ definition : Definition,
      let copy := d.instantiate definition.template.markup
      definition.template.html = copy.1.html copy.2) := by
  have copied (m : Markup) := depicts_instantiate m d 0 h.sound
  refine ⟨fun m => ?_, fun definition => ?_⟩
  · obtain ⟨f, copy⟩ := copied m
    refine ⟨copy.html_eq, fun i hi => ?_, fun way i hi => ?_, fun way other i hw ho => ?_⟩
    · refine copy.adds.node i fun k hk => ?_
      have := copy.adds.dead hk
      rw [hi] at this
      cases this
    · obtain ⟨k, hk⟩ := copy.of_descend hi
      exact ⟨copy.adds.dead hk, copy.adds.live hk⟩
    · exact copy.adds.sound.eq_of_descend copy.orphan hw ho
  · obtain ⟨f, copy⟩ := copied definition.template.markup
    exact copy.html_eq.symm

/-- Two elements are put below each other; then a text takes the place of what is in one of them. -/
def knotted : Document Unit :=
  [.createElement "a", .createElement "b", .createElement "p", .append 0 1, .append 1 0,
    .setText 0 "x", .release 2].foldl Edit.apply {}

/-- The knotted document comes of calls with live nodes. -/
theorem handled_knotted : knotted.Handled := by
  have a := Handled.reset.edit (L := Unit) (.createElement "a") nofun
  have b := a.edit (.createElement "b") nofun
  have p := b.edit (.createElement "p") nofun
  have below := p.edit (.append 0 1) (by decide)
  have above := below.edit (.append 1 0) (by decide)
  have text := above.edit (.setText 0 "x") (by decide)
  exact text.edit (.release 2) (by decide)

/-- A list with one item. -/
def oneItem : Markup := .element "ul" [("class", "a&b")] [.element "li" [] [.text "<x>"]]

/-- The two indices that can be used again go to a list and its item. The text keeps its place in
the element that is no longer there, though the item has the index of that element. -/
theorem html_oneItem_in_knotted :
    knotted.free = [2, 0] ∧ knotted.parent? 1 = some 0 ∧
    (knotted.instantiate oneItem).2 = 2 ∧
    (knotted.instantiate oneItem).1.descend 2 [0] = some 0 ∧ knotted.isLive 0 = false ∧
    (knotted.instantiate oneItem).1.html 2 = oneItem.html ∧
    (knotted.instantiate oneItem).1.node 1 = knotted.node 1 := by
  obtain ⟨html, old, new, -⟩ := (html_instantiate handled_knotted).1 oneItem
  exact ⟨by decide, by decide, by decide, by decide, (new [0] 0 (by decide)).1, html,
    old 1 (by decide)⟩

end Document

end ComponentView
