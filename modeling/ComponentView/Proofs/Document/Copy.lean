import ComponentView.Proofs.Children
import ComponentView.Proofs.Document.Forest

/-! # A copy of a component

A copy of the markup of a component has a node for every entry of its outline that has markup of its
own. The node shows what the entry says, and its children are the nodes of the child entries, in
order (`Document.exists_copy`). So the way through the markup to an entry leads to the node of that
entry (`Document.Drawn.of_descend`). -/

namespace ComponentView

variable {L : Type}

namespace NodeHead

/-- What the node becomes in the document. -/
def docKind (h : NodeHead) : DocKind :=
  match h.kind with
  | .element tag => .element tag
  | .text _ => .text

/-- What is written in the node, if it is a text. -/
def content (h : NodeHead) : String :=
  match h.kind with
  | .element _ => ""
  | .text content => content

/-- Whether the node is an element of its own, not one that a child component stands for. -/
def isPlain (h : NodeHead) : Bool := h.isElement && !h.isComponent

/-- A repeated head is the head of a component. -/
theorem isComponent_of_isRepeated {h : NodeHead} (hr : h.isRepeated = true) :
    h.isComponent = true := by
  unfold isRepeated at hr
  unfold isComponent
  cases hn : h.nested with
  | none => simp [hn] at hr
  | some n => rfl

/-- The head of a plain element is not repeated. -/
theorem isRepeated_of_not_isComponent {h : NodeHead} (hc : h.isComponent = false) :
    h.isRepeated = false :=
  Bool.eq_false_iff.mpr fun hr => by
    rw [isComponent_of_isRepeated hr] at hc
    cases hc

/-- A node of the document that shows what the markup of the node says; what a child component stands
for is bare. -/
structure ShownBy (h : NodeHead) (n : DocNode L) : Prop where
  kind : n.kind = some h.docKind
  attributes : n.attributes = if h.isPlain then h.attributes else []
  text : n.text = h.content

end NodeHead

namespace Document

variable {d later latest : Document L} {f g : Nat → Option NodeId}

/-! ## New nodes by number -/

/-- The nodes that `f` names are new, and no other node has changed. -/
structure Adds (d later : Document L) (f : Nat → Option NodeId) : Prop where
  sound : later.Sound
  dead : ∀ {k c}, f k = some c → d.isLive c = false
  live : ∀ {k c}, f k = some c → later.isLive c = true
  inj : ∀ {k k' c}, f k = some c → f k' = some c → k = k'
  node : ∀ q, (∀ k, f k ≠ some q) → later.node q = d.node q

/-- Nodes that come in one after another come in together. -/
theorem Adds.trans {n : Nat} (h : Adds d later f) (h' : Adds later latest g)
    (hf : ∀ {k c}, f k = some c → k < n) (hg : ∀ {k c}, g k = some c → n ≤ k) :
    Adds d latest fun k => if k < n then f k else g k := by
  have either {k : Nat} {c : NodeId} (hk : (if k < n then f k else g k) = some c) :
      f k = some c ∨ g k = some c := by
    split at hk
    · exact Or.inl hk
    · exact Or.inr hk
  have apart {k k' : Nat} {c : NodeId} (hk : f k = some c) (hk' : g k' = some c) : False := by
    have := h.live hk
    rw [h'.dead hk'] at this
    cases this
  constructor
  · exact h'.sound
  · intro k c hk
    rcases either hk with hk | hk
    · exact h.dead hk
    · have := h'.dead hk
      rwa [isLive, h.node c fun k' hk' => apart hk' hk] at this
  · intro k c hk
    rcases either hk with hk | hk
    · rw [isLive, h'.node c fun k' hk' => apart hk hk']
      exact h.live hk
    · exact h'.live hk
  · intro k k' c hk hk'
    rcases either hk with hk | hk <;> rcases either hk' with hk' | hk'
    · exact h.inj hk hk'
    · exact (apart hk hk').elim
    · exact (apart hk' hk).elim
    · exact h'.inj hk hk'
  · intro q hq
    rw [h'.node q fun k hk => hq k (by rw [if_neg (Nat.not_lt.mpr (hg hk)), hk])]
    exact h.node q fun k hk => hq k (by rw [if_pos (hf hk), hk])

/-- One node comes in. -/
theorem Joins.adds {x : NodeId} {n : DocNode L} (h : Joins d later x n) (index : Nat) :
    Adds d later fun k => if k = index then some x else none := by
  have only {k : Nat} {c : NodeId} (hk : (if k = index then some x else none) = some c) :
      k = index ∧ x = c := by
    split at hk
    · exact ⟨‹_›, Option.some.inj hk⟩
    · cases hk
  constructor
  · exact h.sound
  · intro k c hk
    rw [← (only hk).2]
    exact h.dead
  · intro k c hk
    rw [← (only hk).2, h.isLive, if_pos rfl]
  · intro k k' c hk hk'
    exact (only hk).1.trans (only hk').1.symm
  · intro q hq
    have := hq index
    rw [if_pos rfl] at this
    rw [h.node, if_neg fun he => this (congrArg some he.symm)]

/-- One node comes in, and takes in nodes that come in after it. -/
theorem Adds.adopt {d₁ : Document L} {i : NodeId} {n : DocNode L} {kids : List NodeId} {index : Nat}
    (made : Joins d d₁ i n) (h : Adds d₁ later f) (free : f index = none) (nodup : kids.Nodup)
    (named : ∀ r ∈ kids, ∃ k, f k = some r) (orphan : ∀ r ∈ kids, later.parent? r = none) :
    Adds d (later.adopt i kids) fun k => if k = index then some i else f k := by
  have live₁ : d₁.isLive i = true := by rw [made.isLive, if_pos rfl]
  have apart (k : Nat) : f k ≠ some i := fun hk => by
    have := h.dead hk
    rw [live₁] at this
    cases this
  have live : later.isLive i = true := by
    rw [isLive, h.node i apart]
    exact live₁
  have livek (r : NodeId) (hr : r ∈ kids) : later.isLive r = true := by
    obtain ⟨k, hk⟩ := named r hr
    exact h.live hk
  have either {k : Nat} {c : NodeId} (hk : (if k = index then some i else f k) = some c) :
      k = index ∧ c = i ∨ f k = some c ∧ c ≠ i := by
    split at hk
    · exact Or.inl ⟨‹_›, (Option.some.inj hk).symm⟩
    · exact Or.inr ⟨hk, fun he => apart k (he ▸ hk)⟩
  constructor
  · exact h.sound.adopt live nodup livek orphan
  · intro k c hk
    rcases either hk with ⟨-, rfl⟩ | ⟨hk, hne⟩
    · exact made.dead
    · have := h.dead hk
      rwa [made.isLive, if_neg hne] at this
  · intro k c hk
    rw [isLive, kind_adopt]
    rcases either hk with ⟨-, rfl⟩ | ⟨hk, -⟩
    · exact live
    · exact h.live hk
  · intro k k' c hk hk'
    rcases either hk with ⟨rfl, rfl⟩ | ⟨hk, hne⟩ <;> rcases either hk' with ⟨rfl, he⟩ | ⟨hk', hne'⟩
    · rfl
    · exact absurd rfl hne'
    · exact absurd he hne
    · exact h.inj hk hk'
  · intro q hq
    have hi : q ≠ i := fun he => hq index (by rw [if_pos rfl, he])
    have hf (k : Nat) : f k ≠ some q := fun hk => by
      refine hq k ?_
      rw [if_neg ?_, hk]
      rintro rfl
      rw [free] at hk
      cases hk
    have hk : q ∉ kids := fun hm => by
      obtain ⟨k, hk⟩ := named q hm
      exact hf k hk
    rw [node_adopt_of_not_mem hi hk, h.node q hf, made.node, if_neg hi]

/-! ## Nodes that show entries -/

/-- The node shows the entry at the position `n` of an outline, where `f` names the nodes of the
others. -/
structure Pictured (d : Document L) (f : Nat → Option NodeId) (n : Nat) (e : OutlineEntry)
    (p : NodeId) : Prop where
  shown : e.node.head.ShownBy (d.node p)
  bare : e.node.head.isPlain = false → d.children p = []
  children : e.node.head.isPlain = true →
    d.children p = (Outline.starts (n + 1) e.node.children).filterMap f
  whole : e.node.head.isPlain = true →
    ∀ x ∈ (Outline.starts (n + 1) e.node.children).zip e.node.children,
      (f x.1).isSome = !x.2.head.isRepeated

/-- The nodes that `f` names show the entries of an outline, of which the first has the position
`start`. -/
def Pictures (d : Document L) (f : Nat → Option NodeId) (start : Nat) (es : List OutlineEntry) :
    Prop :=
  ∀ {k e p}, es[k]? = some e → f (start + k) = some p → Pictured d f (start + k) e p

/-- Only what the node shows matters, and which nodes are named for its children. -/
theorem Pictured.congr {n : Nat} {e : OutlineEntry} {p : NodeId} (h : Pictured d f n e p)
    (same : ∀ s ∈ Outline.starts (n + 1) e.node.children, g s = f s)
    (node : ∃ parent, later.node p = { d.node p with parent }) : Pictured later g n e p := by
  obtain ⟨parent, hp⟩ := node
  have kids : later.children p = d.children p := by rw [Document.children, hp, Document.children]
  constructor
  · rw [hp]
    exact ⟨h.shown.kind, h.shown.attributes, h.shown.text⟩
  · intro hb
    rw [kids, h.bare hb]
  · intro hb
    rw [kids, h.children hb]
    exact List.filterMap_congr fun s hs => (same s hs).symm
  · intro hb x hx
    rw [same x.1 (List.of_mem_zip hx).1]
    exact h.whole hb x hx

/-- Pictures of two lists of entries, one after the other, are a picture of both. -/
theorem Pictures.append {start : Nat} {es fs : List OutlineEntry} (h : Pictures d f start es)
    (h' : Pictures d f (start + es.length) fs) : Pictures d f start (es ++ fs) := by
  intro k e p he hf
  rcases Nat.lt_or_ge k es.length with hk | hk
  · rw [List.getElem?_append_left hk] at he
    exact h he hf
  · rw [List.getElem?_append_right hk] at he
    obtain ⟨j, rfl⟩ := Nat.le.dest hk
    rw [Nat.add_sub_cancel_left] at he
    rw [← Nat.add_assoc] at hf ⊢
    exact h' he hf

/-- A picture of the first entry and pictures of the others are a picture of all. -/
theorem Pictures.cons {index : Nat} {e : OutlineEntry} {es : List OutlineEntry}
    (first : ∀ p, f index = some p → Pictured d f index e p) (rest : Pictures d f (index + 1) es) :
    Pictures d f index (e :: es) := by
  rintro (_ | k) e' p he hf
  · obtain rfl : e = e' := Option.some.inj he
    exact first p hf
  · rw [List.getElem?_cons_succ] at he
    rw [← Nat.add_assoc, Nat.add_right_comm] at hf ⊢
    exact rest he hf

/-! ## What a copy brings in -/

/-- What a copy of one tree brings in, where its root has the position `index`. -/
structure Copies (d later : Document L) (f : Nat → Option NodeId) (index : Nat) (root : NodeId)
    (es : List OutlineEntry) : Prop where
  adds : Adds d later f
  range : ∀ {k c}, f k = some c → index ≤ k ∧ k < index + es.length
  top : f index = some root
  orphan : later.parent? root = none
  pictures : Pictures later f index es

/-- What copies of some trees bring in, where the first root has the position `next`. -/
structure CopiesAll (d later : Document L) (f : Nat → Option NodeId) (next : Nat)
    (roots : List NodeId) (children : List Node) (es : List OutlineEntry) : Prop where
  adds : Adds d later f
  range : ∀ {k c}, f k = some c → next ≤ k ∧ k < next + es.length
  listed : roots = (Outline.starts next children).filterMap f
  orphan : ∀ r ∈ roots, later.parent? r = none
  pictures : Pictures later f next es

/-- Nothing comes in. -/
theorem CopiesAll.nil (hs : d.Sound) (next : Nat) (children : List Node) (es : List OutlineEntry) :
    CopiesAll d d (fun _ => none) next [] children es where
  adds := ⟨hs, nofun, nofun, nofun, fun _ _ => rfl⟩
  range := nofun
  listed := by simp
  orphan := nofun
  pictures := nofun

/-- A child without markup of its own comes first. -/
theorem CopiesAll.skip {next : Nat} {roots : List NodeId} {child : Node} {rest : List Node}
    {own es : List OutlineEntry} (length : own.length = child.size)
    (h : CopiesAll d later f (next + child.size) roots rest es) :
    CopiesAll d later f next roots (child :: rest) (own ++ es) := by
  have below {k : Nat} {c : NodeId} (hk : f k = some c) : next + child.size ≤ k := (h.range hk).1
  have first : f next = none := by
    cases hf : f next with
    | none => rfl
    | some c =>
      have := below hf
      have := child.size_pos
      omega
  constructor
  · exact h.adds
  · intro k c hk
    have := h.range hk
    rw [List.length_append, length]
    omega
  · rw [Outline.starts, List.filterMap_cons, first]
    exact h.listed
  · exact h.orphan
  · refine Pictures.append ?_ (length ▸ h.pictures)
    intro k e p he hf
    have := (List.getElem?_eq_some_iff.mp he).1
    have := below hf
    omega

/-- A copy of a child comes first. -/
theorem CopiesAll.cons {next : Nat} {r : NodeId} {roots : List NodeId} {child : Node}
    {rest : List Node} {own es : List OutlineEntry} (length : own.length = child.size)
    (inside : ∀ {k e}, own[k]? = some e →
      ∀ s ∈ Outline.starts (next + k + 1) e.node.children, s < next + child.size)
    (one : Copies d later f next r own)
    (all : CopiesAll later latest g (next + child.size) roots rest es) :
    CopiesAll d latest (fun k => if k < next + child.size then f k else g k) next (r :: roots)
      (child :: rest) (own ++ es) := by
  have below {k : Nat} {c : NodeId} (hf : f k = some c) : k < next + child.size := by
    have := (one.range hf).2
    rwa [length] at this
  have above {k : Nat} {c : NodeId} (hg : g k = some c) : next + child.size ≤ k :=
    (all.range hg).1
  have fst {k : Nat} (hk : k < next + child.size) :
      (if k < next + child.size then f k else g k) = f k := if_pos hk
  have snd {k : Nat} (hk : next + child.size ≤ k) :
      (if k < next + child.size then f k else g k) = g k := if_neg (Nat.not_lt.mpr hk)
  have apart {k : Nat} {c : NodeId} (hf : f k = some c) : latest.node c = later.node c := by
    refine all.adds.node c fun k' hg => ?_
    have := all.adds.dead hg
    rw [one.adds.live hf] at this
    cases this
  constructor
  · exact one.adds.trans all.adds below above
  · intro k c hk
    rw [List.length_append, length]
    split at hk
    · have := one.range hk
      omega
    · have := all.range hk
      omega
  · have first : next < next + child.size := by
      have := child.size_pos
      omega
    rw [Outline.starts, List.filterMap_cons, fst first, one.top, all.listed]
    refine congrArg _ (List.filterMap_congr fun s hs => ?_)
    exact (snd (Outline.lt_of_mem_starts hs).1).symm
  · rw [List.forall_mem_cons]
    refine ⟨?_, all.orphan⟩
    rw [parent?, apart one.top]
    exact one.orphan
  · apply Pictures.append
    · intro k e p he hf
      have hk : next + k < next + child.size := by
        have := (List.getElem?_eq_some_iff.mp he).1
        omega
      replace hf := (fst hk).symm.trans hf
      exact (one.pictures he hf).congr (fun s hs => fst (inside he s hs)) ⟨_, apart hf⟩
    · rw [length]
      intro k e p he hf
      replace hf := (snd (Nat.le_add_right ..)).symm.trans hf
      refine (all.pictures he hf).congr (fun s hs => snd ?_) ⟨_, rfl⟩
      have := (Outline.lt_of_mem_starts hs).1
      omega

/-- The copies of the children go into the node of their parent. -/
theorem CopiesAll.enclose {d₁ : Document L} {i : NodeId} {n : DocNode L} {kids : List NodeId}
    {index : Nat} {e : OutlineEntry} {es : List OutlineEntry} (made : Joins d d₁ i n)
    (shown : e.node.head.ShownBy n)
    (inside : CopiesAll d₁ later f (index + 1) kids e.node.children es)
    (bare : e.node.head.isPlain = false → kids = [])
    (whole : e.node.head.isPlain = true →
      ∀ x ∈ (Outline.starts (index + 1) e.node.children).zip e.node.children,
        (f x.1).isSome = !x.2.head.isRepeated) :
    Copies d (later.adopt i kids) (fun k => if k = index then some i else f k) index i (e :: es) := by
  have other {k : Nat} (hk : index < k) : (if k = index then some i else f k) = f k :=
    if_neg (Nat.ne_of_gt hk)
  have free : f index = none := by
    cases hf : f index with
    | none => rfl
    | some c =>
      have := (inside.range hf).1
      omega
  have named (r : NodeId) (hr : r ∈ kids) : ∃ k, f k = some r := by
    rw [inside.listed] at hr
    obtain ⟨s, -, hs⟩ := List.mem_filterMap.mp hr
    exact ⟨s, hs⟩
  have nodup : kids.Nodup := by
    rw [inside.listed]
    exact (Outline.nodup_starts _ _).filterMap fun s s' r hr hr' => inside.adds.inj hr hr'
  have live₁ : d₁.isLive i = true := by rw [made.isLive, if_pos rfl]
  -- The node itself is none of what is inside.
  have apart (k : Nat) : f k ≠ some i := fun hk => by
    have := inside.adds.dead hk
    rw [live₁] at this
    cases this
  have node : later.node i = n := by rw [inside.adds.node i apart, made.node, if_pos rfl]
  have live : later.isLive i = true := by
    rw [isLive, node]
    exact made.live
  have livek (r : NodeId) (hr : r ∈ kids) : later.isLive r = true := by
    obtain ⟨k, hk⟩ := named r hr
    exact inside.adds.live hk
  have childs := children_adopt live kids
  constructor
  · exact .adopt made inside.adds free nodup named inside.orphan
  · intro k c hk
    rw [List.length_cons]
    split at hk
    · omega
    · have := inside.range hk
      omega
  · exact if_pos rfl
  · have hi : i ∉ kids := fun hm => by
      obtain ⟨k, hk⟩ := named i hm
      exact apart k hk
    rw [parent?_adopt i livek, if_neg hi, parent?, node]
    exact made.orphan
  · apply Pictures.cons
    · intro p hp
      obtain rfl : i = p := Option.some.inj ((if_pos rfl).symm.trans hp)
      constructor
      · rw [node_adopt, if_pos (lt_size_of_isLive live), node]
        exact ⟨shown.kind, shown.attributes, shown.text⟩
      · intro hb
        rw [childs, if_pos rfl, bare hb]
      · intro _
        rw [childs, if_pos rfl, inside.listed]
        exact List.filterMap_congr fun s hs => (other (Outline.lt_of_mem_starts hs).1).symm
      · intro hb x hx
        rw [other (Outline.lt_of_mem_starts (List.of_mem_zip hx).1).1]
        exact whole hb x hx
    · intro k e p he hf
      replace hf : f (index + 1 + k) = some p := (other (by omega)).symm.trans hf
      refine (inside.pictures he hf).congr (fun s hs => other ?_) ?_
      · have := (Outline.lt_of_mem_starts hs).1
        omega
      · have hne : p ≠ i := fun hpi => apart _ (hpi ▸ hf)
        rw [node_adopt, if_pos (lt_size_of_isLive (inside.adds.live hf)), if_neg hne]
        exact ⟨_, rfl⟩

/-- A node comes in that shows nothing of what is below it. -/
theorem Joins.copies {x : NodeId} {n : DocNode L} {index : Nat} {e : OutlineEntry}
    {es : List OutlineEntry} (h : Joins d later x n) (shown : e.node.head.ShownBy n)
    (bare : e.node.head.isPlain = false) :
    Copies d later (fun k => if k = index then some x else none) index x (e :: es) := by
  constructor
  · exact h.adds index
  · intro k c hk
    split at hk
    · rw [List.length_cons]
      omega
    · cases hk
  · exact if_pos rfl
  · rw [h.parent?, if_pos rfl]
  · apply Pictures.cons
    · intro p hp
      obtain rfl : x = p := Option.some.inj ((if_pos rfl).symm.trans hp)
      constructor
      · rw [h.node, if_pos rfl]
        exact shown
      · intro _
        rw [h.children, if_pos rfl]
      · intro hb
        rw [bare] at hb
        cases hb
      · intro hb
        rw [bare] at hb
        cases hb
    · intro k e' p _ hf
      have hne : index + 1 + k ≠ index := by omega
      cases (if_neg hne).symm.trans hf

mutual
/-- A copy of the markup of a node is a copy of the node. -/
theorem copies_instantiate (address : Address) (place : List Nat) (parent : Option Nat)
    (index : Nat) : ∀ (n : Node) (d : Document L), d.Sound →
      ∃ f, Copies d (d.instantiate n.markup).1 f index (d.instantiate n.markup).2
        (Outline.entries address place parent index n)
  | ⟨head, children⟩, d, hs => by
    cases hk : head.kind with
    | text content =>
      have eq : Node.markup ⟨head, children⟩ = .text content := by simp [Node.markup, hk]
      have bare : head.isPlain = false := by simp [NodeHead.isPlain, NodeHead.isElement, hk]
      rw [eq, Outline.entries]
      refine ⟨_, (hs.allocate .text content).copies ?_ bare⟩
      exact ⟨by rw [NodeHead.docKind, hk], by rw [bare]; rfl, by rw [NodeHead.content, hk]⟩
    | element tag =>
      by_cases component : head.isComponent = true
      · -- The element only holds the place of a child component.
        have eq : Node.markup ⟨head, children⟩ = .element tag [] [] := by
          simp [Node.markup, hk, component]
        have bare : head.isPlain = false := by simp [NodeHead.isPlain, component]
        rw [eq, Outline.entries, instantiate_element_eq]
        have made := (hs.allocate (.element tag) "").write (f := fun n => { n with attributes := [] })
          fun _ => ⟨rfl, rfl, rfl⟩
        refine ⟨_, CopiesAll.enclose made ?_ (.nil made.sound _ _ _) (fun _ => rfl) fun hb => ?_⟩
        · exact ⟨by rw [NodeHead.docKind, hk], by rw [bare]; rfl, by rw [NodeHead.content, hk]⟩
        · change head.isPlain = true at hb
          rw [bare] at hb
          cases hb
      · have eq : Node.markup ⟨head, children⟩
            = .element tag head.attributes (Node.markupAll children) := by
          simp [Node.markup, hk, component]
        have plain : head.isPlain = true := by
          simp [NodeHead.isPlain, NodeHead.isElement, hk, component]
        rw [eq, Outline.entries, instantiate_element_eq]
        have made := (hs.allocate (.element tag) "").write
          (f := fun n => { n with attributes := head.attributes }) fun _ => ⟨rfl, rfl, rfl⟩
        obtain ⟨f, inside, whole⟩ := copies_instantiateAll address place index 0 0 (index + 1)
          (Nat.lt_succ_self index) children _ made.sound
        refine ⟨_, CopiesAll.enclose made ?_ inside (fun hb => ?_) fun _ => whole⟩
        · exact ⟨by rw [NodeHead.docKind, hk], by rw [plain]; rfl, by rw [NodeHead.content, hk]⟩
        · change head.isPlain = false at hb
          rw [plain] at hb
          cases hb

/-- Copies of the markup of some nodes are copies of the nodes, each of them that is not repeated. -/
theorem copies_instantiateAll (address : Address) (place : List Nat)
    (parent position markupPosition next : Nat) (hn : parent < next) :
    ∀ (children : List Node) (d : Document L), d.Sound →
      ∃ f, CopiesAll d (d.instantiateAll (Node.markupAll children)).1 f next
        (d.instantiateAll (Node.markupAll children)).2 children
        (Outline.childEntries address place parent position markupPosition next children) ∧
        ∀ x ∈ (Outline.starts next children).zip children, (f x.1).isSome = !x.2.head.isRepeated
  | [], d, hs => ⟨_, .nil hs next [] _, nofun⟩
  | child :: rest, d, hs => by
    rw [Outline.childEntries]
    have length (place : List Nat) :
        (Outline.entries (address ++ [position]) place (some parent) next child).length
          = child.size := Outline.length_entries ..
    rw [length]
    have pos := child.size_pos
    by_cases repeated : child.head.isRepeated = true
    · have eq : Node.markupAll (child :: rest) = Node.markupAll rest := by
        rw [Node.markupAll, if_pos repeated]
      rw [eq]
      obtain ⟨f, all, whole⟩ := copies_instantiateAll address place parent (position + 1)
        (if child.head.isRepeated then markupPosition else markupPosition + 1)
        (next + child.size) (by omega) rest d hs
      refine ⟨f, all.skip (length _), ?_⟩
      rw [Outline.starts, List.zip_cons_cons, List.forall_mem_cons]
      refine ⟨?_, whole⟩
      cases hf : f next with
      | none => rw [repeated]; rfl
      | some c =>
        have := (all.range hf).1
        omega
    · have eq : Node.markupAll (child :: rest) = child.markup :: Node.markupAll rest := by
        rw [Node.markupAll, if_neg repeated]
      rw [eq, instantiateAll]
      obtain ⟨f, one⟩ := copies_instantiate (address ++ [position])
        (if child.head.isRepeated then place else place ++ [markupPosition]) (some parent) next
        child d hs
      obtain ⟨g, all, whole⟩ := copies_instantiateAll address place parent (position + 1)
        (if child.head.isRepeated then markupPosition else markupPosition + 1)
        (next + child.size) (by omega) rest (d.instantiate child.markup).1 one.adds.sound
      refine ⟨_, .cons (length _) (fun he s hs => ?_) one all, ?_⟩
      · exact (Outline.lt_of_mem_starts_entries (by simpa using hn) he hs).2
      · rw [Outline.starts, List.zip_cons_cons, List.forall_mem_cons]
        constructor
        · rw [if_pos (by omega), one.top]
          simpa using repeated
        · intro x hx
          have := (Outline.lt_of_mem_starts (List.of_mem_zip hx).1).1
          rw [if_neg (by omega)]
          exact whole x hx
end

/-! ## Copies by their outline -/

/-- The nodes that `f` names show the entries of an outline: the children of an element are those of
its child entries. -/
structure Drawn (d : Document L) (o : Outline) (f : Nat → Option NodeId) : Prop where
  shown : ∀ {n e p}, o[n]? = some e → f n = some p → e.node.head.ShownBy (d.node p)
  bare : ∀ {n e p}, o[n]? = some e → f n = some p → e.node.head.isPlain = false →
    d.children p = []
  children : ∀ {n e p}, o[n]? = some e → f n = some p → e.node.head.isPlain = true →
    d.children p = (o.childrenOf n).filterMap f
  whole : ∀ {n e p m e'}, o[n]? = some e → f n = some p → e.node.head.isPlain = true →
    o[m]? = some e' → e'.parent = some n → (f m).isSome = !e'.node.head.isRepeated

/-- From `d` to `later` a copy of a component comes in, with `r` for its root; `f` names the nodes of
the entries of its outline. -/
structure CopyOf (root : Node) (d later : Document L) (r : NodeId) (f : Nat → Option NodeId) :
    Prop where
  adds : Adds d later f
  range : ∀ {k c}, f k = some c → k < (Outline.ofRoot root).length
  top : f 0 = some r
  orphan : later.parent? r = none
  drawn : Drawn later (Outline.ofRoot root) f

/-- What is made from the markup of a component is a copy of the component. -/
theorem exists_copy (hs : d.Sound) (root : Node) :
    ∃ f, CopyOf root d (d.instantiate root.markup).1 (d.instantiate root.markup).2 f := by
  obtain ⟨f, copies⟩ := copies_instantiate [] [] none 0 root d hs
  have pictures {n : Nat} {e : OutlineEntry} {p : NodeId} (he : (Outline.ofRoot root)[n]? = some e)
      (hf : f n = some p) : Pictured (d.instantiate root.markup).1 f n e p := by
    have := copies.pictures he (by rwa [Nat.zero_add])
    rwa [Nat.zero_add] at this
  have drawn : Drawn (d.instantiate root.markup).1 (Outline.ofRoot root) f := by
    constructor
    · intro n e p he hf
      exact (pictures he hf).shown
    · intro n e p he hf
      exact (pictures he hf).bare
    · intro n e p he hf hb
      rw [Outline.childrenOf_eq he]
      exact (pictures he hf).children hb
    · intro n e p m e' he hf hb he' hp
      obtain ⟨position, child, hm⟩ := Outline.exists_child he he' hp
      have := (pictures he hf).whole hb
      rw [← Outline.childrenOf_eq he] at this
      refine this (m, e'.node) (List.mem_iff_getElem?.mpr ⟨position, ?_⟩)
      rw [List.getElem?_zip_eq_some]
      exact ⟨hm, child.node⟩
  refine ⟨f, copies.adds, fun hk => ?_, copies.top, copies.orphan, drawn⟩
  have := (copies.range hk).2
  rwa [Nat.zero_add] at this

/-- No child component stands for the parent of an entry, and the parent is not repeated. -/
theorem single_parent {o : Outline} (ho : o.Sound) {n p : Nat} {a e : OutlineEntry}
    (he : o[n]? = some e) (hp : e.parent = some p) (ha : o[p]? = some a) :
    a.node.head.isComponent = false ∧ a.node.head.isRepeated = false := by
  obtain ⟨-, a', ha', component⟩ := ho.parent he hp
  obtain rfl := Option.some.inj (ha.symm.trans ha')
  exact ⟨component, NodeHead.isRepeated_of_not_isComponent component⟩

/-- The last step of a way down is a step to a child. -/
theorem descend_append (d : Document L) (i : NodeId) (way : List Nat) (position : Nat) :
    d.descend i (way ++ [position]) = (d.descend i way).bind fun j => d.child? j position := by
  induction way generalizing i with
  | nil => simp [descend]
  | cons k way ih =>
    rw [List.cons_append, descend, descend]
    cases d.child? i k with
    | none => rfl
    | some j => exact ih j

/-- The position of what a member of a list becomes among what all members become. -/
theorem getElem?_filterMap_countP {α β γ : Type} {f : α → Option β} {g : γ → Bool} {xs : List α}
    {cs : List γ} (h : ∀ x ∈ xs.zip cs, (f x.1).isSome = g x.2) {q : Nat} {x : α} {c : γ} {b : β}
    (hx : xs[q]? = some x) (hc : cs[q]? = some c) (hb : f x = some b) :
    (xs.filterMap f)[(cs.take q).countP g]? = some b := by
  induction xs generalizing cs q with
  | nil => simp at hx
  | cons y xs ih =>
    cases cs with
    | nil => simp at hc
    | cons c' cs =>
      rw [List.zip_cons_cons, List.forall_mem_cons] at h
      obtain ⟨first, others⟩ := h
      cases q with
      | zero =>
        obtain rfl := Option.some.inj hx
        simp [hb]
      | succ q =>
        rw [List.getElem?_cons_succ] at hx hc
        rw [List.take_succ_cons, List.countP_cons, List.filterMap_cons]
        cases hy : f y with
        | none =>
          have hg : g c' = false := by rw [← first, hy]; rfl
          rw [hg]
          simpa using ih others hx hc
        | some z =>
          have hg : g c' = true := by rw [← first, hy]; rfl
          rw [hg]
          simpa using ih others hx hc

/-- A node is found among the children of its parent at its place in the markup. -/
theorem Drawn.child?_eq {root : Node} (h : Drawn d (Outline.ofRoot root) f) {p n position : Nat}
    {a e : OutlineEntry} (ha : (Outline.ofRoot root)[p]? = some a)
    (he : (Outline.ofRoot root)[n]? = some e) (hp : e.parent = some p)
    (child : Outline.ChildAt a position e) (repeated : e.node.head.isRepeated = false) {y : NodeId}
    (hy : f p = some y) (plain : a.node.head.isPlain = true) :
    d.child? y (Outline.markupCount (a.node.children.take position)) = f n ∧ (f n).isSome = true := by
  have shown := h.whole ha hy plain he hp
  rw [repeated] at shown
  obtain ⟨z, hz⟩ := Option.isSome_iff_exists.mp shown
  have zipped : ∀ x ∈ ((Outline.ofRoot root).childrenOf p).zip a.node.children,
      (f x.1).isSome = !x.2.head.isRepeated := by
    intro x hx
    obtain ⟨q, hq⟩ := List.mem_iff_getElem?.mp hx
    rw [List.getElem?_zip_eq_some] at hq
    exact h.whole ha hy plain (Outline.getElem?_child ha hq.1 hq.2) rfl
  have place := getElem?_filterMap_countP (g := fun c => !c.head.isRepeated) zipped
    (Outline.getElem?_childrenOf ha he child) child.node hz
  refine ⟨?_, shown⟩
  rw [child?, h.children ha hy plain, hz]
  exact place

/-- The way through the markup to an entry leads to its node, if it leads anywhere. -/
theorem Drawn.of_descend {root : Node} {r : NodeId} (h : Drawn d (Outline.ofRoot root) f)
    (hr : f 0 = some r) (ho : (Outline.ofRoot root).Sound) {n : Nat} {e : OutlineEntry}
    (he : (Outline.ofRoot root)[n]? = some e) (repeated : e.node.head.isRepeated = false)
    {x : NodeId} (hx : d.descend r e.place = some x) : f n = some x := by
  induction n using Nat.strongRecOn generalizing e x with
  | _ n ih =>
    rcases Outline.parent_ofRoot he with ⟨rfl, rfl⟩ | ⟨p, hlt, a, position, ha, hp, child⟩
    · exact hr.trans hx
    · obtain ⟨-, single⟩ := single_parent ho he hp ha
      rw [child.place, repeated, if_neg Bool.false_ne_true, descend_append,
        Option.bind_eq_some_iff] at hx
      obtain ⟨y, hy, hx⟩ := hx
      have hf := ih p hlt ha single hy
      cases plain : a.node.head.isPlain with
      | false =>
        rw [child?, h.bare ha hf plain] at hx
        cases hx
      | true => exact (h.child?_eq ha he hp child repeated hf plain).1.symm.trans hx

/-- The way through the markup to an entry leads to its node, where no text has children. -/
theorem Drawn.descend_eq {root : Node} {r : NodeId} (h : Drawn d (Outline.ofRoot root) f)
    (hr : f 0 = some r) (ho : (Outline.ofRoot root).Sound)
    (texts : ∀ e ∈ Outline.ofRoot root, e.node.head.isElement = false → e.node.children = [])
    {n : Nat} {e : OutlineEntry} (he : (Outline.ofRoot root)[n]? = some e)
    (repeated : e.node.head.isRepeated = false) :
    d.descend r e.place = f n ∧ (f n).isSome = true := by
  induction n using Nat.strongRecOn generalizing e with
  | _ n ih =>
    rcases Outline.parent_ofRoot he with ⟨rfl, rfl⟩ | ⟨p, hlt, a, position, ha, hp, child⟩
    · rw [hr]
      exact ⟨rfl, rfl⟩
    · -- What has a child is an element of its own.
      obtain ⟨component, single⟩ := single_parent ho he hp ha
      have plain : a.node.head.isPlain = true := by
        rw [NodeHead.isPlain, component]
        by_contra hn
        have bare := texts a (List.mem_of_getElem? ha) (by simpa using hn)
        have := child.node
        rw [bare] at this
        cases this
      obtain ⟨way, some⟩ := ih p hlt ha single
      obtain ⟨y, hy⟩ := Option.isSome_iff_exists.mp some
      rw [child.place, repeated, if_neg Bool.false_ne_true, descend_append, way, hy]
      exact h.child?_eq ha he hp child repeated hy plain

end Document

end ComponentView
