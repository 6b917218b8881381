import ComponentView.Proofs.Document.Copy
import Mathlib.Data.List.Induction

/-! # Copies of markup

A copy of some markup brings in one node for every element and text of it, and these nodes show the
markup (`Document.Depicts`). A node that shows some markup is written as the markup is
(`Document.Shows.html`). All this needs no more than a sound document, so it holds whatever has been
released before. -/

namespace ComponentView

namespace Markup

mutual
/-- The number of elements and texts in a tree. -/
def size : Markup → Nat
  | text _ => 1
  | element _ _ children => sizeAll children + 1

/-- The number of elements and texts in some trees. -/
def sizeAll : List Markup → Nat
  | [] => 0
  | m :: rest => size m + sizeAll rest
end

end Markup

namespace Document

variable {L : Type} {d later latest : Document L} {f g : Nat → Option NodeId}

/-! ## Nodes that show markup -/

mutual
/-- The node and what is below it show a tree. -/
def Shows (d : Document L) : Markup → NodeId → Prop
  | .text content, i => (d.node i).kind = some .text ∧ (d.node i).text = content
  | .element tag attributes children, i =>
    (d.node i).kind = some (.element tag) ∧ (d.node i).attributes = attributes ∧
      ShowsAll d children (d.children i)

/-- The nodes and what is below them show some trees, each one tree. -/
def ShowsAll (d : Document L) : List Markup → List NodeId → Prop
  | [], is => is = []
  | m :: rest, is => ∃ i others, is = i :: others ∧ Shows d m i ∧ ShowsAll d rest others
end

mutual
/-- Only nodes below matter, and not where a node hangs. -/
theorem Shows.congr {inside : NodeId → Prop} (closed : ∀ {p}, inside p → ∀ c ∈ d.children p, inside c)
    (same : ∀ {p}, inside p → ∃ parent, later.node p = { d.node p with parent }) :
    ∀ {m : Markup} {i : NodeId}, inside i → d.Shows m i → later.Shows m i
  | .text content, i, hi, ⟨kind, text⟩ => by
    obtain ⟨parent, hp⟩ := same hi
    exact ⟨by rw [hp]; exact kind, by rw [hp]; exact text⟩
  | .element tag attributes children, i, hi, ⟨kind, written, below⟩ => by
    obtain ⟨parent, hp⟩ := same hi
    have kids : later.children i = d.children i := by rw [Document.children, hp, Document.children]
    refine ⟨by rw [hp]; exact kind, by rw [hp]; exact written, ?_⟩
    rw [kids]
    exact ShowsAll.congr closed same (closed hi) below

/-- A list of markups is shown as long as the nodes inside differ only in their parents. -/
theorem ShowsAll.congr {inside : NodeId → Prop}
    (closed : ∀ {p}, inside p → ∀ c ∈ d.children p, inside c)
    (same : ∀ {p}, inside p → ∃ parent, later.node p = { d.node p with parent }) :
    ∀ {ms : List Markup} {is : List NodeId}, (∀ i ∈ is, inside i) → d.ShowsAll ms is →
      later.ShowsAll ms is
  | [], _, _, h => h
  | _ :: _, _, hi, ⟨i, others, he, first, rest⟩ => by
    subst he
    rw [List.forall_mem_cons] at hi
    exact ⟨i, others, rfl, Shows.congr closed same hi.1 first, ShowsAll.congr closed same hi.2 rest⟩
end

mutual
/-- A node that shows a tree is written as the tree is. -/
theorem Shows.htmlWithin : ∀ {m : Markup} {i : NodeId} {depth : Nat}, d.Shows m i →
    m.size ≤ depth → htmlWithin depth d i = m.html
  | .text content, i, depth + 1, ⟨kind, text⟩, _ => by
    simp only [Document.htmlWithin, kind, text, Markup.html]
  | .element tag attributes children, i, depth + 1, ⟨kind, written, below⟩, hs => by
    have inner := ShowsAll.htmlWithin below (Nat.le_of_succ_le_succ hs)
    simp only [Document.htmlWithin, kind, written, Markup.html, inner]
  | .text _, _, 0, _, hs => absurd hs (by simp [Markup.size])
  | .element _ _ _, _, 0, _, hs => absurd hs (by simp [Markup.size])

/-- What shows a list of markups is written as the markups are. -/
theorem ShowsAll.htmlWithin : ∀ {ms : List Markup} {is : List NodeId} {depth : Nat},
    d.ShowsAll ms is → Markup.sizeAll ms ≤ depth →
      String.join (is.map (Document.htmlWithin depth d)) = Markup.htmlAll ms
  | [], _, _, h, _ => by
    rw [h]
    rfl
  | m :: rest, _, depth, ⟨i, others, he, first, more⟩, hs => by
    rw [Markup.sizeAll] at hs
    rw [he, List.map_cons, String.join_cons, Shows.htmlWithin first (by omega),
      ShowsAll.htmlWithin more (by omega), Markup.htmlAll]
end

/-! ## What a copy brings in -/

/-- From `d` to `later` the nodes that `f` names come in, `size` of them from the number `start` on.
Whatever is below them is among them. -/
structure Grows (d later : Document L) (f : Nat → Option NodeId) (start size : Nat) : Prop where
  adds : Adds d later f
  named : ∀ k, (f k).isSome = true ↔ start ≤ k ∧ k < start + size
  closed : ∀ {p}, (∃ k, f k = some p) → ∀ c ∈ later.children p, ∃ k, f k = some c

/-- What a copy of a tree brings in, where its root has the number `start`. -/
structure Depicts (d later : Document L) (f : Nat → Option NodeId) (start : Nat) (m : Markup)
    (root : NodeId) : Prop extends Grows d later f start m.size where
  top : f start = some root
  orphan : later.parent? root = none
  shows : later.Shows m root

/-- What copies of some trees bring in, where the first root has the number `start`. -/
structure DepictsAll (d later : Document L) (f : Nat → Option NodeId) (start : Nat)
    (ms : List Markup) (roots : List NodeId) : Prop extends
    Grows d later f start (Markup.sizeAll ms) where
  nodup : roots.Nodup
  among : ∀ r ∈ roots, ∃ k, f k = some r
  orphan : ∀ r ∈ roots, later.parent? r = none
  shows : later.ShowsAll ms roots

/-- Nodes that come in after others leave these as they are. -/
theorem Grows.node_eq {start size : Nat} (h : Grows d later f start size)
    (adds : Adds later latest g) {p : NodeId} (hp : ∃ k, f k = some p) :
    latest.node p = later.node p := by
  obtain ⟨k, hk⟩ := hp
  refine adds.node p fun k' hk' => ?_
  have := adds.dead hk'
  rw [h.adds.live hk] at this
  cases this

/-- Two stretches of new nodes make one. -/
theorem Grows.append {start size more : Nat} (h : Grows d later f start size)
    (h' : Grows later latest g (start + size) more) :
    Grows d latest (fun k => if k < start + size then f k else g k) start (size + more) := by
  have below {k : Nat} {c : NodeId} (hk : f k = some c) : k < start + size :=
    ((h.named k).mp (by rw [hk]; rfl)).2
  have above {k : Nat} {c : NodeId} (hk : g k = some c) : start + size ≤ k :=
    ((h'.named k).mp (by rw [hk]; rfl)).1
  refine ⟨h.adds.trans h'.adds below above, fun k => ?_, ?_⟩
  · have first := h.named k
    have second := h'.named k
    split
    · rw [first]
      omega
    · rw [second]
      omega
  · rintro p ⟨k, hk⟩ c hc
    split at hk
    · have kept : latest.children p = later.children p := by
        rw [Document.children, h.node_eq h'.adds ⟨k, hk⟩, Document.children]
      obtain ⟨j, hj⟩ := h.closed ⟨k, hk⟩ c (kept ▸ hc)
      exact ⟨j, by rw [if_pos (below hj), hj]⟩
    · obtain ⟨j, hj⟩ := h'.closed ⟨k, hk⟩ c hc
      exact ⟨j, by rw [if_neg (Nat.not_lt.mpr (above hj)), hj]⟩

/-- No markups need no nodes. -/
theorem DepictsAll.nil (hs : d.Sound) (start : Nat) : DepictsAll d d (fun _ => none) start [] [] where
  adds := ⟨hs, nofun, nofun, nofun, fun _ _ => rfl⟩
  named k := by simp [Markup.sizeAll]
  closed := nofun
  nodup := List.nodup_nil
  among := nofun
  orphan := nofun
  shows := rfl

/-- A copy of a tree comes before copies of others. -/
theorem DepictsAll.cons {start : Nat} {m : Markup} {rest : List Markup} {i : NodeId}
    {others : List NodeId} (one : Depicts d later f start m i)
    (all : DepictsAll later latest g (start + m.size) rest others) :
    DepictsAll d latest (fun k => if k < start + m.size then f k else g k) start (m :: rest)
      (i :: others) := by
  have grows := one.toGrows.append all.toGrows
  have kept {p : NodeId} (hp : ∃ k, f k = some p) : latest.node p = later.node p :=
    one.toGrows.node_eq all.adds hp
  have inside {k : Nat} {c : NodeId} (hk : f k = some c) : k < start + m.size :=
    ((one.named k).mp (by rw [hk]; rfl)).2
  have outside {k : Nat} {c : NodeId} (hk : g k = some c) : ¬ k < start + m.size :=
    Nat.not_lt.mpr ((all.named k).mp (by rw [hk]; rfl)).1
  refine
    { toGrows := grows, nodup := List.nodup_cons.mpr ⟨fun hm => ?_, all.nodup⟩
      among := List.forall_mem_cons.mpr ⟨⟨start, ?_⟩, fun r hr => ?_⟩
      orphan := List.forall_mem_cons.mpr ⟨?_, all.orphan⟩
      shows := ⟨i, others, rfl, ?_, all.shows⟩ }
  · obtain ⟨k, hk⟩ := all.among i hm
    have := all.adds.dead hk
    rw [one.adds.live one.top] at this
    cases this
  · rw [if_pos (inside one.top), one.top]
  · obtain ⟨k, hk⟩ := all.among r hr
    exact ⟨k, by rw [if_neg (outside hk), hk]⟩
  · rw [parent?, kept ⟨start, one.top⟩]
    exact one.orphan
  · exact one.shows.congr one.closed (fun hp => ⟨_, kept hp⟩) ⟨start, one.top⟩

/-- A new node comes before copies of what is in it, and takes them in. -/
theorem DepictsAll.enclose {d₁ : Document L} {i : NodeId} {n : DocNode L} {start : Nat}
    {tag : String} {attributes : Attributes} {children : List Markup} {kids : List NodeId}
    (made : Joins d d₁ i n) (kind : n.kind = some (.element tag)) (written : n.attributes = attributes)
    (inside : DepictsAll d₁ later f (start + 1) children kids) :
    Depicts d (later.adopt i kids) (fun k => if k = start then some i else f k) start
      (.element tag attributes children) i := by
  have free : f start = none := by
    cases hf : f start with
    | none => rfl
    | some c =>
      have := ((inside.named start).mp (by rw [hf]; rfl)).1
      omega
  have live₁ : d₁.isLive i = true := by rw [made.isLive, if_pos rfl]
  -- The node itself is none of what is inside.
  have apart (k : Nat) : f k ≠ some i := fun hk => by
    have := inside.adds.dead hk
    rw [live₁] at this
    cases this
  have node : later.node i = n := by rw [inside.adds.node i apart, made.node, if_pos rfl]
  have live : later.isLive i = true := by rw [isLive, node, made.live]
  have shown (q : NodeId) : (later.adopt i kids).children q = if q = i then kids else later.children q :=
    children_adopt live kids q
  have within {k : Nat} {c : NodeId} (hk : f k = some c) :
      (if k = start then some i else f k) = some c := by
    rw [if_neg ?_, hk]
    rintro rfl
    rw [free] at hk
    cases hk
  refine
    { adds := inside.adds.adopt made free inside.nodup inside.among inside.orphan
      named := fun k => ?_, closed := ?_, top := if_pos rfl, orphan := ?_, shows := ⟨?_, ?_, ?_⟩ }
  · have := inside.named k
    rw [Markup.size]
    split
    · simp
      omega
    · rw [this]
      omega
  · rintro p ⟨k, hk⟩ c hc
    rw [shown] at hc
    split at hc
    · obtain ⟨j, hj⟩ := inside.among c hc
      exact ⟨j, within hj⟩
    · next hp =>
      split at hk
      · exact absurd (Option.some.inj hk).symm hp
      · obtain ⟨j, hj⟩ := inside.closed ⟨k, hk⟩ c hc
        exact ⟨j, within hj⟩
  · have absent : i ∉ kids := fun hm => by
      obtain ⟨k, hk⟩ := inside.among i hm
      exact apart k hk
    rw [parent?_adopt i fun r hr => ?_, if_neg absent, parent?, node, made.orphan]
    obtain ⟨k, hk⟩ := inside.among r hr
    exact inside.adds.live hk
  · rw [kind_adopt, node, kind]
  · rw [node_adopt, if_pos (lt_size_of_isLive live)]
    show (later.node i).attributes = attributes
    rw [node, written]
  · rw [shown, if_pos rfl]
    refine inside.shows.congr inside.closed (fun {p} hp => ?_) inside.among
    obtain ⟨k, hk⟩ := hp
    have hne : p ≠ i := fun he => apart k (he ▸ hk)
    rw [node_adopt, if_pos (lt_size_of_isLive (inside.adds.live hk)), if_neg hne]
    exact ⟨_, rfl⟩

/-- A new text shows what it is made with. -/
theorem Depicts.text {x : NodeId} {n : DocNode L} {content : String} (made : Joins d later x n)
    (kind : n.kind = some .text) (text : n.text = content) (start : Nat) :
    Depicts d later (fun k => if k = start then some x else none) start (.text content) x where
  adds := made.adds start
  named k := by
    rw [Markup.size]
    split
    · simp
      omega
    · simp
      omega
  closed {p} hp c hc := by
    obtain ⟨k, hk⟩ := hp
    split at hk
    · rw [made.children, if_pos (Option.some.inj hk).symm] at hc
      cases hc
    · cases hk
  top := if_pos rfl
  orphan := by rw [made.parent?, if_pos rfl]
  shows := by
    rw [Shows, made.node, if_pos rfl]
    exact ⟨kind, text⟩

mutual
/-- A copy of a tree shows the tree. -/
theorem depicts_instantiate : ∀ (m : Markup) (d : Document L) (start : Nat), d.Sound →
    ∃ f, Depicts d (d.instantiate m).1 f start m (d.instantiate m).2
  | .text content, _, start, hs => ⟨_, .text (hs.allocate .text content) rfl rfl start⟩
  | .element tag attributes children, d, start, hs => by
    rw [instantiate_element_eq]
    have made := (hs.allocate (.element tag) "").write
      (f := fun n => { n with attributes }) fun _ => ⟨rfl, rfl, rfl⟩
    obtain ⟨f, inside⟩ := depicts_instantiateAll children _ (start + 1) made.sound
    exact ⟨_, inside.enclose made rfl rfl⟩

/-- Copies of some trees show the trees. -/
theorem depicts_instantiateAll : ∀ (ms : List Markup) (d : Document L) (start : Nat), d.Sound →
    ∃ f, DepictsAll d (d.instantiateAll ms).1 f start ms (d.instantiateAll ms).2
  | [], d, start, hs => ⟨_, .nil hs start⟩
  | m :: rest, d, start, hs => by
    obtain ⟨f, one⟩ := depicts_instantiate m d start hs
    obtain ⟨g, all⟩ := depicts_instantiateAll rest _ (start + m.size) one.adds.sound
    exact ⟨_, .cons one all⟩
end

/-! ## How a copy is written -/

/-- There are no more new nodes than indices. -/
theorem Grows.size_le {start size : Nat} (h : Grows d later f start size) :
    size ≤ later.size := by
  have inside : ∀ c ∈ (List.range' start size).filterMap f, c ∈ List.range later.size := by
    intro c hc
    obtain ⟨k, -, hk⟩ := List.mem_filterMap.mp hc
    exact List.mem_range.mpr (lt_size_of_isLive (h.adds.live hk))
  have nodup : ((List.range' start size).filterMap f).Nodup :=
    (List.nodup_range' ..).filterMap fun _ _ _ hk hk' => h.adds.inj hk hk'
  have all : ((List.range' start size).filterMap f).length = size := by
    rw [List.length_filterMap_eq_countP, List.countP_eq_length.mpr, List.length_range']
    intro k hk
    exact (h.named k).mpr (List.mem_range'_1.mp hk)
  have := (nodup.subperm inside).length_le
  rwa [all, List.length_range] at this

/-- A copy of a tree is written as the tree is. -/
theorem Depicts.html_eq {start : Nat} {m : Markup} {root : NodeId}
    (h : Depicts d later f start m root) : later.html root = m.html :=
  h.shows.htmlWithin (Nat.le_succ_of_le h.size_le)

/-- A way down a copy leads to one of its nodes. -/
theorem Depicts.of_descend {start : Nat} {m : Markup} {root : NodeId}
    (h : Depicts d later f start m root) {way : List Nat} {i : NodeId}
    (hi : later.descend root way = some i) : ∃ k, f k = some i := by
  induction way using List.reverseRecOn generalizing i with
  | nil => exact ⟨start, h.top.trans hi⟩
  | append_singleton way position ih =>
    rw [descend_append, Option.bind_eq_some_iff] at hi
    obtain ⟨p, hp, hi⟩ := hi
    exact h.closed (ih hp) i (List.mem_of_getElem? hi)

/-- Only one way leads down from a node without a parent to another. -/
theorem Sound.eq_of_descend (hs : d.Sound) {root : NodeId} (orphan : d.parent? root = none)
    {way other : List Nat} {i : NodeId} (hw : d.descend root way = some i)
    (ho : d.descend root other = some i) : way = other := by
  -- The last step of a way comes from the parent, so no way leads back to the root.
  have last {way : List Nat} {position : Nat} {i : NodeId}
      (h : d.descend root (way ++ [position]) = some i) :
      ∃ p, d.parent? i = some p ∧ d.descend root way = some p ∧
        (d.children p)[position]? = some i := by
    rw [descend_append, Option.bind_eq_some_iff] at h
    obtain ⟨p, hp, hi⟩ := h
    exact ⟨p, hs.linked (List.mem_of_getElem? hi), hp, hi⟩
  have away {way : List Nat} {position : Nat} (h : d.descend root (way ++ [position]) = some root) :
      False := by
    obtain ⟨p, hp, -⟩ := last h
    rw [orphan] at hp
    cases hp
  induction way using List.reverseRecOn generalizing other i with
  | nil =>
    obtain rfl := Option.some.inj hw
    cases other using List.reverseRecOn with
    | nil => rfl
    | append_singleton other position => exact (away ho).elim
  | append_singleton way position ih =>
    cases other using List.reverseRecOn with
    | nil =>
      obtain rfl := Option.some.inj ho
      exact (away hw).elim
    | append_singleton other position' =>
      obtain ⟨p, hp, toParent, hi⟩ := last hw
      obtain ⟨p', hp', toParent', hi'⟩ := last ho
      obtain rfl := Option.some.inj (hp.symm.trans hp')
      obtain rfl := ih toParent toParent'
      have inside := (List.getElem?_eq_some_iff.mp hi).1
      rw [(List.getElem?_inj inside (hs.nodup p)).mp (hi.trans hi'.symm)]

end Document

end ComponentView
