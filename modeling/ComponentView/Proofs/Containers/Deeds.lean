import ComponentView.Proofs.Containers.Blueprint
import ComponentView.Proofs.Document.Moves

/-! # Whose nodes they are

An instance is made of a copy of its component, and keeps the nodes of the copy for as long as it is
there. Deeds say which nodes belong to which copy; a copy goes by its root. In a document in which
deeds are valid (`Deeds.Valid`) the nodes of a copy stand below each other as its component has them,
and the root of a copy stands, if anywhere, in a copy of a later definition. Whatever instances do to
the document leaves deeds valid. -/

namespace ComponentView

/-- The children of a node of a copy are nodes of the copy, of child entries. -/
theorem Document.CopyOf.mem_children {L : Type} {d later : Document L} {root : Node} {r : NodeId}
    {f : Nat → Option NodeId} (h : CopyOf root d later r f) {n : Nat} {p c : NodeId}
    (hp : f n = some p) (hc : c ∈ later.children p) :
    ∃ m, f m = some c ∧ m ∈ (Outline.ofRoot root).childrenOf n := by
  obtain ⟨e, he⟩ : ∃ e, (Outline.ofRoot root)[n]? = some e := ⟨_, List.getElem?_eq_getElem (h.range hp)⟩
  cases plain : e.node.head.isPlain with
  | false =>
    rw [h.drawn.bare he hp plain] at hc
    cases hc
  | true =>
    rw [h.drawn.children he hp plain] at hc
    obtain ⟨m, hm, hc⟩ := List.mem_filterMap.mp hc
    exact ⟨m, hc, hm⟩

/-- Copies of components by their roots, and the instances that are not destroyed. -/
structure Deeds where
  /-- The node of an entry of the component. -/
  node : NodeId → Nat → Option NodeId
  definition : NodeId → DefinitionId
  alive : InstanceId → Prop

namespace Deeds

/-- The node belongs to a copy. -/
def Owned (δ : Deeds) (p : NodeId) : Prop := ∃ r n, δ.node r n = some p

/-- The outline of a copy. -/
def outline (δ : Deeds) (plan : DefinitionId → Blueprint) (r : NodeId) : Outline :=
  (plan (δ.definition r)).outline

/-- The nodes of copies are different nodes of the document. Within a copy they stand where the
component has them, if anywhere; the root stands, if anywhere, in a copy of a later definition. -/
structure Valid (plan : DefinitionId → Blueprint) (δ : Deeds) {L : Type} (d : Document L) :
    Prop where
  wellFormed : d.WellFormed
  live : ∀ {r n p}, δ.node r n = some p → d.isLive p = true
  top : ∀ {r n p}, δ.node r n = some p → δ.node r 0 = some r
  inj : ∀ {r n p r' n'}, δ.node r n = some p → δ.node r' n' = some p → r = r' ∧ n = n'
  kind : ∀ {r n p}, δ.node r n = some p → ∃ e, (δ.outline plan r)[n]? = some e ∧
    (d.node p).kind = some e.node.head.docKind
  up : ∀ {r n c q}, δ.node r n = some c → n ≠ 0 → c ∈ d.children q →
    ∃ m, n ∈ (δ.outline plan r).childrenOf m ∧ δ.node r m = some q
  seat : ∀ {r q}, δ.node r 0 = some r → r ∈ d.children q → ∃ b m, δ.node b m = some q ∧
    δ.definition r < δ.definition b ∧ (δ.outline plan b).childrenOf m ≠ []

namespace Valid

variable {plan : DefinitionId → Blueprint} {δ δ' : Deeds} {L : Type} {d later : Document L}
  {r b p q c : NodeId} {n m : Nat}

/-- The document of valid deeds is sound. -/
theorem sound (h : δ.Valid plan d) : d.Sound := h.wellFormed.toSound

/-- The entry zero of a copy is its root. -/
theorem eq_root (h : δ.Valid plan d) (hc : δ.node r 0 = some c) : c = r :=
  Option.some.inj (hc.symm.trans (h.top hc))

/-- No node inside is the root of its own tree. -/
theorem root_ne (h : δ.Valid plan d) (hb : δ.node b 0 = some b) (hn : n ≠ 0) :
    δ.node r n ≠ some b := fun hc => hn (h.inj hc hb).2

/-- A parent of a node that belongs to a copy belongs to the same copy, or to one of a later
definition if the node is a root. -/
theorem parent (h : δ.Valid plan d) (hc : δ.node r n = some c) (hq : c ∈ d.children q) :
    ∃ b m, δ.node b m = some q ∧
      (n ≠ 0 ∧ b = r ∧ n ∈ (δ.outline plan r).childrenOf m ∨
        n = 0 ∧ c = r ∧ δ.definition r < δ.definition b ∧
          (δ.outline plan b).childrenOf m ≠ []) := by
  by_cases hn : n = 0
  · subst hn
    obtain rfl := h.eq_root hc
    obtain ⟨b, m, hb, hlt, hm⟩ := h.seat hc hq
    exact ⟨b, m, hb, Or.inr ⟨rfl, rfl, hlt, hm⟩⟩
  · obtain ⟨m, hm, hb⟩ := h.up hc hn hq
    exact ⟨r, m, hb, Or.inl ⟨hn, rfl, hm⟩⟩

/-- The parent of an owned node is owned. -/
theorem owned_parent (h : δ.Valid plan d) (hc : δ.Owned c) (hq : c ∈ d.children q) :
    δ.Owned q := by
  obtain ⟨r, n, hc⟩ := hc
  obtain ⟨b, m, hb, -⟩ := h.parent hc hq
  exact ⟨b, m, hb⟩

/-- What a node that belongs to a copy is below belongs to the same copy, where it comes earlier, or to
a copy of a later definition. -/
theorem above (h : δ.Valid plan d) (hq : δ.node b m = some q) (hb : d.Below c q) :
    ∃ r n, δ.node r n = some c ∧ (δ.definition b < δ.definition r ∨ r = b ∧ n ≤ m) := by
  induction hb using Relation.ReflTransGen.head_induction_on with
  | refl => exact ⟨b, m, hq, Or.inr ⟨rfl, Nat.le_refl m⟩⟩
  | head hc _ ih =>
    obtain ⟨r, n, hr, hplace⟩ := ih
    obtain ⟨r', n', hr', hup⟩ := h.parent hr hc
    refine ⟨r', n', hr', ?_⟩
    rcases hup with ⟨-, rfl, hn⟩ | ⟨-, -, hlt, -⟩
    · have := (Outline.lt_of_mem_childrenOf hn).1
      rcases hplace with hlt | ⟨rfl, hle⟩
      · exact Or.inl hlt
      · exact Or.inr ⟨rfl, by omega⟩
    · rcases hplace with hlt' | ⟨rfl, -⟩
      · exact Or.inl (hlt'.trans hlt)
      · exact Or.inl hlt

/-- Only kinds, parents and children matter. -/
theorem same (h : δ.Valid plan d) (hs : Document.SameForest d later) (hw : later.WellFormed) :
    δ.Valid plan later where
  wellFormed := hw
  live hp := by rw [hs.isLive]; exact h.live hp
  top := h.top
  inj := h.inj
  kind hp := by
    obtain ⟨e, he, hk⟩ := h.kind hp
    exact ⟨e, he, (hs.kind _).trans hk⟩
  up hc hn hq := h.up hc hn (by rwa [hs.children] at hq)
  seat hr hq := h.seat hr (by rwa [hs.children] at hq)

/-! ## Moving nodes -/

/-- Deeds stay valid when a node is taken out of its parent. -/
theorem without (h : δ.Valid plan d) (c : NodeId) : δ.Valid plan (d.without c) where
  wellFormed := h.wellFormed.without c
  live hp := by rw [Document.isLive_without]; exact h.live hp
  top := h.top
  inj := h.inj
  kind hp := by
    obtain ⟨e, he, hk⟩ := h.kind hp
    exact ⟨e, he, (Document.kind_without _ _).trans hk⟩
  up hc hn hq := h.up hc hn (Document.children_without_subset _ _ hq)
  seat hr hq := h.seat hr (Document.children_without_subset _ _ hq)

/-- Deeds stay valid when a node is detached. -/
theorem detach (h : δ.Valid plan d) (c : NodeId) : δ.Valid plan (d.detach c) :=
  (h.without c).same (Document.sameForest_detach d c) (h.wellFormed.detach c)

/-- Deeds stay valid when a child is removed. -/
theorem remove (h : δ.Valid plan d) (q c : NodeId) : δ.Valid plan (d.remove q c) := by
  rw [Document.remove_eq]
  split
  · exact h.detach c
  · exact h

/-- The node may be put there: it is the node of a child entry, or the root of a copy of an earlier
definition. -/
def Fits (δ : Deeds) (plan : DefinitionId → Blueprint) (q c : NodeId) : Prop :=
  ∃ b m r n, δ.node b m = some q ∧ δ.node r n = some c ∧
    (n ≠ 0 ∧ b = r ∧ n ∈ (δ.outline plan r).childrenOf m ∨
      n = 0 ∧ δ.definition r < δ.definition b ∧ (δ.outline plan b).childrenOf m ≠ [])

/-- A node is never below one that may be put into it. -/
theorem not_below (h : δ.Valid plan d) (hf : Fits δ plan q c) : ¬ d.Below c q := by
  intro hb
  obtain ⟨b, m, r, n, hq, hc, hplace⟩ := hf
  obtain ⟨r', n', hc', hle⟩ := h.above hq hb
  obtain ⟨rfl, rfl⟩ := h.inj hc hc'
  rcases hplace with ⟨-, rfl, hn⟩ | ⟨-, hlt, -⟩
  · have := (Outline.lt_of_mem_childrenOf hn).1
    rcases hle with hlt | ⟨-, hle⟩
    · exact Nat.lt_irrefl _ hlt
    · omega
  · rcases hle with hlt' | ⟨rfl, -⟩
    · exact Nat.lt_asymm hlt hlt'
    · exact Nat.lt_irrefl _ hlt

/-- Deeds stay valid when a node is inserted where it fits. -/
theorem insertBefore (h : δ.Valid plan d) (hf : Fits δ plan q c) (reference : Option NodeId) :
    δ.Valid plan (d.insertBefore q c reference) := by
  have apart := h.not_below hf
  obtain ⟨b, m, r, n, hq, hc, hplace⟩ := hf
  -- Only the node that is put there has a new parent.
  have mem {p c' : NodeId} (hm : c' ∈ (d.insertBefore q c reference).children p) :
      p = q ∧ c' = c ∨ c' ∈ d.children p :=
    (Document.mem_children_insertBefore hm).imp_right fun hm =>
      Document.children_without_subset _ _ hm
  exact
    { wellFormed := h.wellFormed.insertBefore (h.live hq) (h.live hc) apart reference
      live := fun hp => by
        rw [Document.isLive_insertBefore]
        exact h.live hp
      top := h.top
      inj := h.inj
      kind := fun hp => by
        obtain ⟨e, he, hk⟩ := h.kind hp
        exact ⟨e, he, (Document.kind_insertBefore ..).trans hk⟩
      up := fun hc' hn hp => by
        rcases mem hp with ⟨rfl, rfl⟩ | hp
        · obtain ⟨rfl, rfl⟩ := h.inj hc' hc
          rcases hplace with ⟨-, rfl, hm⟩ | ⟨rfl, -⟩
          · exact ⟨m, hm, hq⟩
          · exact absurd rfl hn
        · exact h.up hc' hn hp
      seat := fun hr hp => by
        rcases mem hp with ⟨rfl, rfl⟩ | hp
        · obtain ⟨rfl, rfl⟩ := h.inj hr hc
          rcases hplace with ⟨hn, -⟩ | ⟨-, hlt, hm⟩
          · exact absurd rfl hn
          · exact ⟨b, m, hq, hlt, hm⟩
        · exact h.seat hr hp }

/-! ## Texts -/

/-- Writing the text of a node that has no entries below it changes the children of no other node. -/
theorem setText (h : δ.Valid plan d) (hp : δ.node b m = some p)
    (leaf : (δ.outline plan b).childrenOf m = []) (content : String) :
    δ.Valid plan (d.setText p content) ∧
      (∀ q, δ.Owned q → q ≠ p → (d.setText p content).children q = d.children q) ∧
        ∀ c ∈ (d.setText p content).children p, ¬ δ.Owned c := by
  have own : ∀ c ∈ d.children p, ¬ δ.Owned c := by
    rintro c hc ⟨r, n, hr⟩
    obtain ⟨b', m', hb, hplace⟩ := h.parent hr hc
    obtain ⟨rfl, rfl⟩ := h.inj hb hp
    rcases hplace with ⟨-, rfl, hm⟩ | ⟨-, -, -, hm⟩
    · rw [leaf] at hm
      cases hm
    · exact hm leaf
  have live : ∀ q, δ.Owned q → d.isLive q = true := fun _ ⟨_, _, hq⟩ => h.live hq
  have rewrites := h.wellFormed.rewrites_setText (S := δ.Owned) ⟨b, m, hp⟩ live
    (fun hc ho => h.owned_parent ho hc) own content
  have wellFormed := h.wellFormed.setText (h.live hp) content
  -- A child that belongs to a copy has stood where it stands.
  have back {q c : NodeId} (hc : δ.Owned c) (hq : c ∈ (d.setText p content).children q) :
      c ∈ d.children q := by
    have linked := wellFormed.linked hq
    rw [rewrites.parent c hc] at linked
    exact h.wellFormed.up linked
  refine ⟨?_, rewrites.children, rewrites.own⟩
  exact
    { wellFormed
      live := fun {r n q} hq => by
        have := h.live hq
        rwa [Document.isLive, ← rewrites.kind q ⟨r, n, hq⟩] at this
      top := h.top
      inj := h.inj
      kind := fun {r n q} hq => by
        obtain ⟨e, he, hk⟩ := h.kind hq
        exact ⟨e, he, (rewrites.kind q ⟨r, n, hq⟩).trans hk⟩
      up := fun hc hn hq => h.up hc hn (back ⟨_, _, hc⟩ hq)
      seat := fun hr hq => h.seat hr (back ⟨_, _, hr⟩ hq) }

/-! ## Releasing nodes -/

/-- Deeds of which some have lapsed. -/
structure Lapses (δ δ' : Deeds) : Prop where
  node : ∀ {r n p}, δ'.node r n = some p → δ.node r n = some p ∧ δ'.node r 0 = some r
  definition : δ'.definition = δ.definition

/-- Nothing need lapse. -/
theorem lapses (h : δ.Valid plan d) : Lapses δ δ := ⟨fun hq => ⟨hq, h.top hq⟩, rfl⟩

/-- When a node that belongs to no copy any more is released, and none below it belongs to one, the
others stay where they are. -/
theorem release (h : δ.Valid plan d) (lapses : Lapses δ δ') {x : NodeId} (hx : ¬ δ'.Owned x)
    (up : ∀ {q c}, c ∈ d.children q → δ'.Owned c → δ'.Owned q) :
    δ'.Valid plan (d.release x) ∧ ∀ q, δ'.Owned q →
      (d.release x).children q = (if d.isLive x then d.without x else d).children q := by
  have node {q : NodeId} (hq : δ'.Owned q) :
      (d.release x).node q = (if d.isLive x then d.without x else d).node q :=
    Document.node_release (Document.not_below_of_up up hx hq)
  have kind {q : NodeId} (hq : δ'.Owned q) : ((d.release x).node q).kind = (d.node q).kind := by
    rw [node hq]
    split
    · exact Document.kind_without x q
    · rfl
  have subset (q : NodeId) := Document.children_release_subset (d := d) x q
  have outline : δ'.outline plan = δ.outline plan := by
    funext r
    rw [Deeds.outline, Deeds.outline, lapses.definition]
  refine ⟨?_, fun q hq => by rw [Document.children, node hq]; rfl⟩
  exact
    { wellFormed := h.wellFormed.release x
      live := fun {r n q} hq => by
        have := h.live (lapses.node hq).1
        rwa [Document.isLive, ← kind ⟨r, n, hq⟩] at this
      top := fun hq => (lapses.node hq).2
      inj := fun hq hq' => h.inj (lapses.node hq).1 (lapses.node hq').1
      kind := fun {r n q} hq => by
        obtain ⟨e, he, hk⟩ := h.kind (lapses.node hq).1
        exact ⟨e, outline ▸ he, (kind ⟨r, n, hq⟩).trans hk⟩
      up := fun {r n c q} hc hn hq => by
        obtain ⟨m, hm, hb⟩ := h.up (lapses.node hc).1 hn (subset q hq)
        obtain ⟨b, m', hb'⟩ := up (subset q hq) ⟨r, n, hc⟩
        obtain ⟨rfl, rfl⟩ := h.inj hb (lapses.node hb').1
        exact ⟨m, outline ▸ hm, hb'⟩
      seat := fun {r q} hr hq => by
        obtain ⟨b, m, hb, hlt, hm⟩ := h.seat (lapses.node hr).1 (subset q hq)
        obtain ⟨b', m', hb'⟩ := up (subset q hq) ⟨r, 0, hr⟩
        obtain ⟨rfl, rfl⟩ := h.inj hb (lapses.node hb').1
        exact ⟨b, m, hb', lapses.definition ▸ hlt, outline ▸ hm⟩ }

end Valid

/-! ## New copies -/

/-- The deeds with those of a new copy, in which child components have no nodes of their own. -/
def grant (δ : Deeds) (plan : DefinitionId → Blueprint) (r : NodeId) (id : DefinitionId)
    (f : Nat → Option NodeId) : Deeds where
  node r' n := if r' = r then
      if ((plan id).layout.keyOf n).isSome then none else f n
    else δ.node r' n
  definition r' := if r' = r then id else δ.definition r'
  alive := δ.alive

section Grant

variable {plan : DefinitionId → Blueprint} {δ : Deeds} {L : Type} {d later : Document L}
  {r : NodeId} {id : DefinitionId} {f : Nat → Option NodeId}

/-- A new deed has the nodes it was granted, but for those of components. -/
theorem node_grant_self (n : Nat) : (δ.grant plan r id f).node r n =
    if ((plan id).layout.keyOf n).isSome then none else f n := if_pos rfl

/-- A new deed leaves the nodes of the others alone. -/
theorem node_grant_of_ne {r' : NodeId} (hr : r' ≠ r) :
    (δ.grant plan r id f).node r' = δ.node r' := funext fun _ => if_neg hr

/-- A new deed is one of its definition. -/
theorem definition_grant_self : (δ.grant plan r id f).definition r = id := if_pos rfl

/-- A new deed leaves the definitions of the others alone. -/
theorem definition_grant_of_ne {r' : NodeId} (hr : r' ≠ r) :
    (δ.grant plan r id f).definition r' = δ.definition r' := if_neg hr

/-- A new deed leaves the outlines of the others alone. -/
theorem outline_grant_of_ne {r' : NodeId} (hr : r' ≠ r) :
    (δ.grant plan r id f).outline plan r' = δ.outline plan r' := by
  rw [outline, outline, definition_grant_of_ne hr]

/-- The nodes of a new copy have had no owner. -/
theorem Valid.not_owned (h : δ.Valid plan d) (adds : Document.Adds d later f) {n : Nat} {c : NodeId}
    (hc : f n = some c) : ¬ δ.Owned c := by
  rintro ⟨r', n', hr⟩
  have := adds.dead hc
  rw [h.live hr] at this
  cases this

/-- A new copy has no deeds yet. -/
theorem Valid.node_fresh (h : δ.Valid plan d) (adds : Document.Adds d later f)
    (hr : f 0 = some r) (n : Nat) : δ.node r n = none := by
  cases hp : δ.node r n with
  | none => rfl
  | some p => exact absurd ⟨r, 0, h.top hp⟩ (h.not_owned adds hr)

/-- A node that belongs to a copy belongs to the new one, or did so before. -/
theorem of_node_grant {r' p : NodeId} {n : Nat} (hp : (δ.grant plan r id f).node r' n = some p) :
    r' = r ∧ f n = some p ∨ r' ≠ r ∧ δ.node r' n = some p := by
  by_cases hne : r' = r
  · subst hne
    rw [node_grant_self] at hp
    split at hp
    · cases hp
    · exact Or.inl ⟨rfl, hp⟩
  · rw [node_grant_of_ne hne] at hp
    exact Or.inr ⟨hne, hp⟩

section Copy

variable {root : Node} (h : δ.Valid plan d) (copy : Document.CopyOf root d later r f)

include h copy

/-- What belonged to a copy before is as it was. -/
theorem Valid.node_copy {p : NodeId} (hp : δ.Owned p) : later.node p = d.node p :=
  copy.adds.node p fun _ hk => h.not_owned copy.adds hk hp

/-- It has the parent that it had, if any. -/
theorem Valid.children_of_owned (hw : later.WellFormed) {c q : NodeId} (hc : δ.Owned c)
    (hq : c ∈ later.children q) : c ∈ d.children q := by
  have linked := hw.linked hq
  rw [Document.parent?, h.node_copy copy hc] at linked
  exact h.wellFormed.up linked

/-- A node of the copy stands in the copy. -/
theorem Valid.parent_of_copy {n : Nat} {c q : NodeId} (hc : f n = some c)
    (hq : c ∈ later.children q) : ∃ m, f m = some q ∧ n ∈ (Outline.ofRoot root).childrenOf m := by
  by_cases hm : ∃ m, f m = some q
  · obtain ⟨m, hm⟩ := hm
    obtain ⟨n', hn, hc'⟩ := copy.mem_children hm hq
    exact ⟨m, hm, copy.adds.inj hc hn ▸ hc'⟩
  · rw [Document.children, copy.adds.node q (not_exists.mp hm)] at hq
    have dead := copy.adds.dead hc
    rw [h.wellFormed.live hq] at dead
    cases dead

end Copy

/-- Deeds are valid with those of a new copy. -/
theorem Valid.grant (h : δ.Valid plan d) (copy : Document.CopyOf (plan id).root d later r f)
    (hw : later.WellFormed) {t : Template} (draws : (plan id).Draws t) :
    (δ.grant plan r id f).Valid plan later where
  wellFormed := hw
  live {r' n p} hp := by
    rcases of_node_grant hp with ⟨-, new⟩ | ⟨-, old⟩
    · exact copy.adds.live new
    · rw [Document.isLive, h.node_copy copy ⟨r', n, old⟩]
      exact h.live old
  top {r' n p} hp := by
    rcases of_node_grant hp with ⟨rfl, -⟩ | ⟨hne, old⟩
    · rw [node_grant_self, draws.keyOf_top]
      exact copy.top
    · rw [node_grant_of_ne hne]
      exact h.top old
  inj {r₁ n₁ p r₂ n₂} h₁ h₂ := by
    rcases of_node_grant h₁ with ⟨he₁, new₁⟩ | ⟨-, old₁⟩ <;>
      rcases of_node_grant h₂ with ⟨he₂, new₂⟩ | ⟨-, old₂⟩
    · exact ⟨he₁.trans he₂.symm, copy.adds.inj new₁ new₂⟩
    · exact absurd ⟨r₂, n₂, old₂⟩ (h.not_owned copy.adds new₁)
    · exact absurd ⟨r₁, n₁, old₁⟩ (h.not_owned copy.adds new₂)
    · exact h.inj old₁ old₂
  kind {r' n p} hp := by
    rcases of_node_grant hp with ⟨rfl, new⟩ | ⟨hne, old⟩
    · have he := List.getElem?_eq_getElem (copy.range new)
      rw [outline, definition_grant_self]
      exact ⟨_, he, (copy.drawn.shown he new).kind⟩
    · rw [outline_grant_of_ne hne, h.node_copy copy ⟨r', n, old⟩]
      exact h.kind old
  up {r' n c q} hc hn hq := by
    rcases of_node_grant hc with ⟨rfl, new⟩ | ⟨hne, old⟩
    · obtain ⟨m, hm, hc'⟩ := h.parent_of_copy copy new hq
      refine ⟨m, by rwa [outline, definition_grant_self], ?_⟩
      rw [node_grant_self, draws.keyOf_parent hc']
      exact hm
    · rw [outline_grant_of_ne hne, node_grant_of_ne hne]
      exact h.up old hn (h.children_of_owned copy hw ⟨r', n, old⟩ hq)
  seat {r' q} hr' hq := by
    rcases of_node_grant hr' with ⟨rfl, -⟩ | ⟨hne, old⟩
    · -- The root of the copy stands nowhere.
      have linked := hw.linked hq
      rw [copy.orphan] at linked
      cases linked
    · obtain ⟨b, m, hb, hlt, hm⟩ := h.seat old (h.children_of_owned copy hw ⟨r', 0, old⟩ hq)
      have hbr : b ≠ r := fun he => by
        rw [he, h.node_fresh copy.adds copy.top] at hb
        cases hb
      refine ⟨b, m, by rwa [node_grant_of_ne hbr], ?_, by rwa [outline_grant_of_ne hbr]⟩
      rwa [definition_grant_of_ne hne, definition_grant_of_ne hbr]

end Grant

end Deeds

end ComponentView
