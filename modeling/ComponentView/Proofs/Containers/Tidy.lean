import ComponentView.Proofs.Containers.Deeds

/-! # Tidy worlds

In a tidy world every instance that is at rest shows what its stash says: the children of an element
of its component are what its child entries show, in order (`Blueprint.Shows`). The roots of what it
holds stand in its own nodes, if anywhere. While an instance is held it may be in the middle of
something, and so may a copy of which no instance has been made yet; such a copy is a host. What an
operation has to respect besides is written down as a `Reserve`. -/

namespace ComponentView

/-- The root of an instance. -/
def World.root (w : World) (i : InstanceId) : NodeId := (w.root? i).getD 0

/-- The root of an instance that exists is its own. -/
theorem World.root_of_get {w : World} {i : InstanceId} {inst : Instance}
    (h : w.instances[i]? = some inst) : w.root i = inst.root := by
  rw [root, root?, h]
  rfl

/-- The root of an instance is what the world says, or the run is given up. -/
theorem Ends.rootOf_eq {w : World} {i : InstanceId} {E : Stop → World → Prop}
    (given : ∀ cause v, E (.abort cause) v) :
    Ends (w = ·) (Run.rootOf i) (fun root v => root = w.root i ∧ w = v) E := by
  refine (Ends.rootOf (fun _ _ => given _ _) fun _ _ => given _ _).post fun root v h => ?_
  obtain ⟨hroot, -, rfl⟩ := h
  exact ⟨by rw [World.root, World.root?, hroot]; rfl, rfl⟩

/-- Only the instances matter for their roots. -/
theorem World.root_congr {w later : World} (instances : later.instances = w.instances) :
    later.root = w.root := by
  funext i
  rw [root, root, root?, root?, instances]

section Modify

variable (w : World) (i : InstanceId) {g : Instance → Instance}

/-- A change to an instance that keeps its root keeps everybody's. -/
theorem World.root_modify (hg : ∀ inst, (g inst).root = inst.root) :
    World.root { w with instances := w.instances.modify i g } = w.root := by
  funext j
  simp only [root, root?, Array.getElem?_modify]
  split
  · cases w.instances[j]? <;> simp [hg]
  · rfl

end Modify

/-! ## What an instance shows -/

namespace Blueprint

/-- The nodes of an instance show its stash: every slot has the node that stands for its entry; the
children of an element that none of them leaves are what its child entries show, in order; and the
roots of what an entry of the stash holds are, among the nodes of the instance, only below the one
that it stands in. -/
structure Shows (B : Blueprint) (node : Nat → Option NodeId) (root : InstanceId → NodeId)
    (children : NodeId → List NodeId) (elements : List NodeId) (stash : List StashItem) : Prop where
  slots : ∀ {slot n : Nat}, B.layout.Owns slot n →
    ∃ x, elements[slot]? = some x ∧ B.cell node root stash n = [x]
  contents : ∀ {n : Nat} {p : NodeId}, B.Regular n → node n = some p →
    children p = (B.outline.childrenOf n).flatMap (B.cell node root stash)
  /-- A child of such an element that no child component stands for has a node. -/
  whole : ∀ {n m : Nat} {p : NodeId}, B.Regular n → node n = some p →
    m ∈ B.outline.childrenOf n → B.layout.keyOf m = none → (node m).isSome
  seats : ∀ {key m n n' : Nat} {item : StashItem} {k : InstanceId} {q : NodeId},
    stash[key]? = some item → B.layout.Seats key m → m ∈ B.outline.childrenOf n → k ∈ item.held →
      node n' = some q → root k ∈ children q → n' = n
  even : ∀ item ∈ stash, item.Even
  full : ∀ {key : Nat}, key < B.layout.stash.length → ∃ item, stash[key]? = some item
  plans : ∀ {key : Nat} {item : StashItem} {plan : StashPlan}, stash[key]? = some item →
    B.layout.stash[key]? = some plan → item.kind = plan.kind ∧ item.anchors = plan.anchors

/-- What is below other nodes than the elements that count does not matter, as long as nothing that is
held comes there. -/
theorem Shows.rewrite {B : Blueprint} {node : Nat → Option NodeId} {root root' : InstanceId → NodeId}
    {children children' : NodeId → List NodeId} {elements : List NodeId} {stash : List StashItem}
    (h : B.Shows node root children elements stash)
    (same : ∀ {n p}, B.Regular n → node n = some p → children' p = children p)
    (seats : ∀ {key m n n' : Nat} {item : StashItem} {k : InstanceId} {q : NodeId},
      stash[key]? = some item → B.layout.Seats key m → m ∈ B.outline.childrenOf n →
        k ∈ item.held → node n' = some q → root k ∈ children' q → root k ∈ children q ∨ n' = n)
    (roots : ∀ k ∈ stash.flatMap StashItem.held, root' k = root k) :
    B.Shows node root' children' elements stash := by
  have held {key : StashIndex} {item : StashItem} (hs : stash[key]? = some item) {k : InstanceId}
      (hk : k ∈ item.held) : root' k = root k :=
    roots k (StashItem.mem_held hs hk)
  have cell : B.cell node root' stash = B.cell node root stash := cell_roots h.even roots
  refine
    { slots := fun owns => ?_, contents := fun regular hp => ?_, whole := h.whole
      seats := fun hs hm hn hk hq hc => ?_, even := h.even, full := h.full, plans := h.plans }
  · rw [cell]
    exact h.slots owns
  · rw [same regular hp, h.contents regular hp, cell]
  · rw [held hs hk] at hc
    exact (seats hs hm hn hk hq hc).elim (h.seats hs hm hn hk hq) id

/-- Only the own nodes matter and the roots of what is held. -/
theorem Shows.congr {B : Blueprint} {node : Nat → Option NodeId} {root root' : InstanceId → NodeId}
    {children children' : NodeId → List NodeId} {elements : List NodeId} {stash : List StashItem}
    (h : B.Shows node root children elements stash)
    (same : ∀ {n p}, node n = some p → children' p = children p)
    (roots : ∀ k ∈ stash.flatMap StashItem.held, root' k = root k) :
    B.Shows node root' children' elements stash :=
  h.rewrite (fun _ hp => same hp) (fun _ _ _ _ hq hc => Or.inl (same hq ▸ hc)) roots

/-- An entry of the stash changes, and with it what the instance shows. -/
theorem Shows.put {B : Blueprint} {t : Template} (draws : B.Draws t)
    {node : Nat → Option NodeId} {root root' : InstanceId → NodeId}
    {children children' : NodeId → List NodeId} {elements : List NodeId}
    {stash : List StashItem} {key : StashIndex} {item item' : StashItem}
    (h : B.Shows node root children elements stash) (hs : stash[key]? = some item)
    (kind : item'.kind = item.kind) (anchors : item'.anchors = item.anchors) (even : item'.Even)
    (child : item.kind = .child → item' = item)
    (roots : ∀ i ∈ stash.flatMap StashItem.held, root' i = root i)
    (contents : ∀ {n p}, B.Regular n → node n = some p →
      children' p = (B.outline.childrenOf n).flatMap (B.cell node root' (stash.set key item')))
    (seats : ∀ {m n n' i q}, B.layout.Seats key m → m ∈ B.outline.childrenOf n → i ∈ item'.held →
      node n' = some q → root' i ∈ children' q → n' = n)
    (fewer : ∀ {k other i n q}, k ≠ key → stash[k]? = some other → i ∈ other.held →
      node n = some q → root i ∈ children' q → root i ∈ children q) :
    B.Shows node root' children' elements (stash.set key item') := by
  have new : (stash.set key item')[key]? = some item' :=
    List.getElem?_set_self (List.getElem?_eq_some_iff.mp hs).1
  have others {k : StashIndex} (hk : k ≠ key) : (stash.set key item')[k]? = stash[k]? :=
    List.getElem?_set_ne (Ne.symm hk)
  -- Every entry of the new stash is the new one or was there before.
  have cases {k : StashIndex} {other : StashItem} (hk : (stash.set key item')[k]? = some other) :
      k = key ∧ other = item' ∨ k ≠ key ∧ stash[k]? = some other := by
    by_cases he : k = key
    · subst he
      exact Or.inl ⟨rfl, Option.some.inj (hk.symm.trans new)⟩
    · exact Or.inr ⟨he, others he ▸ hk⟩
  refine
    { slots := fun {slot n} owns => ?_, contents, whole := h.whole
      seats := fun {k m n n' other i q} hk hm hn hi hq hc => ?_, even := fun other hm => ?_
      full := fun {k} hk => ?_, plans := fun {k other plan} hk hp => ?_ }
  · obtain ⟨x, hx, hc⟩ := h.slots owns
    refine ⟨x, hx, hc ▸ ?_⟩
    rw [← cell_roots h.even roots]
    by_cases hk : B.layout.keyOf n = some key
    · obtain ⟨slot', source, b, plan⟩ := draws.child_of_owns owns hk
      rw [child (h.plans hs plan).1, StashItem.set_self hs]
    · exact cell_set hk
  · rcases cases hk with ⟨rfl, rfl⟩ | ⟨he, hk⟩
    · exact seats hm hn hi hq hc
    · rw [roots i (StashItem.mem_held hk hi)] at hc
      exact h.seats hk hm hn hi hq (fewer he hk hi hq hc)
  · rcases List.mem_or_eq_of_mem_set hm with hm | rfl
    · exact h.even other hm
    · exact even
  · by_cases he : k = key
    · exact ⟨item', he ▸ new⟩
    · rw [others he]
      exact h.full hk
  · rcases cases hk with ⟨rfl, rfl⟩ | ⟨-, hk⟩
    · rw [kind, anchors]
      exact h.plans hs hp
    · exact h.plans hk hp

/-- At a slot there is a node of the instance, or the root of something that its stash holds. -/
theorem Shows.whose {B : Blueprint} {node : Nat → Option NodeId} {root : InstanceId → NodeId}
    {children : NodeId → List NodeId} {elements : List NodeId} {stash : List StashItem}
    (h : B.Shows node root children elements stash) {slot n : Nat} (owns : B.layout.Owns slot n) :
    ∃ x, elements[slot]? = some x ∧
      ((∃ n, node n = some x) ∨ ∃ k ∈ stash.flatMap StashItem.held, root k = x) := by
  obtain ⟨x, hx, hc⟩ := h.slots owns
  refine ⟨x, hx, ?_⟩
  have mem : x ∈ B.cell node root stash n := hc ▸ List.mem_singleton_self x
  unfold cell at mem
  split at mem
  · next item hi =>
    obtain ⟨key, -, hs⟩ := Option.bind_eq_some_iff.mp hi
    have hs := List.mem_of_getElem? hs
    obtain ⟨k, hk, rfl⟩ := List.mem_map.mp mem
    exact Or.inr ⟨k, List.mem_flatMap.mpr ⟨item, hs, StashItem.shown_subset (h.even item hs) hk⟩, rfl⟩
  · exact Or.inl ⟨n, by simpa using mem⟩

end Blueprint

/-- Different entries of a stash hold different instances. -/
theorem StashItem.eq_of_held {stash : List StashItem}
    (nodup : (stash.flatMap StashItem.held).Nodup) {k k' : StashIndex} {item item' : StashItem}
    (hk : stash[k]? = some item) (hk' : stash[k']? = some item') {i : InstanceId}
    (hi : i ∈ item.held) (hi' : i ∈ item'.held) : k = k' := by
  obtain ⟨hlt, rfl⟩ := List.getElem?_eq_some_iff.mp hk
  obtain ⟨hlt', rfl⟩ := List.getElem?_eq_some_iff.mp hk'
  have apart := List.pairwise_iff_getElem.mp (List.nodup_flatMap.mp nodup).2
  by_contra hne
  rcases Nat.lt_or_gt_of_ne hne with hlt'' | hlt''
  · exact apart k k' hlt hlt' hlt'' hi hi'
  · exact apart k' k hlt' hlt hlt'' hi' hi

/-! ## Tidy worlds -/

/-- What an operation has to respect: the instances there are, with their roots, their definitions and
their nodes; the copies that are hosts at the moment, and which instances may stand in each of them;
the nodes of hosts of which the children stay as they are; and who is not to be destroyed. -/
structure Reserve where
  library : Library
  plan : DefinitionId → Blueprint
  /-- The number of instances. -/
  known : Nat
  root : InstanceId → NodeId
  definition : InstanceId → Option DefinitionId
  deeds : Deeds
  host : NodeId → Prop
  lodges : NodeId → InstanceId → Prop
  still : NodeId → Prop
  children : NodeId → List NodeId
  /-- The held instances that are not to be destroyed. -/
  spared : InstanceId → Prop

/-- The world respects the reserve: the instances that it knows have kept their roots, definitions and
nodes, hosts have kept theirs, and the nodes that were to stay as they are have. -/
structure World.Respects (L : Reserve) (δ : Deeds) (w : World) : Prop where
  known : L.known ≤ w.instances.size
  roots : ∀ i < L.known, w.root i = L.root i
  defined : ∀ i < L.known, w.definition? i = L.definition i
  same : ∀ {i}, δ.alive i → i < L.known → L.deeds.alive i ∧
    δ.node (w.root i) = L.deeds.node (w.root i)
  hosts : ∀ {r}, L.host r → δ.node r = L.deeds.node r ∧ δ.definition r = L.deeds.definition r
  still : ∀ {r n q}, L.host r → δ.node r n = some q → L.still q →
    w.document.children q = L.children q

/-- Deeds are valid, and every instance that is at rest shows its stash. What stands in a node of a
host is in hand. -/
structure World.Tidy (L : Reserve) (δ : Deeds) (busy lost hand : List InstanceId) (w : World) :
    Prop extends World.Respects L δ w where
  orderly : w.Orderly (.plain L.library) busy (lost ++ hand)
  valid : δ.Valid L.plan w.document
  owner : ∀ {i}, δ.alive i → ∃ inst, w.instances[i]? = some inst ∧
    δ.node inst.root 0 = some inst.root ∧ δ.definition inst.root = inst.definition
  apart : ∀ {i j}, δ.alive i → δ.alive j → w.root i = w.root j → i = j
  host : ∀ {i}, δ.alive i → (L.host (w.root i) ↔ i ∈ busy)
  ready : ∀ i ∈ busy, i ∈ lost ++ hand ∨ L.spared i
  spared : ∀ {i}, L.spared i → i ∈ busy ∧ δ.alive i
  inHand : ∀ i ∈ hand, δ.alive i
  pooled : ∀ {id i}, i ∈ w.pool id → δ.alive i
  shows : ∀ {i inst}, δ.alive i → i ∉ busy → w.instances[i]? = some inst →
    (L.plan inst.definition).Shows (δ.node inst.root) w.root w.document.children inst.elements
      inst.stash ∧ ∀ k ∈ inst.held, δ.alive k
  seat : ∀ {r q b m}, r ∈ w.document.children q → δ.node r 0 = some r → δ.node b m = some q →
    ∃ k, δ.alive k ∧ w.root k = r ∧ (L.host b ∧ k ∈ hand ∧ L.lodges b k ∨
      ∃ j inst, δ.alive j ∧ j ∉ busy ∧ w.instances[j]? = some inst ∧ inst.root = b ∧
        k ∈ inst.held)
  rooted : ∀ {r}, L.host r → δ.node r 0 = some r
  draws : ∀ {id d}, L.library[id]? = some d → (L.plan id).Draws d.template

/-- The world is tidy, whatever the deeds are. -/
def World.Neat (L : Reserve) (busy lost hand : List InstanceId) (w : World) : Prop :=
  ∃ δ, w.Tidy L δ busy lost hand

namespace World

variable {L : Reserve} {δ δ' : Deeds} {busy lost hand : List InstanceId} {w later : World}
  {i k : InstanceId} {q : NodeId}

/-- The reserve is respected still when the instances that there are keep what is known of them, the
hosts keep their nodes, and the nodes that are to stay as they are keep their children. -/
theorem Respects.after (h : w.Respects L δ) (size : w.instances.size ≤ later.instances.size)
    (roots : ∀ j < w.instances.size, later.root j = w.root j)
    (defined : ∀ j < w.instances.size, later.definition? j = w.definition? j)
    (same : ∀ {j}, δ'.alive j → j < L.known →
      δ.alive j ∧ δ'.node (later.root j) = δ.node (later.root j))
    (hosts : ∀ {r}, L.host r → δ'.node r = δ.node r ∧ δ'.definition r = δ.definition r)
    (still : ∀ {r n q}, L.host r → δ.node r n = some q → L.still q →
      later.document.children q = w.document.children q) : later.Respects L δ' where
  known := Nat.le_trans h.known size
  roots j hj := (roots j (Nat.lt_of_lt_of_le hj h.known)).trans (h.roots j hj)
  defined j hj := (defined j (Nat.lt_of_lt_of_le hj h.known)).trans (h.defined j hj)
  same {j} alive hj := by
    obtain ⟨alive, node⟩ := same alive hj
    obtain ⟨before, node'⟩ := h.same alive hj
    rw [← roots j (Nat.lt_of_lt_of_le hj h.known)] at node'
    exact ⟨before, node.trans node'⟩
  hosts host := ⟨(hosts host).1.trans (h.hosts host).1, (hosts host).2.trans (h.hosts host).2⟩
  still {r n q} host hq hs := by
    rw [(hosts host).1] at hq
    exact (still host hq hs).trans (h.still host hq hs)

/-- So it is when nothing changes but other nodes and what an instance has besides its root and its
definition. -/
theorem Respects.keep (h : w.Respects L δ) (size : w.instances.size ≤ later.instances.size)
    (root : later.root = w.root) (definition : later.definition? = w.definition?)
    (still : ∀ {r n q}, L.host r → δ.node r n = some q → L.still q →
      later.document.children q = w.document.children q) : later.Respects L δ :=
  h.after size (fun j _ => congrFun root j) (fun j _ => congrFun definition j)
    (fun alive _ => ⟨alive, rfl⟩) (fun _ => ⟨rfl, rfl⟩) still

namespace Tidy

/-- An instance that is not destroyed has its root. -/
theorem node_root (h : w.Tidy L δ busy lost hand) (hi : δ.alive i) :
    δ.node (w.root i) 0 = some (w.root i) := by
  obtain ⟨inst, hinst, root, -⟩ := h.owner hi
  rwa [root_of_get hinst]

/-- The deed of an instance that is alive is of its definition. -/
theorem definition_root (h : w.Tidy L δ busy lost hand) (hi : δ.alive i) :
    w.definition? i = some (δ.definition (w.root i)) := by
  obtain ⟨inst, hinst, -, hd⟩ := h.owner hi
  rw [root_of_get hinst, hd, definition?_of_get hinst]

/-- The deed of an instance that exists is of its definition. -/
theorem definition_of_get (h : w.Tidy L δ busy lost hand) (hi : δ.alive i) {inst : Instance}
    (hinst : w.instances[i]? = some inst) : δ.definition inst.root = inst.definition := by
  obtain ⟨inst', hinst', -, hd⟩ := h.owner hi
  exact Option.some.inj (hinst'.symm.trans hinst) ▸ hd

/-- An instance in hand stands, if anywhere, in a host. -/
theorem seat_of_hand (h : w.Tidy L δ busy lost hand) (hk : k ∈ hand)
    (hq : w.root k ∈ w.document.children q) :
    ∃ b m, δ.node b m = some q ∧ L.host b ∧ L.lodges b k := by
  have alive := h.inHand k hk
  obtain ⟨b, m, hb, -⟩ := h.valid.seat (h.node_root alive) hq
  obtain ⟨k', alive', root, place⟩ := h.seat hq (h.node_root alive) hb
  obtain rfl := h.apart alive' alive root
  refine ⟨b, m, hb, ?_⟩
  rcases place with ⟨host, -, lodges⟩ | ⟨j, inst, -, hj, hinst, -, hheld⟩
  · exact ⟨host, lodges⟩
  · have hj : k' ∈ w.placed (lost ++ hand) (.stash j) := by
      rw [mem_placed_stash (h.orderly.busy_eq ▸ hj) hinst]
      exact hheld
    have := h.orderly.spread.apart (q := .hand) hj (List.mem_append_right _ hk)
    cases this

/-- What is in a pool or is held by an instance at rest stands in no host. -/
theorem not_lodged (h : w.Tidy L δ busy lost hand) {p : Place} (hp : p ≠ .hand) (alive : δ.alive k)
    (hk : k ∈ w.placed (lost ++ hand) p) {b : NodeId} {m : Nat} (host : L.host b)
    (hb : δ.node b m = some q) : w.root k ∉ w.document.children q := by
  intro hq
  obtain ⟨k', alive', root, place⟩ := h.seat hq (h.node_root alive) hb
  obtain rfl := h.apart alive' alive root
  rcases place with ⟨-, hin, -⟩ | ⟨j, inst, hj, hbusy, hinst, rfl, -⟩
  · exact hp (h.orderly.spread.apart (q := .hand) hk (List.mem_append_right _ hin))
  · rw [← root_of_get hinst, h.host hj] at host
    exact hbusy host

/-- Only the document, the instances, the pools and the list of held instances matter. -/
theorem congr (h : w.Tidy L δ busy lost hand) (document : later.document = w.document)
    (instances : later.instances = w.instances) (pools : later.pools = w.pools)
    (held : later.busy = w.busy) : later.Tidy L δ busy lost hand := by
  have root := root_congr instances
  have definition := definition?_congr instances
  exact
    { h.keep (by rw [instances]) root definition fun _ _ _ => by rw [document] with
      orderly := h.orderly.congr instances pools held
      valid := document ▸ h.valid
      owner := instances ▸ h.owner
      apart := root ▸ h.apart
      host := root ▸ h.host
      ready := h.ready
      spared := h.spared
      inHand := h.inHand
      pooled := fun hi => h.pooled (by rwa [World.pool, pools] at hi)
      shows := by rw [root, document, instances]; exact h.shows
      seat := by rw [root, document, instances]; exact h.seat
      rooted := h.rooted
      draws := h.draws }

/-- What is in hand may be put in another order. -/
theorem perm (h : w.Tidy L δ busy lost hand) {other : List InstanceId} (hp : other.Perm hand) :
    w.Tidy L δ busy lost other :=
  { h with
    orderly := h.orderly.perm (hp.append_left lost)
    ready := fun i hi => (h.ready i hi).imp_left (hp.append_left lost).mem_iff.mpr
    inHand := fun i hi => h.inHand i (hp.mem_iff.mp hi)
    seat := fun hq hr hb => by
      obtain ⟨k, alive, root, place⟩ := h.seat hq hr hb
      exact ⟨k, alive, root, place.imp (fun ⟨host, hk, lodges⟩ =>
        ⟨host, hp.mem_iff.mpr hk, lodges⟩) id⟩ }

/-- So may what is lost. -/
theorem permLost (h : w.Tidy L δ busy lost hand) {other : List InstanceId}
    (hp : other.Perm lost) : w.Tidy L δ busy other hand :=
  { h with
    orderly := h.orderly.perm (hp.append_right hand)
    ready := fun i hi => (h.ready i hi).imp_left (hp.append_right hand).mem_iff.mpr }

/-- An instance that stands in no host is lost. -/
theorem lose (h : w.Tidy L δ busy lost (k :: hand))
    (hk : ∀ b m q, L.host b → δ.node b m = some q → w.root k ∉ w.document.children q) :
    w.Tidy L δ busy (k :: lost) hand :=
  { h with
    orderly := h.orderly.perm (by rw [List.cons_append]; exact List.perm_middle.symm)
    ready := fun i hi => (h.ready i hi).imp_left fun hm => by
      simp only [List.mem_append, List.mem_cons] at hm ⊢
      tauto
    inHand := fun i hi => h.inHand i (List.mem_cons_of_mem _ hi)
    seat := fun {r q b m} hq hr hb => by
      obtain ⟨k', alive, root, place⟩ := h.seat hq hr hb
      refine ⟨k', alive, root, place.imp (fun ⟨host, hk', lodges⟩ => ⟨host, ?_, lodges⟩) id⟩
      refine (List.mem_cons.mp hk').resolve_left fun he => ?_
      exact hk b m q host hb (he ▸ root ▸ hq) }

/-- An instance that is lost and not held is forgotten. -/
theorem forget (h : w.Tidy L δ busy (k :: lost) hand) (hk : k ∉ busy) :
    w.Tidy L δ busy lost hand :=
  { h with
    orderly := Orderly.of_cons (by simpa using h.orderly)
    ready := fun i hi => (h.ready i hi).imp_left fun hm => by
      rw [List.cons_append, List.mem_cons] at hm
      exact hm.resolve_left fun he => hk (he ▸ hi) }

/-- Nothing is in hand twice. -/
theorem nodup_hand (h : w.Tidy L δ busy lost hand) : hand.Nodup :=
  (List.nodup_append.mp (h.orderly.spread.nodup .hand)).2.1

/-! ## Changing the document -/

/-- Changes in the nodes of hosts leave the world tidy. -/
theorem edit (h : w.Tidy L δ busy lost hand) {d : Document Listener} (valid : δ.Valid L.plan d)
    (others : ∀ {b m q}, ¬ L.host b → δ.node b m = some q →
      d.children q = w.document.children q)
    (seat : ∀ {r q b m}, r ∈ d.children q → δ.node r 0 = some r → L.host b →
      δ.node b m = some q → r ∈ w.document.children q ∨
        ∃ k ∈ hand, w.root k = r ∧ L.lodges b k)
    (still : ∀ {b m q}, L.host b → δ.node b m = some q → L.still q →
      d.children q = w.document.children q) :
    World.Tidy L δ busy lost hand { w with document := d } :=
  { h with
    orderly := h.orderly.congr rfl rfl rfl
    valid := valid
    shows := fun {i inst} alive hb hi => by
      obtain ⟨shows, held⟩ := h.shows alive hb hi
      refine ⟨shows.congr (fun hp => others (fun host => hb ?_) hp) fun _ _ => rfl, held⟩
      exact (h.host alive).mp (root_of_get (w := w) hi ▸ host)
    seat := fun {r q b m} hq hr hb => by
      by_cases host : L.host b
      · rcases seat hq hr host hb with hq | ⟨k, hk, root, lodges⟩
        · exact h.seat hq hr hb
        · exact ⟨k, h.inHand k hk, root, Or.inl ⟨host, hk, lodges⟩⟩
      · rw [others host hb] at hq
        exact h.seat hq hr hb
    toRespects := h.keep (Nat.le_refl _) rfl rfl still }

/-- So do changes in one node of a host, in which something that is in hand may come to stand. -/
theorem editIn (h : w.Tidy L δ busy lost hand) {d : Document Listener} (valid : δ.Valid L.plan d)
    {r p : NodeId} {n : Nat} (host : L.host r) (hp : δ.node r n = some p) (free : ¬ L.still p)
    (others : ∀ {b m q}, δ.node b m = some q → q ≠ p → d.children q = w.document.children q)
    (seat : ∀ c ∈ d.children p, δ.node c 0 = some c → c ∈ w.document.children p ∨
      ∃ k ∈ hand, w.root k = c ∧ L.lodges r k) :
    World.Tidy L δ busy lost hand { w with document := d } := by
  refine h.edit valid (fun {b m q} hb hq => others hq ?_) (fun {c q b m} hc hr _ hq => ?_)
    fun {b m q} _ hq hs => others hq ?_
  · rintro rfl
    exact hb ((h.valid.inj hp hq).1 ▸ host)
  · by_cases he : q = p
    · subst he
      obtain rfl := (h.valid.inj hp hq).1
      exact seat c hc hr
    · exact Or.inl (others hq he ▸ hc)
  · rintro rfl
    exact free hs

/-- Changes that move no node leave the world tidy. -/
theorem sameForest (h : w.Tidy L δ busy lost hand) {d : Document Listener}
    (hs : Document.SameForest w.document d) (hw : d.WellFormed) :
    World.Tidy L δ busy lost hand { w with document := d } :=
  h.edit (h.valid.same hs hw) (fun _ _ => hs.children _)
    (fun hq _ _ _ => Or.inl (by rwa [hs.children] at hq)) fun _ _ _ => hs.children _

end Tidy

end World

/-- The reserve from a world on, where the children of some nodes stay as they are. -/
def Reserve.freeze (L : Reserve) (w : World) (δ : Deeds) (still : NodeId → Prop) : Reserve :=
  { L with
    known := w.instances.size, root := w.root, definition := w.definition?, deeds := δ, still
    children := w.document.children }

/-- The reserve from a world on, with one more host. In it nothing may stand that is in hand already,
and in the other hosts nothing that is not. -/
def Reserve.enter (L : Reserve) (w : World) (δ : Deeds) (r : NodeId) (hand : List InstanceId) :
    Reserve :=
  { L with
    known := w.instances.size, root := w.root, definition := w.definition?, deeds := δ
    host := fun b => L.host b ∨ b = r
    lodges := fun b k => (b = r → k ∉ hand) ∧ (b ≠ r → L.lodges b k ∧ k ∈ hand)
    still := fun q => L.still q ∧ ∃ b m, L.host b ∧ δ.node b m = some q }

namespace World

variable {L : Reserve} {δ δ' : Deeds} {busy busy' lost lost' hand hand' : List InstanceId}
  {w v later : World} {i k : InstanceId} {r q : NodeId} {inst : Instance}

/-- With one more host the reserve is respected to begin with. -/
theorem Respects.enter (h : w.Respects L δ) : w.Respects (L.enter w δ r hand) δ where
  known := Nat.le_refl _
  roots _ _ := rfl
  defined _ _ := rfl
  same alive _ := ⟨alive, rfl⟩
  hosts _ := ⟨rfl, rfl⟩
  still _ _ hs := by
    obtain ⟨hs, b, m, host, hb⟩ := hs
    exact h.still host hb hs

/-- What has been respected from a later start on has been respected from the first. -/
theorem Respects.thaw (h : w.Respects L δ) {still : NodeId → Prop}
    (h' : later.Respects (L.freeze w δ still) δ')
    (kept : ∀ {b m q}, L.host b → δ.node b m = some q → L.still q → still q) :
    later.Respects L δ' :=
  h.after h'.known h'.roots h'.defined
    (fun alive hj => h'.same alive (Nat.lt_of_lt_of_le hj h.known)) h'.hosts
    fun host hq hs => h'.still host (((congrFun (h'.hosts host).1 _)).trans hq) (kept host hq hs)

/-- So has what has been respected while there was one more host. -/
theorem Respects.leave (h : w.Respects L δ) (h' : later.Respects (L.enter w δ r hand) δ') :
    later.Respects L δ' :=
  h.after h'.known h'.roots h'.defined
    (fun alive hj => h'.same alive (Nat.lt_of_lt_of_le hj h.known)) (fun host => h'.hosts (Or.inl host))
    fun host hq hs => (h'.still (Or.inl host) ((congrFun (h'.hosts (Or.inl host)).1 _).trans hq)
      ⟨hs, _, _, host, hq⟩).trans (h.still host hq hs).symm

namespace Tidy

/-- A tidy world may be frozen as it is. -/
theorem freeze (h : w.Tidy L δ busy lost hand) (still : NodeId → Prop) :
    w.Tidy (L.freeze w δ still) δ busy lost hand :=
  { h with
    known := Nat.le_refl _
    roots := fun _ _ => rfl
    defined := fun _ _ => rfl
    same := fun alive _ => ⟨alive, rfl⟩
    hosts := fun _ => ⟨rfl, rfl⟩
    still := fun _ _ _ => rfl }

/-- A world that is tidy from a later start on is tidy from the first. -/
theorem thaw (h : w.Tidy L δ busy lost hand) {still : NodeId → Prop}
    (h' : later.Tidy (L.freeze w δ still) δ' busy' lost' hand')
    (kept : ∀ {b m q}, L.host b → δ.node b m = some q → L.still q → still q) :
    later.Tidy L δ' busy' lost' hand' :=
  { h' with toRespects := h.toRespects.thaw h'.toRespects kept }

/-- The nodes of a host are as they were at the start. -/
theorem node_host (h : w.Tidy L δ busy lost hand) (host : L.host r) : δ.node r = L.deeds.node r :=
  (h.hosts host).1

/-! ## Holding an instance -/

/-- An instance that is held becomes a host, and what it holds comes into hand. Unless it is in hand
itself, it is spared from now on. -/
theorem take (h : w.Tidy L δ busy lost hand) (hi : w.instances[i]? = some inst) (hb : i ∉ busy)
    (alive : δ.alive i) (spared : InstanceId → Prop) (keeps : ∀ j, L.spared j → spared j)
    (only : ∀ j, spared j → L.spared j ∨ j = i) (ready : i ∈ lost ++ hand ∨ spared i) :
    World.Tidy (Reserve.enter { L with spared } w δ inst.root hand) δ (i :: busy) lost
        (inst.held ++ hand) { w with busy := i :: w.busy } ∧
      (L.plan inst.definition).Shows (δ.node inst.root) w.root w.document.children inst.elements
        inst.stash := by
  have root := root_of_get hi
  have idle : ¬ L.host inst.root := fun host => hb ((h.host alive).mp (root ▸ host))
  obtain ⟨shows, held⟩ := h.shows alive hb hi
  obtain ⟨orderly, -⟩ := h.orderly.take hi hb id
  refine ⟨?_, shows⟩
  have entered : w.Respects (L.enter w δ inst.root hand) δ := h.toRespects.enter
  have respects : w.Respects (Reserve.enter { L with spared } w δ inst.root hand) δ :=
    { entered with }
  exact
    { respects with
      orderly := orderly.perm (List.perm_append_comm_assoc ..)
      valid := h.valid
      owner := h.owner
      apart := h.apart
      host := fun {j} hj => by
        show L.host (w.root j) ∨ w.root j = inst.root ↔ j ∈ i :: busy
        rw [h.host hj, List.mem_cons, or_comm, ← root]
        exact or_congr_left ⟨fun he => h.apart hj alive he, fun he => he ▸ rfl⟩
      ready := fun j hj => by
        have : j ∈ lost ++ hand ∨ spared j := by
          rcases List.mem_cons.mp hj with rfl | hj
          · exact ready
          · exact (h.ready j hj).imp_right (keeps j)
        refine this.imp_left fun hm => ?_
        simp only [List.mem_append] at hm ⊢
        tauto
      spared := fun {j} hj => by
        rcases only j hj with hj | rfl
        · exact ⟨List.mem_cons_of_mem _ (h.spared hj).1, (h.spared hj).2⟩
        · exact ⟨List.mem_cons_self .., alive⟩
      inHand := fun j hj => (List.mem_append.mp hj).elim (held j) (h.inHand j)
      pooled := h.pooled
      shows := fun hj hbj hinst => h.shows hj (fun hm => hbj (List.mem_cons_of_mem _ hm)) hinst
      seat := fun {r q b m} hq hr hb' => by
        obtain ⟨k, hk, rk, place⟩ := h.seat hq hr hb'
        refine ⟨k, hk, rk, ?_⟩
        rcases place with ⟨host, hkin, lodges⟩ | ⟨j, inst', hj, hbj, hinst, hroot, hheld⟩
        · have hne : b ≠ inst.root := fun he => idle (he ▸ host)
          exact Or.inl ⟨Or.inl host, List.mem_append_right _ hkin, fun he => absurd he hne,
            fun _ => ⟨lodges, hkin⟩⟩
        · by_cases hji : j = i
          · -- What stood in its nodes was in its stash, and is in hand as in a host now.
            subst hji
            obtain rfl := Option.some.inj (hi.symm.trans hinst)
            refine Or.inl ⟨Or.inr hroot.symm, List.mem_append_left _ hheld, fun _ hkin => ?_,
              fun hne => absurd hroot.symm hne⟩
            have placed : k ∈ w.placed (lost ++ hand) (.stash j) := by
              rw [mem_placed_stash (h.orderly.busy_eq ▸ hb) hi]
              exact hheld
            have := h.orderly.spread.apart (q := .hand) placed (List.mem_append_right _ hkin)
            cases this
          · exact Or.inr ⟨j, inst', hj, by simp [hji, hbj], hinst, hroot, hheld⟩
      rooted := fun {b} host => by
        rcases host with host | rfl
        · exact h.rooted host
        · exact root ▸ h.node_root alive
      draws := h.draws }

/-- A new instance, or one that is put back, is no host any more when it shows its stash. -/
theorem leave (h : w.Tidy L δ busy lost hand) (idle : ¬ L.host inst.root)
    {spared : InstanceId → Prop} (keeps : ∀ j, L.spared j → spared j)
    (h' : v.Tidy (Reserve.enter { L with spared } w δ inst.root hand) δ' busy' lost
      (inst.held ++ hand))
    (orderly : later.Orderly (.plain L.library) busy (lost ++ hand'))
    (document : later.document = v.document) (pools : later.pools = v.pools)
    (get : later.instances[i]? = some inst)
    (others : ∀ j, δ'.alive j → j ≠ i → later.instances[j]? = v.instances[j]?)
    (size : v.instances.size ≤ later.instances.size)
    (roots : ∀ j < v.instances.size, later.root j = v.root j)
    (defined : ∀ j < v.instances.size, later.definition? j = v.definition? j)
    (top : δ'.node inst.root 0 = some inst.root)
    (definition : δ'.definition inst.root = inst.definition)
    (alone : ∀ j, δ'.alive j → v.root j = inst.root → j = i)
    (known : i < L.known → δ'.alive i) (hb : i ∉ busy)
    (hbusy : ∀ j, δ'.alive j → j ≠ i → (j ∈ busy' ↔ j ∈ busy))
    (hother : ∀ j, δ'.alive j → j ∉ busy' → j ≠ i)
    (ready : ∀ j ∈ busy, j ∈ lost ++ hand' ∨ L.spared j)
    (grown : hand ⊆ hand') (fresh : ∀ j ∈ hand', j = i ∨ j ∈ hand)
    (shows : (L.plan inst.definition).Shows (δ'.node inst.root) v.root v.document.children
      inst.elements inst.stash) :
    later.Tidy L { δ' with alive := fun j => δ'.alive j ∨ j = i } busy lost hand' := by
  have inside {j : InstanceId} (hj : δ'.alive j) : later.root j = v.root j := by
    obtain ⟨inst, hinst, -⟩ := h'.owner hj
    exact roots j (Array.getElem?_eq_some_iff.mp hinst).1
  have root : later.root i = inst.root := root_of_get get
  have ne_root {j : InstanceId} (hj : δ'.alive j) (hne : j ≠ i) : v.root j ≠ inst.root :=
    fun he => hne (alone j hj he)
  have host {j : InstanceId} (hj : δ'.alive j) (hne : j ≠ i) :
      L.host (v.root j) ↔ j ∈ busy := by
    rw [← hbusy j hj hne, ← h'.host hj]
    exact ⟨Or.inl, fun ho => ho.resolve_right (ne_root hj hne)⟩
  have entered : v.Respects (L.enter w δ inst.root hand) δ' := { h'.toRespects with }
  have respects : later.Respects L { δ' with alive := fun j => δ'.alive j ∨ j = i } :=
    (h.toRespects.leave entered).after size roots defined
      (fun hj hlt => ⟨hj.elim id fun he => he ▸ known (he ▸ hlt), rfl⟩) (fun _ => ⟨rfl, rfl⟩)
      fun _ _ _ => by rw [document]
  -- What an instance that is there shows, it shows later.
  have still_shows {inst' : Instance} (shows : (L.plan inst'.definition).Shows (δ'.node inst'.root)
      v.root v.document.children inst'.elements inst'.stash) (held : ∀ k ∈ inst'.held, δ'.alive k) :
      (L.plan inst'.definition).Shows (δ'.node inst'.root) later.root later.document.children
        inst'.elements inst'.stash ∧ ∀ k ∈ inst'.held, δ'.alive k ∨ k = i := by
    rw [document]
    exact ⟨shows.congr (fun _ => rfl) fun k hk => inside (held k hk), fun k hk => Or.inl (held k hk)⟩
  exact
    { respects with
      orderly
      valid := by
        rw [document]
        exact { h'.valid with }
      owner := fun {j} hj => by
        by_cases hji : j = i
        · subst hji
          exact ⟨inst, get, top, definition⟩
        · rw [others j (hj.resolve_right hji) hji]
          exact h'.owner (hj.resolve_right hji)
      apart := fun {j j'} hj hj' he => by
        by_cases hji : j = i <;> by_cases hji' : j' = i
        · rw [hji, hji']
        · have hj' := hj'.resolve_right hji'
          rw [hji, root, inside hj'] at he
          exact absurd he.symm (ne_root hj' hji')
        · have hj := hj.resolve_right hji
          rw [hji', root, inside hj] at he
          exact absurd he (ne_root hj hji)
        · have hj := hj.resolve_right hji
          have hj' := hj'.resolve_right hji'
          rw [inside hj, inside hj'] at he
          exact h'.apart hj hj' he
      host := fun {j} hj => by
        by_cases hji : j = i
        · rw [hji, root]
          exact ⟨fun ho => absurd ho idle, fun hm => absurd hm hb⟩
        · have hj := hj.resolve_right hji
          rw [inside hj]
          exact host hj hji
      ready
      spared := fun hj => ⟨(h.spared hj).1, Or.inl (h'.spared (keeps _ hj)).2⟩
      inHand := fun j hj =>
        (fresh j hj).symm.imp_left fun hj => h'.inHand j (List.mem_append_right _ hj)
      pooled := fun {id j} hj => Or.inl (h'.pooled (by rwa [World.pool, pools] at hj))
      shows := fun {j inst'} hj hbj hinst => by
        by_cases hji : j = i
        · subst hji
          obtain rfl := Option.some.inj (get.symm.trans hinst)
          exact still_shows shows fun k hk => h'.inHand k (List.mem_append_left _ hk)
        · have hj := hj.resolve_right hji
          rw [others j hj hji] at hinst
          obtain ⟨shows', held⟩ := h'.shows hj (mt (hbusy j hj hji).mp hbj) hinst
          exact still_shows shows' held
      seat := fun {r q b m} hq hr hbm => by
        rw [document] at hq
        obtain ⟨k, hk, rk, place⟩ := h'.seat hq hr hbm
        refine ⟨k, Or.inl hk, (inside hk).trans rk, ?_⟩
        rcases place with ⟨hbo, hkin, hown, hout⟩ | ⟨j, inst', hj, hbj, hinst, hroot, hheld⟩
        · by_cases hbr : b = inst.root
          · -- Only what the instance held could be put into its nodes, so its stash has it again.
            refine Or.inr ⟨i, inst, Or.inr rfl, hb, get, hbr.symm, ?_⟩
            exact (List.mem_append.mp hkin).resolve_right (hown hbr)
          · obtain ⟨lodges, hkin⟩ := hout hbr
            exact Or.inl ⟨hbo.resolve_right hbr, grown hkin, lodges⟩
        · have hji := hother j hj hbj
          exact Or.inr ⟨j, inst', Or.inl hj, mt (hbusy j hj hji).mpr hbj,
            (others j hj hji).trans hinst, hroot, hheld⟩
      rooted := fun host => h'.rooted (Or.inl host)
      draws := h.draws }

/-- An instance that is put back shows its stash again. -/
theorem back (h : w.Tidy L δ busy lost hand) {inst₀ : Instance}
    (hi : w.instances[i]? = some inst₀) (hb : i ∉ busy) (there : δ.alive i)
    {spared : InstanceId → Prop} (keeps : ∀ j, L.spared j → spared j) (own : spared i)
    {f : Focus Instance} (root : f.held.root = inst₀.root)
    (h' : f.world.Tidy (Reserve.enter { L with spared } w δ inst₀.root hand) δ' (i :: busy) lost
      (f.held.held ++ hand))
    (definition : f.world.definition? i = some f.held.definition)
    (sound : f.held.Sound L.library f.world)
    (shows : (L.plan f.held.definition).Shows (δ'.node inst₀.root) f.world.root
      f.world.document.children f.held.elements f.held.stash) :
    (Run.hold.back i busy f).Neat L busy lost hand := by
  have alive : δ'.alive i := (h'.spared own).2
  have lt : i < w.instances.size := (Array.getElem?_eq_some_iff.mp hi).1
  have inside : i < f.world.instances.size := Nat.lt_of_lt_of_le lt h'.known
  have root' : f.world.root i = inst₀.root := (h'.roots i lt).trans (root_of_get hi)
  have same {j : InstanceId} (hj : j ≠ i) :
      (Run.hold.back i busy f).instances[j]? = f.world.instances[j]? :=
    Array.getElem?_setIfInBounds_ne (Ne.symm hj)
  have get : (Run.hold.back i busy f).instances[i]? = some f.held := by
    simp [Run.hold.back, inside]
  have idle : ¬ L.host f.held.root := fun host =>
    hb ((h.host there).mp (by rw [root_of_get hi, ← root]; exact host))
  have orderly := (h'.orderly.perm (List.perm_append_comm_assoc ..)).back hb definition sound fun _ _ => id
  rw [← root] at h' shows root'
  refine ⟨_, h.leave idle keeps h' orderly rfl rfl get (fun j _ hj => same hj) (by simp [Run.hold.back])
    (fun j _ => ?_) (fun j _ => definition?_put definition j) ?_ ?_
    (fun j hj he => h'.apart hj alive (he.trans root'.symm)) (fun _ => alive) hb (fun j _ hj => ?_)
    (fun j _ hj he => hj (he ▸ List.mem_cons_self ..)) h.ready
    (List.Subset.refl _) (fun _ => Or.inr) shows⟩
  · by_cases hj : j = i
    · rw [hj, root_of_get get, root']
    · rw [World.root, World.root, World.root?, World.root?, same hj]
  · exact root' ▸ h'.node_root alive
  · have := h'.definition_root alive
    rw [root', definition] at this
    exact (Option.some.inj this).symm
  · simp [hj]

end Tidy

end World

/-- The deeds without a copy and its instance. -/
def Deeds.lapse (δ : Deeds) (w : World) (r : NodeId) : Deeds where
  node b n := if b = r then none else δ.node b n
  definition := δ.definition
  alive j := δ.alive j ∧ w.root j ≠ r

/-- A deed that lapses leaves the others alone. -/
theorem Deeds.node_lapse_of_ne {δ : Deeds} {w : World} {r b : NodeId} (hb : b ≠ r) :
    (δ.lapse w r).node b = δ.node b :=
  funext fun _ => if_neg hb

/-- A node that is still owned is one of another deed. -/
theorem Deeds.of_node_lapse {δ : Deeds} {w : World} {r b q : NodeId} {m : Nat}
    (hq : (δ.lapse w r).node b m = some q) : b ≠ r ∧ δ.node b m = some q := by
  rw [Deeds.lapse] at hq
  dsimp only at hq
  split at hq
  · cases hq
  · next hne => exact ⟨hne, hq⟩

namespace World

variable {L : Reserve} {δ δ' : Deeds} {busy busy' lost lost' hand hand' : List InstanceId}
  {w v later : World} {i k : InstanceId} {r q : NodeId} {inst : Instance}

namespace Tidy

/-- Nothing that belongs to a copy stands in the last host. -/
theorem vacant (h : v.Tidy (L.enter w δ r hand) δ' busy' lost hand) {c : NodeId} {n : Nat}
    (hc : δ'.node c 0 = some c) (hr : δ'.node r n = some q) : c ∉ v.document.children q := by
  intro hq
  obtain ⟨k, hk, rk, place⟩ := h.seat hq hc hr
  rcases place with ⟨-, hin, lodges, -⟩ | ⟨j, inst', hj, hbj, hinst, hroot, -⟩
  · exact lodges rfl hin
  · refine hbj ((h.host hj).mp (Or.inr ?_))
    rw [root_of_get hinst, hroot]

/-- When the root of the last host is released, the other copies stay, and so do the children of each
node that this root does not stand in. -/
theorem valid_lapse (h : v.Tidy (L.enter w δ r hand) δ' busy' lost hand)
    (top : δ'.node r 0 = some r) :
    (δ'.lapse v r).Valid L.plan (v.document.release r) ∧
      ∀ {b m q}, (δ'.lapse v r).node b m = some q → r ∉ v.document.children q →
        (v.document.release r).children q = v.document.children q := by
  have lapses : Deeds.Valid.Lapses δ' (δ'.lapse v r) := by
    refine ⟨fun hp => ?_, rfl⟩
    obtain ⟨hne, hp⟩ := Deeds.of_node_lapse hp
    exact ⟨hp, by rw [Deeds.node_lapse_of_ne hne]; exact h.valid.top hp⟩
  have gone : ¬ (δ'.lapse v r).Owned r := by
    rintro ⟨b, n, hp⟩
    obtain ⟨hne, hp⟩ := Deeds.of_node_lapse hp
    exact hne (h.valid.inj hp top).1
  have up {q c : NodeId} (hq : c ∈ v.document.children q) (hc : (δ'.lapse v r).Owned c) :
      (δ'.lapse v r).Owned q := by
    obtain ⟨b, n, hc⟩ := hc
    obtain ⟨hne, hc⟩ := Deeds.of_node_lapse hc
    obtain ⟨b', m, hb', place⟩ := h.valid.parent hc hq
    refine ⟨b', m, (Deeds.node_lapse_of_ne fun he => ?_).symm ▸ hb'⟩
    rcases place with ⟨-, rfl, -⟩ | ⟨rfl, rfl, -⟩
    · exact hne he
    · exact h.vacant hc (he ▸ hb') hq
  obtain ⟨valid, children⟩ := h.valid.release lapses gone up
  refine ⟨valid, fun {b m q} hq hr => ?_⟩
  rw [children q ⟨b, m, hq⟩, h.valid.live top]
  show (v.document.without r).children q = _
  rw [Document.children_without]
  split
  · exact List.filter_eq_self.mpr fun c hc => decide_eq_true fun he => hr (he ▸ hc)
  · rfl

/-- A copy goes when its root is released. Nothing stands in it any more, and its instance is lost. -/
theorem lapse {lost₀ hand₀ : List InstanceId} (h : w.Tidy L δ busy lost₀ hand₀) (idle : ¬ L.host r)
    (h' : v.Tidy (L.enter w δ r hand) δ' busy' lost hand) (top : δ'.node r 0 = some r)
    (loose : ∀ {b m q}, L.host b → δ'.node b m = some q → r ∈ v.document.children q → ¬ L.still q)
    (dead : ∀ j, δ'.alive j → v.root j = r → j ∈ lost) (mortal : ∀ j, L.spared j → v.root j ≠ r) :
    World.Tidy L (δ'.lapse v r) busy' lost hand { v with document := v.document.release r } := by
  obtain ⟨valid, same⟩ := h'.valid_lapse top
  -- An instance with this root is lost, so it stands nowhere else.
  have apart {p : Place} {k : InstanceId} (hp : p ≠ .hand) (hk : δ'.alive k)
      (hin : k ∈ v.placed (lost ++ hand) p) : v.root k ≠ r := fun he =>
    hp (h'.orderly.spread.apart (q := .hand) hin (List.mem_append_left _ (dead k hk he)))
  have inHand {k : InstanceId} (hk : k ∈ hand) : v.root k ≠ r := fun he => by
    have nodup := h'.orderly.spread.nodup .hand
    exact (List.nodup_append.mp nodup).2.2 k (dead k (h'.inHand k hk) he) k hk rfl
  have rest {j k : InstanceId} {inst : Instance} (hj : j ∉ busy') (hinst : v.instances[j]? = some inst)
      (hk : k ∈ inst.held) : k ∈ v.placed (lost ++ hand) (.stash j) := by
    rw [mem_placed_stash (h'.orderly.busy_eq ▸ hj) hinst]
    exact hk
  have other {b : NodeId} (host : L.host b) : b ≠ r := fun he => idle (he ▸ host)
  have respects : World.Respects L (δ'.lapse v r)
      { v with document := v.document.release r } := by
    refine (h.toRespects.leave h'.toRespects).after (Nat.le_refl _) (fun _ _ => rfl)
      (fun _ _ => rfl) (fun hj _ => ⟨hj.1, Deeds.node_lapse_of_ne hj.2⟩)
      (fun host => ⟨Deeds.node_lapse_of_ne (other host), rfl⟩) fun {b n q} host hq hs => ?_
    refine same (b := b) (m := n) ?_ fun hr => loose host hq hr hs
    rwa [Deeds.node_lapse_of_ne (other host)]
  exact
    { respects with
      orderly := h'.orderly.congr rfl rfl rfl
      valid
      owner := fun {j} hj => by
        obtain ⟨inst, hinst, hroot, hd⟩ := h'.owner hj.1
        have hne : inst.root ≠ r := root_of_get hinst ▸ hj.2
        exact ⟨inst, hinst, by rw [Deeds.node_lapse_of_ne hne]; exact hroot, hd⟩
      apart := fun hi hj => h'.apart hi.1 hj.1
      host := fun hj => ⟨fun host => (h'.host hj.1).mp (Or.inl host),
        fun hb => ((h'.host hj.1).mpr hb).resolve_right hj.2⟩
      ready := h'.ready
      spared := fun hj => ⟨(h'.spared hj).1, (h'.spared hj).2, mortal _ hj⟩
      inHand := fun k hk => ⟨h'.inHand k hk, inHand hk⟩
      pooled := fun {id k} hk => ⟨h'.pooled hk, apart (p := .pool id) nofun (h'.pooled hk) hk⟩
      shows := fun {j inst} hj hbj hinst => by
        have hne : inst.root ≠ r := root_of_get hinst ▸ hj.2
        obtain ⟨shows, held⟩ := h'.shows hj.1 hbj hinst
        rw [Deeds.node_lapse_of_ne hne]
        refine ⟨shows.congr (fun {n q} hq => same (b := inst.root) (m := n) ?_ fun hr => ?_)
            fun _ _ => rfl,
          fun k hk => ⟨held k hk, apart (p := .stash j) nofun (held k hk) (rest hbj hinst hk)⟩⟩
        · rwa [Deeds.node_lapse_of_ne hne]
        · -- The root that goes is that of a lost instance, so nothing shows it.
          obtain ⟨k, hk, rk, place⟩ := h'.seat hr top hq
          rcases place with ⟨-, hin, -⟩ | ⟨j', inst', -, hbj', hinst', -, hheld⟩
          · exact inHand hin rk
          · exact apart (p := .stash j') nofun hk (rest hbj' hinst' hheld) rk
      seat := fun {c q b m} hq hc hbm => by
        obtain ⟨hne, hc⟩ := Deeds.of_node_lapse hc
        obtain ⟨hnb, hbm⟩ := Deeds.of_node_lapse hbm
        obtain ⟨k, hk, rk, place⟩ := h'.seat (Document.children_release_subset r q hq) hc hbm
        refine ⟨k, ⟨hk, fun he => hne (rk.symm.trans he)⟩, rk, ?_⟩
        rcases place with ⟨host, -, -, lodges⟩ | ⟨j, inst', hj, hbj, hinst, hroot, hheld⟩
        · exact Or.inl ⟨host.resolve_right hnb, (lodges hnb).2, (lodges hnb).1⟩
        · refine Or.inr ⟨j, inst', ⟨hj, fun he => hnb ?_⟩, hbj, hinst, hroot, hheld⟩
          rw [← hroot, ← root_of_get (w := v) hinst]
          exact he
      rooted := fun {b} host => by
        rw [Deeds.node_lapse_of_ne (other host)]
        exact h'.rooted (Or.inl host)
      draws := h.draws }

/-- A destroyed instance is put back. -/
theorem putBack {f : Focus Instance}
    (h : f.world.Tidy L δ (i :: busy) (f.held.held ++ lost) hand) (dead : ¬ δ.alive i)
    (hb : i ∉ busy) (root : f.held.root = f.world.root i)
    (definition : f.world.definition? i = some f.held.definition)
    (sound : f.held.Sound L.library f.world) (ready : ∀ j ∈ busy, j ∈ lost ++ hand ∨ L.spared j) :
    (Run.hold.back i busy f).Tidy L δ busy lost hand := by
  have lt := isSome_definition?.mp (definition ▸ rfl : (f.world.definition? i).isSome)
  have same {j : InstanceId} (hj : j ≠ i) :
      (Run.hold.back i busy f).instances[j]? = f.world.instances[j]? :=
    Array.getElem?_setIfInBounds_ne (Ne.symm hj)
  have get : (Run.hold.back i busy f).instances[i]? = some f.held := by
    simp [Run.hold.back, lt]
  have roots : (Run.hold.back i busy f).root = f.world.root := by
    funext j
    by_cases hj : j = i
    · rw [hj, root_of_get get, root]
    · rw [World.root, World.root, World.root?, World.root?, same hj]
  -- The instance is not alive, so no other fact looks at what is put back.
  have alive {j : InstanceId} (hj : δ.alive j) : j ≠ i := fun he => dead (he ▸ hj)
  exact
    { h.keep (by simp [Run.hold.back]) roots (funext (definition?_put definition)) fun _ _ _ => rfl with
      orderly := (h.orderly.perm (by rw [List.append_assoc])).back hb definition sound fun _ _ => id
      valid := h.valid
      owner := fun hj => by rw [same (alive hj)]; exact h.owner hj
      apart := roots ▸ h.apart
      host := fun hj => by rw [roots, h.host hj, List.mem_cons, or_iff_right (alive hj)]
      ready
      spared := fun hj =>
        ⟨(List.mem_cons.mp (h.spared hj).1).resolve_left (alive (h.spared hj).2), (h.spared hj).2⟩
      inHand := h.inHand
      pooled := fun hj => h.pooled hj
      shows := fun hj hbj hinst => by
        rw [same (alive hj)] at hinst
        rw [roots]
        exact h.shows hj (by simp [alive hj, hbj]) hinst
      seat := fun hq hr hbm => by
        obtain ⟨k, hk, rk, place⟩ := h.seat hq hr hbm
        refine ⟨k, hk, roots ▸ rk, place.imp id ?_⟩
        rintro ⟨j, inst, hj, hbj, hinst, rest⟩
        exact ⟨j, inst, hj, fun hm => hbj (List.mem_cons_of_mem _ hm),
          (same (alive hj)).trans hinst, rest⟩
      rooted := h.rooted
      draws := h.draws }

/-! ## New copies -/

/-- A new copy of a component leaves the world tidy; no instance has its root. -/
theorem grant (h : w.Tidy L δ busy lost hand) {d : Document Listener} {id : DefinitionId}
    {f : Nat → Option NodeId} (copy : Document.CopyOf (L.plan id).root w.document d r f)
    (hw : d.WellFormed) {t : Template} (draws : (L.plan id).Draws t) :
    World.Tidy L (δ.grant L.plan r id f) busy lost hand { w with document := d } := by
  have adds := copy.adds
  have fresh {b : NodeId} (hb : δ.node b 0 = some b) : b ≠ r := fun he => by
    rw [he, h.valid.node_fresh adds copy.top] at hb
    cases hb
  have children {b m q} (hq : δ.node b m = some q) : d.children q = w.document.children q := by
    rw [Document.children, adds.node q fun k hk => h.valid.not_owned adds hk ⟨b, m, hq⟩]
    rfl
  have node {b : NodeId} (hb : δ.node b 0 = some b) :
      (δ.grant L.plan r id f).node b = δ.node b := Deeds.node_grant_of_ne (fresh hb)
  have definition {b : NodeId} (hb : δ.node b 0 = some b) :
      (δ.grant L.plan r id f).definition b = δ.definition b :=
    Deeds.definition_grant_of_ne (fresh hb)
  have respects : World.Respects L (δ.grant L.plan r id f) { w with document := d } :=
    h.after (Nat.le_refl _) (fun _ _ => rfl) (fun _ _ => rfl)
      (fun hj _ => ⟨hj, node (h.node_root hj)⟩)
      (fun host => ⟨node (h.rooted host), definition (h.rooted host)⟩) fun _ hq _ => children hq
  exact
    { respects with
      orderly := h.orderly.congr rfl rfl rfl
      valid := h.valid.grant copy hw draws
      owner := fun hi => by
        obtain ⟨inst, hinst, top, hd⟩ := h.owner hi
        exact ⟨inst, hinst, (congrFun (node top) 0).trans top, (definition top).trans hd⟩
      apart := h.apart
      host := h.host
      ready := h.ready
      spared := h.spared
      inHand := h.inHand
      pooled := h.pooled
      shows := fun {i inst} hi hb hinst => by
        obtain ⟨shows, held⟩ := h.shows hi hb hinst
        have top := h.node_root hi
        rw [root_of_get (w := w) hinst] at top
        rw [node top]
        exact ⟨shows.congr children fun _ _ => rfl, held⟩
      seat := fun {c q b m} hq hc hbm => by
        -- The new copy stands in nothing, and has only its own nodes in it.
        rcases Deeds.of_node_grant hc with ⟨rfl, -⟩ | ⟨-, old⟩
        · have linked := hw.linked hq
          rw [copy.orphan] at linked
          cases linked
        · rcases Deeds.of_node_grant hbm with ⟨-, new⟩ | ⟨-, below⟩
          · obtain ⟨n, hn, -⟩ := copy.mem_children new hq
            exact absurd ⟨c, 0, old⟩ (h.valid.not_owned adds hn)
          · exact h.seat (children below ▸ hq) old below
      rooted := fun host => by
        rw [node (h.rooted host)]
        exact h.rooted host
      draws := h.draws }

/-- A copy in which nothing stands becomes a host. -/
theorem enter (h : w.Tidy L δ busy lost hand) (top : δ.node r 0 = some r)
    (vacant : ∀ {n q c}, δ.node r n = some q → c ∈ w.document.children q → δ.node c 0 ≠ some c)
    (alone : ∀ i, δ.alive i → w.root i ≠ r) : w.Tidy (L.enter w δ r hand) δ busy lost hand :=
  { h with
    host := fun {i} hi => by
      rw [← h.host hi]
      exact ⟨fun host => host.resolve_right (alone i hi), Or.inl⟩
    seat := fun {c q b m} hq hc hbm => by
      have hne : b ≠ r := fun he => vacant (he ▸ hbm) hq hc
      obtain ⟨k, hk, rk, place⟩ := h.seat hq hc hbm
      exact ⟨k, hk, rk, place.imp_left fun ⟨host, hin, lodges⟩ =>
        ⟨Or.inl host, hin, fun he => absurd he hne, fun _ => ⟨lodges, hin⟩⟩⟩
    toRespects := h.toRespects.enter
    rooted := fun host => host.elim h.rooted fun he => he ▸ top }

end Tidy

/-- A spare instance was one before or is among the new ones. -/
theorem mem_pool_setPool {id k : DefinitionId} {spare : List InstanceId}
    (hi : i ∈ (w.setPool id spare).pool k) : i ∈ w.pool k ∨ i ∈ spare := by
  unfold pool setPool at *
  rw [Array.getElem?_modify] at hi
  split at hi
  · cases hp : w.pools[k]? with
    | none => rw [hp] at hi; cases hi
    | some old => rw [hp] at hi; exact Or.inr hi
  · exact Or.inl hi

namespace Tidy

/-! ## Pools -/

/-- A spare instance comes into hand. -/
theorem pop (h : w.Tidy L δ busy lost hand) {id : DefinitionId} {rest : List InstanceId}
    (hp : w.pool id = i :: rest) : (w.setPool id rest).Tidy L δ busy lost (i :: hand) :=
  { h with
    orderly := (h.orderly.pop hp).1.perm List.perm_middle
    ready := fun j hj => (h.ready j hj).imp_left fun hm => by
      simp only [List.mem_append, List.mem_cons] at hm ⊢
      tauto
    inHand := List.forall_mem_cons.mpr ⟨h.pooled (by rw [hp]; exact List.mem_cons_self ..), h.inHand⟩
    pooled := fun {k j} hj => by
      rw [pool_setPool (Or.inl (by simp [hp]))] at hj
      split at hj
      · next hk => exact h.pooled (by rw [← hk] at hp; rw [hp]; exact List.mem_cons_of_mem _ hj)
      · exact h.pooled hj
    seat := fun hq hr hb => by
      obtain ⟨k, alive, root, place⟩ := h.seat hq hr hb
      exact ⟨k, alive, root, place.imp_left fun ⟨host, hk, lodges⟩ =>
        ⟨host, List.mem_cons_of_mem _ hk, lodges⟩⟩ }

/-- An instance that stands nowhere goes to the pool of its definition. -/
theorem push (h : w.Tidy L δ busy lost (i :: hand)) {id : DefinitionId}
    (hd : w.definition? i = some id) (hb : i ∉ busy)
    (hk : ∀ b m q, L.host b → δ.node b m = some q → w.root i ∉ w.document.children q) :
    (w.setPool id (i :: w.pool id)).Tidy L δ busy lost hand := by
  have tidy := (h.lose hk).forget hb
  exact
    { tidy with
      orderly := (h.orderly.perm (List.perm_middle.symm)).push hd fun hs => hs
      pooled := fun {k j} hj => by
        rcases mem_pool_setPool hj with hj | hj
        · exact h.pooled hj
        · rcases List.mem_cons.mp hj with rfl | hj
          · exact h.inHand j (List.mem_cons_self ..)
          · exact h.pooled hj }

/-! ## Held instances -/

/-- What the world shows of an instance that is held does not matter. -/
theorem touch (h : w.Tidy L δ busy lost hand) (hb : i ∈ busy) {g : Instance → Instance}
    (hg : ∀ inst, (g inst).definition = inst.definition ∧ (g inst).root = inst.root) :
    World.Tidy L δ busy lost hand { w with instances := w.instances.modify i g } := by
  set later : World := { w with instances := w.instances.modify i g }
  have get_ne {j : InstanceId} (hj : j ≠ i) : later.instances[j]? = w.instances[j]? := by
    simp [later, Array.getElem?_modify, Ne.symm hj]
  have root : later.root = w.root := root_modify w i fun inst => (hg inst).2
  have definition : later.definition? = w.definition? :=
    definition?_modify (fun inst => (hg inst).1) w i
  have ne {j : InstanceId} (hj : j ∉ busy) : j ≠ i := fun he => hj (he ▸ hb)
  exact
    { h.keep (by simp [later]) root definition fun _ _ _ => rfl with
      orderly := h.orderly.touch hb fun inst => (hg inst).1
      valid := h.valid
      owner := fun {j} hj => by
        obtain ⟨inst, hinst, top, hd⟩ := h.owner hj
        by_cases hji : j = i
        · subst hji
          refine ⟨g inst, ?_, ?_⟩
          · show (w.instances.modify j g)[j]? = _
            rw [Array.getElem?_modify, if_pos rfl, hinst]
            rfl
          rw [(hg inst).1, (hg inst).2]
          exact ⟨top, hd⟩
        · exact ⟨inst, (get_ne hji).trans hinst, top, hd⟩
      apart := root ▸ h.apart
      host := root ▸ h.host
      ready := h.ready
      spared := h.spared
      inHand := h.inHand
      pooled := h.pooled
      shows := fun hj hbj hinst => by
        rw [get_ne (ne hbj)] at hinst
        rw [root]
        exact h.shows hj hbj hinst
      seat := fun hq hr hbm => by
        obtain ⟨k, hk, rk, place⟩ := h.seat hq hr hbm
        refine ⟨k, hk, root ▸ rk, place.imp id ?_⟩
        rintro ⟨j, inst, hj, hbj, hinst, rest⟩
        exact ⟨j, inst, hj, hbj, (get_ne (ne hbj)).trans hinst, rest⟩
      rooted := h.rooted
      draws := h.draws }

end Tidy

end World

end ComponentView
