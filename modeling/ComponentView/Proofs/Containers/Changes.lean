import ComponentView.Proofs.Containers.Patch

/-! # Changes to a host

What a pass does to its instance is one of a few changes: it moves a node into the element it belongs
to or out of it, notes that, writes a text or an attribute, renders what the stash holds, and hands a
repeater over to be patched. After each of them the host still shows its stash (`World.Minds`). A
repeater is handed over as a block of its container (`World.Minds.handOver`), with what comes before
and after it, and taken back with what it has become (`World.Minds.takeBack`). -/

namespace ComponentView

namespace Blueprint

variable {B : Blueprint} {t : Template} {node : Nat → Option NodeId} {root : InstanceId → NodeId}
  {children : NodeId → List NodeId} {elements : List NodeId} {stash : List StashItem} {n m slot : Nat}
  {key : StashIndex}

/-- At a slot there is the node of its entry, or the root of the nested child that stands for it. -/
theorem Shows.stands (h : B.Shows node root children elements stash) (draws : B.Draws t)
    (owns : B.layout.Owns slot m) : ∃ x, elements[slot]? = some x ∧
      (B.layout.keyOf m = none ∧ node m = some x ∨
        ∃ key i, stash[key]? = some (.child i) ∧ B.layout.Seats key m ∧ root i = x) := by
  obtain ⟨x, hx, hc⟩ := h.slots owns
  refine ⟨x, hx, ?_⟩
  cases hk : B.layout.keyOf m with
  | none =>
    rw [cell_of_none hk] at hc
    exact Or.inl ⟨rfl, by cases hm : node m <;> simp_all⟩
  | some key =>
    obtain ⟨slot', source, b, plan⟩ := draws.child_of_owns owns hk
    obtain ⟨item, hs⟩ := h.full (List.getElem?_eq_some_iff.mp plan).1
    have kind := (h.plans hs plan).1
    cases item with
    | child i =>
      rw [cell_of_key hk hs] at hc
      exact Or.inr ⟨key, i, hs, draws.regular.keyOf_eq_some_iff.mp hk, by simpa [StashItem.shown] using hc⟩
    | _ => cases kind

/-- A repeater has an entry in the stash, which is no nested child. -/
theorem Shows.repeats (h : B.Shows node root children elements stash) (draws : B.Draws t)
    (hr : B.layout.Repeats m key) :
    ∃ item, stash[key]? = some item ∧ ∀ i, item ≠ .child i := by
  obtain ⟨-, -, -, -, p, plans, repeater⟩ := draws.regular.repeats hr
  obtain ⟨item, hs⟩ := h.full (Layout.lt_of_plans plans)
  rw [Layout.Plans, List.getElem?_map, Option.map_eq_some_iff] at plans
  obtain ⟨q, hq, rfl⟩ := plans
  refine ⟨item, hs, ?_⟩
  rintro i rfl
  have kind := (h.plans hs hq).1
  cases q with
  | child => cases repeater
  | _ => cases kind

end Blueprint

namespace World

open Blueprint

variable {L : Reserve} {δ : Deeds} {id : DefinitionId} {r : NodeId}
  {busy lost hand : List InstanceId} {elements : List NodeId} {stash : List StashItem}
  {w later : World} {n m slot : Nat} {p q x : NodeId} {key : StashIndex} {item : StashItem}
  {i k : InstanceId}

/-- The outline of a host is that of its component. -/
theorem Tidy.outline_host (h : w.Tidy L δ busy lost hand) {other : List InstanceId}
    (opens : L.Opens id r other) : δ.outline L.plan r = (L.plan id).outline := by
  rw [Deeds.outline, (h.hosts opens.host).2, opens.definition]

namespace Minds

/-- Only the document, the instances, the pools and the list of held instances matter. -/
theorem congr (h : w.Minds L id r busy lost hand elements stash)
    (document : later.document = w.document) (instances : later.instances = w.instances)
    (pools : later.pools = w.pools) (held : later.busy = w.busy) :
    later.Minds L id r busy lost hand elements stash := by
  obtain ⟨δ, tidy⟩ := h.neat
  refine ⟨⟨δ, tidy.congr document instances pools held⟩, fun item hm => ?_, ?_⟩
  · refine (h.ranks item hm).grows fun hk => ?_
    rw [definition?_congr instances]
    exact hk
  · rw [root_congr instances, document]
    exact h.shows

/-- What moves no node changes nothing that is shown. -/
theorem sameForest (h : w.Minds L id r busy lost hand elements stash) {d : Document Listener}
    (hs : Document.SameForest w.document d) (hw : d.WellFormed) :
    World.Minds L id r busy lost hand elements stash { w with document := d } := by
  obtain ⟨δ, tidy⟩ := h.neat
  exact ⟨⟨δ, tidy.sameForest hs hw⟩, h.ranks,
    h.shows.congr (fun _ => hs.children _) fun _ _ => rfl⟩

/-- What the world shows of an instance that is held does not matter. -/
theorem touch (h : w.Minds L id r busy lost hand elements stash) (hi : i ∈ busy)
    {g : Instance → Instance}
    (hg : ∀ inst, (g inst).definition = inst.definition ∧ (g inst).root = inst.root) :
    World.Minds L id r busy lost hand elements stash
      { w with instances := w.instances.modify i g } := by
  obtain ⟨δ, tidy⟩ := h.neat
  refine ⟨⟨δ, tidy.touch hi hg⟩, fun item hm => ?_, ?_⟩
  · refine (h.ranks item hm).grows fun hk => ?_
    rw [definition?_modify (fun inst => (hg inst).1) w i]
    exact hk
  · rw [root_modify w i fun inst => (hg inst).2]
    exact h.shows

/-- Writing the text of a node that has no entries below it changes nothing else. -/
theorem setText (h : w.Minds L id r busy lost hand elements stash) (opens : L.Opens id r hand)
    (hp : L.deeds.node r n = some p) (leaf : (L.plan id).outline.childrenOf n = [])
    (content : String) : World.Minds L id r busy lost hand elements stash
      { w with document := w.document.setText p content } := by
  obtain ⟨δ, tidy⟩ := h.neat
  have node {n : Nat} {q : NodeId} (hq : L.deeds.node r n = some q) : δ.node r n = some q :=
    tidy.node_host opens.host ▸ hq
  obtain ⟨valid, same, bare⟩ :=
    tidy.valid.setText (node hp) ((tidy.outline_host opens).symm ▸ leaf) content
  -- Only the node itself has other children, none of which belongs to a copy.
  have keep {b m q} (hq : δ.node b m = some q) (hne : q ≠ p) :
      (w.document.setText p content).children q = w.document.children q := same q ⟨b, m, hq⟩ hne
  refine ⟨⟨δ, tidy.editIn valid opens.host (node hp) (opens.free hp) keep fun c hc hr =>
      absurd ⟨c, 0, hr⟩ (bare c hc)⟩, h.ranks, h.shows.rewrite (fun {n' p'} regular hp' => ?_)
      (fun {key m n₁ n' item i q} hs _ _ hi hq hc => ?_) fun _ _ => rfl⟩
  · refine keep (node hp') ?_
    rintro rfl
    obtain rfl := (tidy.valid.inj (node hp') (node hp)).2
    exact regular.childrenOf_ne_nil leaf
  · by_cases hqp : q = p
    · subst hqp
      have alive := tidy.inHand i (List.mem_append_left _ (StashItem.mem_held hs hi))
      exact absurd ⟨_, 0, tidy.node_root alive⟩ (bare _ hc)
    · exact Or.inl (keep (node hq) hqp ▸ hc)

/-- A tracker shows nothing. -/
theorem retrack (h : w.Minds L id r busy lost hand elements stash) (opens : L.Opens id r hand)
    {t : Tracker} (hs : stash[key]? = some (.tracker t)) (t' : Tracker) :
    w.Minds L id r busy lost hand elements (stash.set key (.tracker t')) := by
  obtain ⟨_, draws⟩ := opens.draws
  have same (m : Nat) : (L.plan id).cell (L.deeds.node r) w.root (stash.set key (.tracker t')) m
      = (L.plan id).cell (L.deeds.node r) w.root stash m := by
    by_cases hk : (L.plan id).layout.keyOf m = some key
    · rw [cell_set_self hk hs, cell_of_key hk hs]
      rfl
    · exact cell_set hk
  refine ⟨?_, fun item hm => ?_, ?_⟩
  · obtain ⟨perm, perm'⟩ := StashItem.perm_set hs (.tracker t')
    exact h.neat.perm ((perm.trans perm'.symm).append_right hand)
  · rcases List.mem_or_eq_of_mem_set hm with hm | rfl
    · exact h.ranks item hm
    · trivial
  · refine h.shows.put draws hs rfl rfl trivial nofun (fun _ _ => rfl)
      (fun regular hp => ?_) (fun _ _ hi => nomatch hi) fun _ _ _ _ hc => hc
    rw [h.shows.contents regular hp, funext same]

/-- Rendering what the stash holds leaves what the host shows as it is. -/
theorem render (h : w.Minds L id r busy lost hand elements stash) (opens : L.Opens id r hand)
    {engine : Engine} (tidies : engine.Tidies) (hl : L.library = engine.library)
    (hk : k ∈ stash.flatMap StashItem.held) (props : Value) (controller : Controller) :
    Ends (w = ·) (engine.render k props controller)
      (fun _ later => later.Minds L id r busy lost hand elements stash)
      (Failing (World.Minds L id r busy lost hand elements stash)) := by
  obtain ⟨δ, tidy⟩ := h.neat
  have calm {v : World} (hv : v.Neat (L.freeze w δ fun _ => True) busy lost
      (stash.flatMap StashItem.held ++ hand)) :
      v.Minds L id r busy lost hand elements stash := by
    obtain ⟨neat, sweeps⟩ := tidy.calm hv
    exact h.calm opens neat sweeps
  refine (tidies.render (L.freeze w δ fun _ => True) busy lost _ k props controller hl
    (List.mem_append_left _ hk)).mono ?_ (fun _ v hv => calm hv) fun _ _ hv => hv.mono calm
  rintro _ rfl
  exact ⟨δ, tidy.freeze _⟩

end Minds

/-! ## Moving nodes -/

/-- The node may be put into one node of the host, and stands in no other that belongs to a copy. If
it is a root, the host holds the instance, as what stands for a child of that node. -/
structure Guest (L : Reserve) (δ : Deeds) (id : DefinitionId) (r : NodeId) (stash : List StashItem)
    (n : Nat) (q x : NodeId) (w : World) : Prop where
  node : δ.node r n = some q
  fits : Deeds.Valid.Fits δ L.plan q x
  only : ∀ {b m p}, δ.node b m = some p → x ∈ w.document.children p → p = q
  mine : δ.node x 0 = some x → ∃ k ∈ stash.flatMap StashItem.held, w.root k = x
  unique : ∀ {key m n' : Nat} {item : StashItem} {k : InstanceId}, stash[key]? = some item →
    (L.plan id).layout.Seats key m → m ∈ (L.plan id).outline.childrenOf n' → k ∈ item.held →
      w.root k = x → n' = n

/-- What is at the slot of a child of a node may be put into the node, and stands nowhere else. -/
theorem Minds.guest (h : w.Minds L id r busy lost hand elements stash) (opens : L.Opens id r hand)
    (tidy : w.Tidy L δ busy lost (stash.flatMap StashItem.held ++ hand))
    (owns : (L.plan id).layout.Owns slot m) (hm : m ∈ (L.plan id).outline.childrenOf n)
    (hq : L.deeds.node r n = some q) :
    ∃ x, elements[slot]? = some x ∧ w.Guest L δ id r stash n q x := by
  obtain ⟨_, draws⟩ := opens.draws
  have outline := tidy.outline_host opens
  have definition : δ.definition r = id := (tidy.hosts opens.host).2.trans opens.definition
  have top : m ≠ 0 := Nat.ne_of_gt (Nat.zero_lt_of_lt (Outline.lt_of_mem_childrenOf hm).1)
  have hq' : δ.node r n = some q := tidy.node_host opens.host ▸ hq
  have alive {i : InstanceId} (hi : i ∈ stash.flatMap StashItem.held) : δ.alive i :=
    tidy.inHand i (List.mem_append_left _ hi)
  obtain ⟨x, hx, stands⟩ := h.shows.stands draws owns
  refine ⟨x, hx, ?_⟩
  rcases stands with ⟨-, hnode⟩ | ⟨key, i, hs, seats, rfl⟩
  · -- A node of the host stands where its component has it.
    have hnode : δ.node r m = some x := tidy.node_host opens.host ▸ hnode
    refine ⟨hq', ⟨r, n, r, m, hq', hnode, Or.inl ⟨top, rfl, outline ▸ hm⟩⟩, fun hp hc => ?_,
      fun root => absurd (tidy.valid.inj hnode root).2 top, fun hs' _ _ hk he => ?_⟩
    · obtain ⟨n', hn', hp'⟩ := tidy.valid.up hnode top hc
      rw [outline] at hn'
      obtain rfl := childrenOf_unique hm hn'
      exact (Option.some.inj (hq'.symm.trans hp')).symm
    · have alive := alive (StashItem.mem_held hs' hk)
      exact absurd (he ▸ hnode) (tidy.valid.root_ne (tidy.node_root alive) top)
  · have hi := StashItem.mem_held hs (List.mem_singleton_self i)
    have root := tidy.node_root (alive hi)
    have lower : δ.definition (w.root i) < id := by
      obtain ⟨k, hlt, hk⟩ := h.ranks _ (List.mem_of_getElem? hs)
      obtain rfl := Option.some.inj ((tidy.definition_root (alive hi)).symm.trans hk)
      exact hlt
    refine ⟨hq', ⟨r, n, w.root i, 0, hq', root, Or.inr ⟨rfl, definition ▸ lower, ?_⟩⟩,
      fun hp hc => ?_, fun _ => ⟨i, hi, rfl⟩, fun {key' m' n' item k} hs' seats' hm' hk he => ?_⟩
    · rw [outline]
      exact List.ne_nil_of_mem hm
    · obtain rfl := tidy.tenant opens hi hp hc
      rw [tidy.node_host opens.host] at hp
      obtain rfl := h.shows.seats hs seats hm (List.mem_singleton_self i) hp hc
      exact Option.some.inj (hp.symm.trans hq)
    · -- An instance has its place at one entry of the stash, which stands for one child.
      obtain rfl := tidy.apart (alive (StashItem.mem_held hs' hk)) (alive hi) he
      have nodup := (List.nodup_append.mp tidy.nodup_hand).1
      obtain rfl := StashItem.eq_of_held nodup hs' hs hk (List.mem_singleton_self _)
      obtain rfl := draws.regular.eq_of_rendered seats' seats
      exact childrenOf_unique hm' hm

section Move

variable (h : w.Minds L id r busy lost hand elements stash) (opens : L.Opens id r hand)
  (tidy : w.Tidy L δ busy lost (stash.flatMap StashItem.held ++ hand))
  (guest : w.Guest L δ id r stash n q x) (irregular : ¬ (L.plan id).Regular n)

include h opens tidy guest irregular

/-- When only an element changes from which some nodes may be taken out, the host shows its stash. -/
theorem Minds.move {d : Document Listener} (valid : δ.Valid L.plan d)
    (same : ∀ {p}, p ≠ q → x ∉ w.document.children p → d.children p = w.document.children p)
    (fewer : ∀ {c}, c ∈ d.children q → c ∈ w.document.children q ∨ c = x) :
    World.Minds L id r busy lost hand elements stash { w with document := d } := by
  have node {n : Nat} {p : NodeId} (hp : L.deeds.node r n = some p) : δ.node r n = some p :=
    tidy.node_host opens.host ▸ hp
  have keep {b m p} (hp : δ.node b m = some p) (hne : p ≠ q) :
      d.children p = w.document.children p := same hne fun hc => hne (guest.only hp hc)
  have free : ¬ L.still q := opens.free (tidy.node_host opens.host ▸ guest.node)
  refine ⟨⟨δ, tidy.editIn valid opens.host guest.node free keep fun c hc hr => ?_⟩, h.ranks,
    h.shows.rewrite (fun {n' p} regular hp => ?_)
      (fun {key m n₁ n' item k p} hs seats hm hk hp hc => ?_) fun _ _ => rfl⟩
  · rcases fewer hc with hc | rfl
    · exact Or.inl hc
    · obtain ⟨k, hk, root⟩ := guest.mine hr
      refine Or.inr ⟨k, List.mem_append_left _ hk, root, opens.takes.mpr fun hin => ?_⟩
      exact (List.nodup_append.mp tidy.nodup_hand).2.2 k hk k hin rfl
  · refine keep (node hp) ?_
    rintro rfl
    obtain rfl := (tidy.valid.inj guest.node (node hp)).2
    exact irregular regular
  · by_cases hpq : p = q
    · subst hpq
      rcases fewer hc with hc | hc
      · exact Or.inl hc
      · refine Or.inr ?_
        rw [guest.unique hs seats hm hk hc]
        exact (tidy.valid.inj guest.node (node hp)).2.symm
    · exact Or.inl (keep (node hp) hpq ▸ hc)

/-- The node is put into its parent. -/
theorem Minds.putIn (reference : Option NodeId) :
    World.Minds L id r busy lost hand elements stash
      { w with document := w.document.insertBefore q x reference } := by
  refine h.move opens tidy guest irregular (tidy.valid.insertBefore guest.fits reference)
    (fun {p} hne hx => ?_) fun {c} hc => ?_
  · exact tidy.valid.sound.children_insertBefore_of_not_mem (tidy.valid.live guest.node) hne hx _
  · exact (Document.mem_children_insertBefore hc).symm.imp (Document.children_without_subset _ _ ·)
      And.right

/-- The node is taken out of its parent. -/
theorem Minds.takeOut : World.Minds L id r busy lost hand elements stash
    { w with document := w.document.remove q x } := by
  have sound := tidy.valid.sound
  refine h.move opens tidy guest irregular (tidy.valid.remove q x) (fun {p} hne _ => ?_) fun {c} hc => ?_
  · rw [sound.children_remove, if_neg hne]
  · exact Or.inl (sound.children_remove_subset _ _ _ hc)

/-- The node is brought to where it has to be. -/
theorem Minds.apply (t : Tracker) (position : Nat) (visible : Bool) :
    World.Minds L id r busy lost hand elements stash
      { w with document := (t.apply w.document position q x visible).2.1 } := by
  unfold Tracker.apply
  split
  · exact h
  · split
    · exact h.putIn opens tidy guest irregular _
    · exact h.takeOut opens tidy guest irregular

end Move

end World

/-! ## Handing a repeater over -/

/-- What an entry shows it shows once, if it holds it once. -/
theorem StashItem.nodup_shown {item : StashItem} (h : item.Even) (nodup : item.held.Nodup) :
    item.shown.Nodup := by
  cases item with
  | tracker => exact List.nodup_nil
  | child i => exact List.nodup_singleton i
  | sequential r => exact nodup.sublist (List.take_sublist ..)
  | keyed r => exact (Keyed.inOrder_perm h).nodup_iff.mpr nodup

/-- The block of the repeater that stands for a child of a node, in the container `q`. -/
def Blueprint.block (B : Blueprint) (node : Nat → Option NodeId) (root : InstanceId → NodeId)
    (stash : List StashItem) (n m : Nat) (q : NodeId) (definition : DefinitionId) : Block where
  container := q
  definition := definition
  regular := B.Regular n
  before := ((B.outline.childrenOf n).filter (· < m)).flatMap (B.cell node root stash)
  after := ((B.outline.childrenOf n).filter (m < ·)).flatMap (B.cell node root stash)

namespace World

open Blueprint

variable {L : Reserve} {δ : Deeds} {id definition : DefinitionId} {r : NodeId}
  {busy lost hand : List InstanceId} {elements : List NodeId} {stash : List StashItem}
  {w v : World} {n m : Nat} {q : NodeId} {key : StashIndex} {item item' : StashItem}
  {anchors : List Anchor}

/-- What is in hand beside a repeater: what the other entries of the stash hold, and what was in hand
before. -/
def besides (stash : List StashItem) (key : StashIndex) (hand : List InstanceId) : List InstanceId :=
  (stash.eraseIdx key).flatMap StashItem.held ++ hand

/-- What another entry of the stash holds is besides the entry at the key. -/
theorem mem_besides {k : StashIndex} {other : StashItem} (hne : k ≠ key)
    (hk : stash[k]? = some other) {i : InstanceId} (hi : i ∈ other.held) :
    i ∈ besides stash key hand :=
  List.mem_append_left _ (List.mem_flatMap.mpr
    ⟨other, List.mem_eraseIdx_iff_getElem?.mpr ⟨k, hne, hk⟩, hi⟩)

section HandOver

variable (h : w.Minds L id r busy lost hand elements stash) (opens : L.Opens id r hand)
  (tidy : w.Tidy L δ busy lost (stash.flatMap StashItem.held ++ hand))
  (hs : stash[key]? = some item) (repeats : (L.plan id).layout.Repeats m key)
  (hm : m ∈ (L.plan id).outline.childrenOf n) (hq : L.deeds.node r n = some q)

include opens tidy in
/-- While only the children of one node may change, roots stay, and the children of the other nodes of
the host. -/
theorem Tidy.kept {others : List InstanceId} (neat : v.Neat (L.freeze w δ (· ≠ q)) busy lost others) :
    (∀ i ∈ stash.flatMap StashItem.held, v.root i = w.root i) ∧
      ∀ {n' p}, L.deeds.node r n' = some p → p ≠ q →
        v.document.children p = w.document.children p := by
  obtain ⟨δ', tidy'⟩ := neat
  refine ⟨fun i hi => ?_, fun {n' p} hp hne => ?_⟩
  · exact tidy'.roots i (tidy.lt_of_alive (tidy.inHand i (List.mem_append_left _ hi)))
  · have node : δ.node r n' = some p := tidy.node_host opens.host ▸ hp
    have node' : δ'.node r n' = some p := tidy'.node_host (r := r) opens.host ▸ node
    exact tidy'.still opens.host node' hne

variable (key) in
include opens tidy hm hq in
/-- The container of the repeater is the site of its block. -/
theorem Tidy.site (lower : definition < id) :
    (L.freeze w δ (· ≠ q)).Site r n
      ((L.plan id).block (L.deeds.node r) w.root stash n m q definition) (besides stash key hand) where
  host := opens.host
  node := (congrFun (tidy.node_host opens.host) n).trans hq
  still _ := Iff.rfl
  takes hk := opens.takes.mpr fun hin => hk (List.mem_append_right _ hin)
  lower := by
    show definition < δ.definition r
    rw [(tidy.hosts opens.host).2, opens.definition]
    exact lower
  parent := by
    show (δ.outline L.plan r).childrenOf n ≠ []
    rw [tidy.outline_host opens]
    exact List.ne_nil_of_mem hm

include h opens tidy hs repeats

/-- What is shown of another child entry is no root of an instance of the repeater. -/
theorem Minds.not_mem_cell {m' : Nat} (hne : m' ≠ m) (hm' : m' ∈ (L.plan id).outline.childrenOf n)
    {i : InstanceId} (hi : i ∈ item.held) :
    w.root i ∉ (L.plan id).cell (L.deeds.node r) w.root stash m' := by
  obtain ⟨_, draws⟩ := opens.draws
  have alive {i : InstanceId} (hi : i ∈ stash.flatMap StashItem.held) : δ.alive i :=
    tidy.inHand i (List.mem_append_left _ hi)
  intro hc
  unfold Blueprint.cell at hc
  split at hc
  · next other ho =>
    obtain ⟨key', hk', ho⟩ := Option.bind_eq_some_iff.mp ho
    obtain ⟨j, hj, he⟩ := List.mem_map.mp hc
    have hj := StashItem.shown_subset (h.shows.even other (List.mem_of_getElem? ho)) hj
    obtain rfl :=
      tidy.apart (alive (StashItem.mem_held ho hj)) (alive (StashItem.mem_held hs hi)) he
    obtain rfl := StashItem.eq_of_held (List.nodup_append.mp tidy.nodup_hand).1 ho hs hj hi
    exact hne (draws.regular.eq_of_rendered (draws.regular.keyOf_eq_some_iff.mp hk') (Or.inr repeats))
  · -- The node of a child entry is no root.
    have top : m' ≠ 0 := Nat.ne_of_gt (Nat.zero_lt_of_lt (Outline.lt_of_mem_childrenOf hm').1)
    have mine : δ.node r m' = some (w.root i) := by
      rw [tidy.node_host opens.host]
      simpa using hc
    exact tidy.valid.root_ne (tidy.node_root (alive (StashItem.mem_held hs hi))) top mine

include hm hq

/-- A repeater of a host is a block of its container. -/
theorem Minds.handOver (ranks : ∀ k ∈ item.held, w.definition? k = some definition)
    (rank : ∀ id, definition < id → item.Ranks w id) :
    w.Serves (L.freeze w δ (· ≠ q))
      ((L.plan id).block (L.deeds.node r) w.root stash n m q definition) busy lost
      (besides stash key hand) item.anchors item := by
  obtain ⟨_, draws⟩ := opens.draws
  have seats : (L.plan id).layout.Seats key m := Or.inr repeats
  have keyOf := draws.regular.keyOf_eq_some_iff.mpr seats
  have even := h.shows.even item (List.mem_of_getElem? hs)
  have perm := (StashItem.perm_set hs item).2
  have nodup := (List.nodup_append.mp tidy.nodup_hand).1
  have away {side : List Nat} (hside : ∀ m' ∈ side, m' ≠ m ∧ m' ∈ (L.plan id).outline.childrenOf n)
      {i : InstanceId} (hi : i ∈ item.held) :
      w.root i ∉ side.flatMap ((L.plan id).cell (L.deeds.node r) w.root stash) := by
    intro hc
    obtain ⟨m', hm', hc⟩ := List.mem_flatMap.mp hc
    exact h.not_mem_cell opens tidy hs repeats (hside m' hm').1 (hside m' hm').2 hi hc
  refine
    { ranks := rank, anchors := rfl, even := even
      tends :=
        { neat := ⟨δ, (tidy.freeze _).perm ?_⟩
          ranks := ranks
          loose := fun i hi b m' p hb hp hstill hc => ?_
          subset := StashItem.shown_subset even
          nodup := StashItem.nodup_shown even ?_
          apart := fun regular i hi => ?_
          children := fun regular => ?_
          others := fun _ _ hc => hc } }
  · rw [besides, ← List.append_assoc]
    exact perm.symm.append_right hand
  · -- They stand in the container, if anywhere.
    have hp : δ.node b m' = some p := hp
    obtain rfl := tidy.tenant opens (StashItem.mem_held hs hi) hp hc
    rw [tidy.node_host opens.host] at hp
    obtain rfl := h.shows.seats hs seats hm hi hp hc
    exact hstill (Option.some.inj (hp.symm.trans hq))
  · exact (List.nodup_append.mp (perm.nodup_iff.mp nodup)).1
  · refine List.mem_append.not.mpr (not_or.mpr ⟨away (fun m' hm' => ?_) hi, away (fun m' hm' => ?_) hi⟩)
    · obtain ⟨hm', hlt⟩ := List.mem_filter.mp hm'
      exact ⟨Nat.ne_of_lt (by simpa using hlt), hm'⟩
    · obtain ⟨hm', hlt⟩ := List.mem_filter.mp hm'
      exact ⟨Nat.ne_of_gt (by simpa using hlt), hm'⟩
  · show w.document.children q = _
    rw [h.shows.contents regular hq, childrenOf_split _ hm, List.flatMap_append, List.flatMap_cons,
      cell_of_key keyOf hs]
    rfl

section TakeBack

variable (h' : v.Serves (L.freeze w δ (· ≠ q))
    ((L.plan id).block (L.deeds.node r) w.root stash n m q definition) busy lost
    (besides stash key hand) item.anchors item')

include h'

/-- Each element shows what its child entries show then. -/
theorem Minds.contents_back {n' : Nat} {p : NodeId} (regular : (L.plan id).Regular n')
    (hp : L.deeds.node r n' = some p) : v.document.children p =
      ((L.plan id).outline.childrenOf n').flatMap
        ((L.plan id).cell (L.deeds.node r) v.root (stash.set key item')) := by
  obtain ⟨_, draws⟩ := opens.draws
  obtain ⟨roots, still⟩ := tidy.kept opens h'.tends.neat
  have seats : (L.plan id).layout.Seats key m := Or.inr repeats
  have keyOf := draws.regular.keyOf_eq_some_iff.mpr seats
  have node {n : Nat} {p : NodeId} (hp : L.deeds.node r n = some p) : δ.node r n = some p :=
    tidy.node_host opens.host ▸ hp
  have same {m' : Nat} (hne : m' ≠ m) :
      (L.plan id).cell (L.deeds.node r) v.root (stash.set key item') m'
        = (L.plan id).cell (L.deeds.node r) w.root stash m' := by
    rw [cell_set, cell_roots h.shows.even roots]
    exact fun hk =>
      hne (draws.regular.eq_of_rendered (draws.regular.keyOf_eq_some_iff.mp hk) seats)
  have side {ms : List Nat} (hside : ∀ m' ∈ ms, m' ≠ m) :
      ms.flatMap ((L.plan id).cell (L.deeds.node r) w.root stash)
        = ms.flatMap ((L.plan id).cell (L.deeds.node r) v.root (stash.set key item')) :=
    List.flatMap_congr fun m' hm' => (same (hside m' hm')).symm
  by_cases hpq : p = q
  · -- In the container the rows stand between what the earlier and the later children show.
    subst hpq
    obtain rfl := (tidy.valid.inj (node hq) (node hp)).2
    rw [childrenOf_split _ hm, List.flatMap_append, List.flatMap_cons, cell_set_self keyOf hs,
      ← side fun m' hm' => Nat.ne_of_lt (by simpa using (List.mem_filter.mp hm').2),
      ← side fun m' hm' => Nat.ne_of_gt (by simpa using (List.mem_filter.mp hm').2)]
    exact h'.tends.children regular
  · rw [still hp hpq, h.shows.contents regular hp]
    refine List.flatMap_congr fun m' hm' => (same ?_).symm
    rintro rfl
    obtain rfl := childrenOf_unique hm hm'
    exact hpq (Option.some.inj (hp.symm.trans hq))

/-- What the repeater has become is taken back. -/
theorem Minds.takeBack (kind : item'.kind = item.kind) (anchors : item'.anchors = item.anchors)
    (child : ∀ i, item ≠ .child i) (lower : definition < id) :
    v.Minds L id r busy lost hand elements (stash.set key item') := by
  obtain ⟨_, draws⟩ := opens.draws
  obtain ⟨δ', tidy'⟩ := h'.tends.neat
  obtain ⟨roots, still⟩ := tidy.kept opens h'.tends.neat
  have seats : (L.plan id).layout.Seats key m := Or.inr repeats
  have node {n : Nat} {p : NodeId} (hp : L.deeds.node r n = some p) : δ.node r n = some p :=
    tidy.node_host opens.host ▸ hp
  refine ⟨⟨δ', (tidy.thaw tidy' fun hb hp hstill => ?_).perm ?_⟩, fun other hin => ?_, ?_⟩
  · rintro rfl
    exact opens.free ((congrFun (tidy.node_host opens.host) _ ▸ node hq)) hstill
  · rw [besides, ← List.append_assoc]
    exact (StashItem.perm_set hs item').1.append_right hand
  · rcases List.mem_or_eq_of_mem_set hin with hin | rfl
    · refine (h.ranks other hin).grows fun {i k} hk => ?_
      rw [tidy'.defined i (isSome_definition?.mp (hk ▸ rfl))]
      exact hk
    · exact h'.ranks id lower
  · refine h.shows.put draws hs kind anchors h'.even (fun hc => ?_) roots
      (h.contents_back opens tidy hs repeats hm hq h')
      (fun {m' n₁ n' i p} hm' hn₁ hi hp hc => ?_) fun {k other i n' p} hne hk hi hp hc => ?_
    · cases item with
      | child i => exact absurd rfl (child i)
      | _ => cases hc
    · -- A row stands in no other node of the host, for those stay as they are.
      obtain rfl := draws.regular.eq_of_rendered hm' seats
      obtain rfl := childrenOf_unique hm hn₁
      by_contra hne
      refine h'.tends.loose i hi r n' p opens.host (node hp) (fun he => hne ?_) hc
      exact (tidy.valid.inj (node hp) (he ▸ node hq)).2
    · by_cases hpq : p = q
      · subst hpq
        have := h'.tends.others i (mem_besides hne hk hi)
        rw [roots i (StashItem.mem_held hk hi)] at this
        exact this hc
      · exact still hp hpq ▸ hc

end TakeBack

end HandOver

/-! ## Anchors -/

/-- What a repeater of a regular element puts in comes before all that stands after it: its anchor is
the first of that. -/
theorem Minds.anchorIn {s : Setting} (h : w.Minds L id r busy lost hand s.elements stash)
    (opens : L.Opens id r hand) (hq : L.deeds.node r n = some q) {siblings : List Nat}
    (marks : List.Forall₂ ((L.plan id).layout.Marks (L.plan id).outline) siblings anchors)
    (hm : ∀ m ∈ siblings, m ∈ (L.plan id).outline.childrenOf n) :
    Ends (w = ·) (Effect.anchorIn s stash q anchors)
      (fun anchor v => w = v ∧ ((L.plan id).Regular n → anchor =
        (siblings.flatMap ((L.plan id).cell (L.deeds.node r) w.root stash)).head?))
      fun stop _ => stop.GivenUp := by
  obtain ⟨_, draws⟩ := opens.draws
  obtain ⟨δ, tidy⟩ := h.neat
  induction marks with
  | nil => exact .pure fun v hv => ⟨hv, fun _ => rfl⟩
  | @cons m anchor siblings anchors mark _ ih =>
    rw [List.forall_mem_cons] at hm
    cases anchor with
    | slot slot =>
      obtain ⟨x, hx, hc⟩ := h.shows.slots mark.2
      refine Ends.get.bind fun v => .pointwise fun _ hv => ?_
      obtain ⟨rfl, rfl⟩ := hv
      rw [List.flatMap_cons, hc, hx]
      dsimp only
      by_cases hp : w.document.parent? x = some q
      · rw [Option.filter_some, if_pos (by simpa using hp)]
        exact .pure fun u hu => ⟨hu, fun _ => rfl⟩
      · -- In a regular element the node is there.
        rw [Option.filter_some, if_neg (by simpa using hp)]
        refine (ih hm.2).post fun a u hu => ⟨hu.1, fun regular => absurd ?_ hp⟩
        refine tidy.valid.sound.linked ?_
        rw [h.shows.contents regular hq]
        exact List.mem_flatMap.mpr ⟨m, hm.1, hc ▸ List.mem_singleton_self x⟩
    | repeater key =>
      obtain ⟨item, hs, child⟩ := h.shows.repeats draws mark
      have keyOf := draws.regular.keyOf_eq_some_iff.mpr (Or.inr mark)
      have head := StashItem.head?_eq (h.shows.even item (List.mem_of_getElem? hs)) child
      rw [List.flatMap_cons, cell_of_key keyOf hs]
      unfold Effect.anchorIn
      rw [hs, Option.bind_some, head]
      cases hshown : item.shown with
      | nil => exact ih hm.2 -- An empty repeater has no first root; the next anchor decides.
      | cons i rest =>
        refine (Ends.rootOf_eq fun _ _ => ⟨_, rfl⟩).bind fun root => .pure fun v hv => ?_
        exact ⟨hv.2, fun _ => congrArg some hv.1⟩

end World

end ComponentView
