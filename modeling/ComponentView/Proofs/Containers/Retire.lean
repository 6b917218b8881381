import ComponentView.Proofs.Containers.Tidy

/-! # Retirement in a tidy world

Putting an instance out of use leaves the world tidy. Dismounting takes the items of shared repeaters
out of their containers and changes nothing else that is shown; destroying ends the deeds of the
instance and of what it holds (`Run.retire_tidy`). -/

namespace ComponentView

namespace World

/-! ## What hosts still have -/

/-- Between two worlds some instances have been taken out of hosts, and nothing else of hosts has
changed. -/
structure Sweeps (L : Reserve) (gone : List InstanceId) (w later : World) : Prop where
  size : w.instances.size ≤ later.instances.size
  roots : ∀ i < w.instances.size, later.root i = w.root i
  defined : ∀ i < w.instances.size, later.definition? i = w.definition? i
  children : ∀ {b m q}, L.host b → L.deeds.node b m = some q →
    later.document.children q = (w.document.children q).filter (· ∉ gone.map w.root)

variable {L : Reserve} {δ δ' : Deeds} {busy lost lost' hand hand' gone others : List InstanceId}
  {w v later latest : World} {i k : InstanceId} {r q : NodeId}

namespace Sweeps

/-- A world that stays as it is sweeps nothing away. -/
theorem refl (L : Reserve) (w : World) : Sweeps L [] w w :=
  ⟨Nat.le_refl _, fun _ _ => rfl, fun _ _ => rfl, fun _ _ => by simp⟩

/-- What is swept away in two steps is swept away. -/
theorem trans (h : Sweeps L gone w later) (h' : Sweeps L others later latest)
    (known : ∀ k ∈ others, k < w.instances.size) : Sweeps L (gone ++ others) w latest where
  size := Nat.le_trans h.size h'.size
  roots i hi := (h'.roots i (Nat.lt_of_lt_of_le hi h.size)).trans (h.roots i hi)
  defined i hi := (h'.defined i (Nat.lt_of_lt_of_le hi h.size)).trans (h.defined i hi)
  children hb hq := by
    have same : others.map later.root = others.map w.root :=
      List.map_congr_left fun k hk => h.roots k (known k hk)
    rw [h'.children hb hq, h.children hb hq, same, List.filter_filter, List.map_append]
    refine List.filter_congr fun c _ => ?_
    simp only [List.mem_append, not_or, Bool.decide_and, Bool.and_comm]

/-- Where nothing is swept away the hosts keep their children. -/
theorem same (h : Sweeps L [] w later) {b : NodeId} {m : Nat} (hb : L.host b)
    (hq : L.deeds.node b m = some q) : later.document.children q = w.document.children q := by
  rw [h.children hb hq]
  simp

/-- Nothing stands where it has not stood before. -/
theorem subset (h : Sweeps L gone w later) {b : NodeId} {m : Nat} (hb : L.host b)
    (hq : L.deeds.node b m = some q) :
    later.document.children q ⊆ w.document.children q := by
  rw [h.children hb hq]
  exact List.filter_sublist.subset

end Sweeps

/-- The root of the instance stands in no host. -/
def Adrift (L : Reserve) (w : World) (k : InstanceId) : Prop :=
  ∀ b m q, L.host b → L.deeds.node b m = some q → w.root k ∉ w.document.children q

/-- The root of the instance stands in no node of a host that has to stay as it is. -/
def Loose (L : Reserve) (w : World) (k : InstanceId) : Prop :=
  ∀ b m q, L.host b → L.deeds.node b m = some q → L.still q → w.root k ∉ w.document.children q

/-- An instance that is adrift is loose. -/
theorem Adrift.loose (h : Adrift L w k) : Loose L w k := fun b m q hb hq _ => h b m q hb hq

namespace Tidy

/-- An instance that is alive exists. -/
theorem lt_of_alive (h : w.Tidy L δ busy lost hand) (hi : δ.alive i) : i < w.instances.size := by
  obtain ⟨inst, hinst, -⟩ := h.owner hi
  exact (Array.getElem?_eq_some_iff.mp hinst).1

/-- An instance that is held exists. -/
theorem lt_of_busy (h : w.Tidy L δ busy lost hand) (hb : i ∈ busy) : i < w.instances.size := by
  rcases h.ready i hb with hm | hs
  · exact isSome_definition?.mp (h.orderly.known i hm)
  · exact h.lt_of_alive (h.spared hs).2

/-- Where an operation has respected all nodes of hosts, they are as before. -/
theorem calm (h : w.Tidy L δ busy lost hand)
    (h' : v.Neat (L.freeze w δ fun _ => True) busy lost' hand') :
    v.Neat L busy lost' hand' ∧ Sweeps L [] w v := by
  obtain ⟨δ', h'⟩ := h'
  refine ⟨⟨δ', h.thaw h' fun _ _ _ => trivial⟩, h'.known, h'.roots, h'.defined, ?_⟩
  intro b m q hb hq
  have hq : δ.node b m = some q := h.node_host hb ▸ hq
  have hq' : δ'.node b m = some q := (h'.hosts (r := b) hb).1 ▸ hq
  rw [h'.still hb hq' trivial]
  simp [Reserve.freeze]

/-- The root of an instance in hand is taken out of where it stands. -/
theorem without (h : w.Tidy L δ busy lost hand) (hk : k ∈ hand) (loose : Loose L w k) :
    World.Tidy L δ busy lost hand { w with document := w.document.without (w.root k) } ∧
      Sweeps L [k] w { w with document := w.document.without (w.root k) } ∧
        Adrift L { w with document := w.document.without (w.root k) } k := by
  have children := h.valid.sound.children_without (w.root k)
  have keep {q : NodeId} (hq : w.root k ∉ w.document.children q) :
      (w.document.without (w.root k)).children q = w.document.children q := by
    rw [children]
    refine List.filter_eq_self.mpr fun c hc => ?_
    rw [decide_eq_true_eq]
    exact fun he => hq (he ▸ hc)
  refine ⟨h.edit (h.valid.without _) (fun {b m q} hb hq => keep fun hc => ?_)
    (fun hc _ _ _ => Or.inl ?_) fun {b m q} hb hq hs => keep ?_, ?_, fun b m q _ _ hc => ?_⟩
  · obtain ⟨b', m', hq', host, -⟩ := h.seat_of_hand hk hc
    exact hb ((h.valid.inj hq' hq).1 ▸ host)
  · rw [children] at hc
    exact List.filter_sublist.subset hc
  · exact loose b m q hb (h.node_host hb ▸ hq) hs
  · refine ⟨Nat.le_refl _, fun _ _ => rfl, fun _ _ => rfl, fun _ _ => ?_⟩
    rw [children]
    exact List.filter_congr fun c _ => by simp
  · have hc : w.root k ∈ (w.document.without (w.root k)).children q := hc
    rw [children] at hc
    simp at hc

/-- The root of an instance in hand is detached. -/
theorem detach (h : w.Tidy L δ busy lost hand) (hk : k ∈ hand) (loose : Loose L w k) :
    World.Tidy L δ busy lost hand { w with document := w.document.detach (w.root k) } ∧
      Sweeps L [k] w { w with document := w.document.detach (w.root k) } ∧
        Adrift L { w with document := w.document.detach (w.root k) } k := by
  obtain ⟨tidy, sweeps, adrift⟩ := h.without hk loose
  have same := Document.sameForest_detach w.document (w.root k)
  refine ⟨tidy.sameForest same (h.valid.wellFormed.detach _),
    { sweeps with children := fun hb hq => ?_ }, fun b m q hb hq => ?_⟩
  · exact (same.children _).trans (sweeps.children hb hq)
  · show w.root k ∉ (w.document.detach (w.root k)).children q
    rw [same.children]
    exact adrift b m q hb hq

/-- What is in hand and stands in no host of a tidy world is not seated at all. -/
theorem adrift_node (h : w.Tidy L δ busy lost hand) (adrift : Adrift L w k) :
    ∀ b m q, L.host b → δ.node b m = some q → w.root k ∉ w.document.children q :=
  fun b m q hb hq => adrift b m q hb (h.node_host hb ▸ hq)

end Tidy

/-- An instance stays adrift when others are swept away. -/
theorem Adrift.sweep (h : Adrift L w k) (hs : Sweeps L gone w later)
    (hk : k < w.instances.size) : Adrift L later k := fun b m q hb hq hc =>
  h b m q hb hq (hs.roots k hk ▸ hs.subset hb hq hc)

/-- An instance stays loose when others are swept away. -/
theorem Loose.sweep (h : Loose L w k) (hs : Sweeps L gone w later)
    (hk : k < w.instances.size) : Loose L later k := fun b m q hb hq hq' hc =>
  h b m q hb hq hq' (hs.roots k hk ▸ hs.subset hb hq hc)

end World

/-! ## One after another -/

namespace Retire

variable {retire : Retire} {L : Reserve} {δ : Deeds} {busy lost hand : List InstanceId}
  {id : DefinitionId} {w : World} {i k : InstanceId}

/-- Dismounting an instance in hand leaves the world tidy, and destroying it does too where it may be
taken out; the instance is lost then. -/
structure Tidies (retire : Retire) : Prop where
  dismount : ∀ (L : Reserve) (busy lost hand : List InstanceId) (i : InstanceId), i ∈ hand →
    Ends (World.Neat L busy lost hand) (retire .dismount i) (fun _ => World.Neat L busy lost hand)
      fun stop _ => stop.GivenUp
  destroy : ∀ (L : Reserve) (busy lost hand : List InstanceId) (i : InstanceId),
    Ends (fun w => w.Neat L busy lost (i :: hand) ∧ w.Loose L i) (retire .destroy i)
      (fun _ w => i ∉ busy ∧ w.Neat L busy (i :: lost) hand) fun stop _ => stop.GivenUp

section Steps

variable (tidies : Tidies retire)

include tidies

/-- Dismounting changes nothing of hosts. -/
theorem dismount_tidy (h : w.Neat L busy lost hand) (hi : i ∈ hand) :
    Ends (w = ·) (retire .dismount i)
      (fun _ later => later.Neat L busy lost hand ∧ World.Sweeps L [] w later)
      fun stop _ => stop.GivenUp := by
  obtain ⟨δ, h⟩ := h
  refine (tidies.dismount (L.freeze w δ fun _ => True) busy lost hand i hi).mono
    ?_ (fun _ v hv => h.calm hv) fun _ _ hs => hs
  rintro _ rfl
  exact ⟨δ, h.freeze _⟩

/-- Dismounting instances in hand keeps the world neat and sweeps nothing away. -/
theorem dismountAll_tidy {is : List InstanceId} (his : is ⊆ hand) (h : w.Neat L busy lost hand) :
    Ends (w = ·) (is.forM (retire .dismount))
      (fun _ later => later.Neat L busy lost hand ∧ World.Sweeps L [] w later)
      fun stop _ => stop.GivenUp := by
  refine (Ends.forM (P := fun later => later.Neat L busy lost hand ∧ World.Sweeps L [] w later)
    fun i hi => .pointwise fun v hv => ?_).pre ?_
  · exact (dismount_tidy tidies hv.1 (his hi)).post fun _ u hu =>
      ⟨hu.1, hv.2.trans hu.2 (by simp)⟩
  · rintro _ rfl
    exact ⟨h, .refl L w⟩

/-- An instance that is given back is taken out of where it stands. -/
theorem giveBack_tidy (h : w.Neat L busy lost (k :: hand)) (hd : w.definition? k = some id)
    (loose : w.Loose L k) :
    Ends (w = ·) (giveBack retire id k)
      (fun _ later => later.Neat L busy lost hand ∧ World.Sweeps L [k] w later)
      fun stop _ => stop.GivenUp := by
  obtain ⟨δ, h⟩ := h
  have lt := h.lt_of_alive (h.inHand k (List.mem_cons_self ..))
  obtain ⟨tidy, sweeps, adrift⟩ := h.detach (List.mem_cons_self ..) loose
  unfold giveBack
  refine (Ends.rootOf (fun _ _ => ⟨_, rfl⟩) fun _ _ => ⟨_, rfl⟩).bind fun root => ?_
  rintro v ⟨hroot, hb, rfl⟩
  have hroot : root = w.root k := by rw [World.root, World.root?, hroot]; rfl
  have hb : k ∉ busy := h.orderly.busy_eq ▸ hb
  subst hroot
  refine Ends.bind (Q := fun _ v => v = { w with document := w.document.detach (w.root k) })
    (.modify fun v hv => by rw [hv]) (fun _ => ?_) w rfl
  refine Ends.bind (Q := fun _ v => v.Neat L busy lost (k :: hand) ∧ World.Sweeps L [k] w v ∧
    World.Adrift L v k) ?_ fun _ => .modify fun v hv => ?_
  · refine (dismount_tidy tidies ⟨δ, tidy⟩ (List.mem_cons_self ..)).mono (fun v hv => hv.symm)
      (fun _ v hv => ?_) fun _ _ hs => hs
    exact ⟨hv.1, by simpa using sweeps.trans hv.2 (by simp), adrift.sweep hv.2 lt⟩
  · obtain ⟨⟨δ', tidy⟩, sweeps, adrift⟩ := hv
    have hd : v.definition? k = some id := (sweeps.defined k lt).trans hd
    exact ⟨⟨δ', tidy.push hd hb (tidy.adrift_node adrift)⟩, sweeps.size, sweeps.roots,
      sweeps.defined, sweeps.children⟩

/-- An instance that is dropped stands nowhere any more. -/
theorem drop_tidy (h : w.Neat L busy lost (k :: hand)) (hd : w.definition? k = some id)
    (adrift : w.Adrift L k) (share : Bool) :
    Ends (w = ·) (drop retire id share k)
      (fun _ later => later.Neat L busy lost hand ∧ World.Sweeps L [k] w later)
      fun stop _ => stop.GivenUp := by
  unfold drop
  split
  · exact giveBack_tidy tidies h hd adrift.loose
  · obtain ⟨δ, h⟩ := h
    refine (tidies.destroy (L.freeze w δ fun _ => True) busy lost hand k).mono
      ?_ (fun _ v hv => ?_) fun _ _ hs => hs
    · rintro _ rfl
      exact ⟨⟨δ, h.freeze _⟩, fun b m q hb hq _ => h.adrift_node adrift b m q hb hq⟩
    obtain ⟨⟨δ', tidy⟩, sweeps⟩ := h.calm hv.2
    refine ⟨⟨δ', tidy.forget hv.1⟩, sweeps.size, sweeps.roots, sweeps.defined, fun {b m q} hb hq => ?_⟩
    rw [sweeps.same hb hq]
    refine (List.filter_eq_self.mpr fun c hc => decide_eq_true ?_).symm
    rw [List.map_singleton, List.mem_singleton]
    exact fun he => adrift b m q hb hq (he ▸ hc)

/-- Instances that are cleared are taken out of where they stand. -/
theorem clear_tidy (share : Bool) {is : List InstanceId} (h : w.Neat L busy lost (is ++ hand))
    (hd : ∀ k ∈ is, w.definition? k = some id) (loose : ∀ k ∈ is, w.Loose L k) :
    Ends (w = ·) (clear retire id share is)
      (fun _ later => later.Neat L busy lost hand ∧ World.Sweeps L is w later)
      fun stop _ => stop.GivenUp := by
  induction is generalizing w with
  | nil =>
    refine .pure ?_
    rintro _ rfl
    exact ⟨h, .refl L w⟩
  | cons k is ih =>
    rw [List.forall_mem_cons] at hd loose
    have known : ∀ j ∈ k :: is, j < w.instances.size := by
      obtain ⟨δ, h⟩ := h
      exact fun j hj => h.lt_of_alive (h.inHand j (List.mem_append_left _ hj))
    rw [List.forall_mem_cons] at known
    refine Ends.bind (Q := fun _ v => v.Neat L busy lost (is ++ hand) ∧ World.Sweeps L [k] w v) ?_
      fun _ => .pointwise fun v hv => ?_
    · obtain ⟨δ, h⟩ := h
      obtain ⟨tidy, sweeps, adrift⟩ := h.detach (List.mem_cons_self ..) loose.1
      refine (Ends.rootOf (fun _ _ => ⟨_, rfl⟩) fun _ _ => ⟨_, rfl⟩).bind fun root => ?_
      rintro v ⟨hroot, hb, rfl⟩
      have hroot : root = w.root k := by rw [World.root, World.root?, hroot]; rfl
      subst hroot
      refine Ends.bind (Q := fun _ v => v = { w with document := w.document.detach (w.root k) })
        (.modify fun v hv => by rw [hv]) (fun _ => ?_) w rfl
      refine (drop_tidy tidies ⟨δ, tidy⟩ hd.1 adrift share).mono (fun v hv => hv.symm)
        (fun _ v hv => ⟨hv.1, ?_⟩) fun _ _ hs => hs
      have both := sweeps.trans hv.2 (by simpa using known.1)
      refine ⟨both.size, both.roots, both.defined, fun hb hq => (both.children hb hq).trans ?_⟩
      simp
    · obtain ⟨neat, sweeps⟩ := hv
      refine (ih neat (fun j hj => (sweeps.defined j (known.2 j hj)).trans (hd.2 j hj))
        fun j hj => (loose.2 j hj).sweep sweeps (known.2 j hj)).post fun _ u hu => ?_
      exact ⟨hu.1, by simpa using sweeps.trans hu.2 known.2⟩

end Steps

end Retire

/-! ## A copy that shows a stash -/

/-- The copy is a host. What is in hand beside its own instances stands in other hosts, and none of
its nodes has to stay as it is. -/
structure Reserve.Opens (L : Reserve) (id : DefinitionId) (r : NodeId) (hand : List InstanceId) :
    Prop where
  host : L.host r
  definition : L.deeds.definition r = id
  draws : ∃ t, (L.plan id).Draws t
  takes : ∀ {k}, L.lodges r k ↔ k ∉ hand
  closed : ∀ {b k}, L.lodges b k → b ≠ r → k ∈ hand
  free : ∀ {n q}, L.deeds.node r n = some q → ¬ L.still q

namespace World

variable {L : Reserve} {δ : Deeds} {busy lost hand own gone : List InstanceId} {w later : World}
  {id : DefinitionId} {r : NodeId} {i k : InstanceId} {elements : List NodeId}
  {stash : List StashItem} {key : StashIndex} {item item' : StashItem}

/-- The order of the instances in hand does not matter. -/
theorem Neat.perm (h : w.Neat L busy lost hand) {other : List InstanceId}
    (hp : other.Perm hand) : w.Neat L busy lost other := by
  obtain ⟨δ, h⟩ := h
  exact ⟨δ, h.perm hp⟩

/-- An instance keeps its definition when others are swept away. -/
theorem Sweeps.grown (h : Sweeps L gone w later) {k : DefinitionId}
    (hi : w.definition? i = some k) : later.definition? i = some k := by
  rw [h.defined i (isSome_definition?.mp (hi ▸ rfl))]
  exact hi

namespace Tidy

/-- A new host opens when it is entered. -/
theorem opens (h : w.Tidy L δ busy lost hand) (idle : ¬ L.host r)
    (definition : δ.definition r = id) {t : Template} (draws : (L.plan id).Draws t) :
    (L.enter w δ r hand).Opens id r hand where
  host := Or.inr rfl
  definition := definition
  draws := ⟨t, draws⟩
  takes := ⟨fun lodges => lodges.1 rfl, fun hk => ⟨fun _ => hk, fun hne => absurd rfl hne⟩⟩
  closed lodges hne := (lodges.2 hne).2
  free hq hs := by
    obtain ⟨-, b, m, host, hb⟩ := hs
    exact idle ((h.valid.inj hb hq).1 ▸ host)

/-- The own instances of a host stand nowhere else. -/
theorem tenant (h : w.Tidy L δ busy lost (own ++ hand)) (opens : L.Opens id r hand) (hk : k ∈ own)
    {b q : NodeId} {m : Nat} (hq : δ.node b m = some q)
    (hc : w.root k ∈ w.document.children q) : b = r := by
  obtain ⟨b', m', hq', -, lodges⟩ := h.seat_of_hand (List.mem_append_left _ hk) hc
  obtain rfl := (h.valid.inj hq' hq).1
  by_contra hne
  exact (List.nodup_append.mp h.nodup_hand).2.2 k hk k (opens.closed lodges hne) rfl

/-- What a held instance holds is loose. -/
theorem loose (h : w.Tidy L δ busy lost (own ++ hand)) (opens : L.Opens id r hand) (hk : k ∈ own) :
    w.Loose L k := by
  intro b m q hb hq hs hc
  obtain rfl := h.tenant opens hk (h.node_host hb ▸ hq) hc
  exact opens.free hq hs

end Tidy

/-- The copy shows a stash, and what the stash holds is in hand. -/
structure Minds (L : Reserve) (id : DefinitionId) (r : NodeId) (busy lost hand : List InstanceId)
    (elements : List NodeId) (stash : List StashItem) (w : World) : Prop where
  neat : w.Neat L busy lost (stash.flatMap StashItem.held ++ hand)
  ranks : ∀ item ∈ stash, item.Ranks w id
  shows : (L.plan id).Shows (L.deeds.node r) w.root w.document.children elements stash

end World

/-- What a stash holds when one of its entries is replaced. -/
theorem StashItem.perm_set {stash : List StashItem} {key : StashIndex} {item : StashItem}
    (hs : stash[key]? = some item) (item' : StashItem) :
    ((stash.set key item').flatMap held).Perm
        (item'.held ++ (stash.eraseIdx key).flatMap held) ∧
      (stash.flatMap held).Perm (item.held ++ (stash.eraseIdx key).flatMap held) := by
  obtain ⟨hlt, rfl⟩ := List.getElem?_eq_some_iff.mp hs
  rw [List.eraseIdx_eq_take_drop_succ, List.flatMap_append]
  constructor
  · rw [List.set_eq_take_append_cons_drop, if_pos hlt, List.flatMap_append, List.flatMap_cons]
    exact List.perm_append_comm_assoc ..
  · conv => lhs; rw [← List.take_append_drop key stash, List.drop_eq_getElem_cons hlt,
      List.flatMap_append, List.flatMap_cons]
    exact List.perm_append_comm_assoc ..

namespace World

open Blueprint

variable {L : Reserve} {δ : Deeds} {busy lost hand own gone : List InstanceId} {w later : World}
  {id : DefinitionId} {r : NodeId} {i k : InstanceId} {elements : List NodeId}
  {stash : List StashItem} {key : StashIndex} {item item' : StashItem}

section Sweep

variable (h : w.Minds L id r busy lost hand elements stash) (opens : L.Opens id r hand)
  (tidy : w.Tidy L δ busy lost (stash.flatMap StashItem.held ++ hand)) (hs : stash[key]? = some item)
  (sweeps : Sweeps L gone w later) (subset : gone ⊆ item.held)

include h opens tidy hs sweeps subset

/-- What is shown of a child entry after instances of one entry of the stash have been taken out is
what was shown of it, less their roots. -/
theorem Minds.cell_sweep (shown : item'.shown = item.shown.filter (· ∉ gone)) {m n : Nat}
    (hm : m ∈ (L.plan id).outline.childrenOf n) :
    ((L.plan id).cell (L.deeds.node r) w.root stash m).filter (· ∉ gone.map w.root)
      = (L.plan id).cell (L.deeds.node r) later.root (stash.set key item') m := by
  have alive {i : InstanceId} (hi : i ∈ stash.flatMap StashItem.held) : δ.alive i :=
    tidy.inHand i (List.mem_append_left _ hi)
  have roots (i : InstanceId) (hi : i ∈ stash.flatMap StashItem.held) :
      later.root i = w.root i := sweeps.roots i (tidy.lt_of_alive (alive hi))
  -- A node of the copy is no root of an instance.
  have node : ((L.deeds.node r m).toList).filter (· ∉ gone.map w.root)
      = (L.deeds.node r m).toList := by
    have top : m ≠ 0 := Nat.ne_of_gt (Nat.zero_lt_of_lt (Outline.lt_of_mem_childrenOf hm).1)
    refine List.filter_eq_self.mpr fun x hx => decide_eq_true fun hm => ?_
    obtain ⟨j, hj, rfl⟩ := List.mem_map.mp hm
    have mine : δ.node r m = some (w.root j) := by
      rw [tidy.node_host opens.host]
      simpa using hx
    exact tidy.valid.root_ne (tidy.node_root (alive (StashItem.mem_held hs (subset hj)))) top mine
  -- Only the instances that are gone have their roots.
  have items {k : StashIndex} {other : StashItem} (ho : stash[k]? = some other) :
      (other.shown.map w.root).filter (· ∉ gone.map w.root)
        = (other.shown.filter (· ∉ gone)).map later.root := by
    have inside {i : InstanceId} (hi : i ∈ other.shown) : i ∈ stash.flatMap StashItem.held :=
      StashItem.mem_held ho
        (StashItem.shown_subset (h.shows.even other (List.mem_of_getElem? ho)) hi)
    rw [List.filter_map, List.map_congr_left fun i hi => roots i (inside (List.mem_of_mem_filter hi))]
    refine congrArg _ (List.filter_congr fun i hi => decide_eq_decide.mpr (not_congr ?_))
    refine ⟨fun hm => ?_, List.mem_map_of_mem⟩
    obtain ⟨j, hj, he⟩ := List.mem_map.mp hm
    exact tidy.apart (alive (StashItem.mem_held hs (subset hj))) (alive (inside hi)) he ▸ hj
  cases hk : (L.plan id).layout.keyOf m with
  | none => rw [cell_of_none hk, cell_of_none hk, node]
  | some k =>
    by_cases he : k = key
    · subst he
      rw [cell_of_key hk hs, cell_set_self hk hs, items hs, shown]
    · rw [cell_set (hk ▸ fun hk' => he (Option.some.inj hk'))]
      cases ho : stash[k]? with
      | none => rw [cell_of_absent hk ho, cell_of_absent hk ho, node]
      | some other =>
        have mine {i : InstanceId} (hi : i ∈ other.shown) : i ∈ other.held :=
          StashItem.shown_subset (h.shows.even other (List.mem_of_getElem? ho)) hi
        rw [cell_of_key hk ho, cell_of_key hk ho, items ho, List.filter_eq_self.mpr]
        refine fun i hi => decide_eq_true fun hg => he ?_
        exact StashItem.eq_of_held (List.nodup_append.mp tidy.nodup_hand).1 ho hs (mine hi) (subset hg)

end Sweep

/-- An entry of the stash has been cleared, or nothing has been taken out. -/
theorem Minds.sweep (h : w.Minds L id r busy lost hand elements stash) (opens : L.Opens id r hand)
    (hs : stash[key]? = some item)
    (neat : later.Neat L busy lost ((stash.set key item').flatMap StashItem.held ++ hand))
    (sweeps : Sweeps L gone w later) (subset : gone ⊆ item.held)
    (shown : item'.shown = item.shown.filter (· ∉ gone)) (held : item'.held ⊆ item.held)
    (kind : item'.kind = item.kind) (anchors : item'.anchors = item.anchors) (even : item'.Even)
    (child : item.kind = .child → item' = item) (ranks : item'.Ranks later id) :
    later.Minds L id r busy lost hand elements (stash.set key item') := by
  obtain ⟨δ, tidy⟩ := h.neat
  obtain ⟨t, draws⟩ := opens.draws
  have roots (i : InstanceId) (hi : i ∈ stash.flatMap StashItem.held) :
      later.root i = w.root i :=
    sweeps.roots i (tidy.lt_of_alive (tidy.inHand i (List.mem_append_left _ hi)))
  refine ⟨neat, fun other hm => ?_, ?_⟩
  · rcases List.mem_or_eq_of_mem_set hm with hm | rfl
    · exact (h.ranks other hm).grows sweeps.grown
    · exact ranks
  · refine h.shows.put draws hs kind anchors even child roots (fun {n p} regular hp => ?_)
      (fun {m n n' i q} hm hn hi hq hc => ?_) fun _ hk hi hq hc => ?_
    · rw [sweeps.children opens.host hp, h.shows.contents regular hp, List.filter_flatMap]
      exact List.flatMap_congr fun m hm => h.cell_sweep opens tidy hs sweeps subset shown hm
    · rw [roots i (StashItem.mem_held hs (held hi))] at hc
      exact h.shows.seats hs hm hn (held hi) hq (sweeps.subset opens.host hq hc)
    · exact sweeps.subset opens.host hq hc

/-- Nothing has been taken out of hosts. -/
theorem Minds.calm (h : w.Minds L id r busy lost hand elements stash) (opens : L.Opens id r hand)
    (neat : later.Neat L busy lost (stash.flatMap StashItem.held ++ hand))
    (sweeps : Sweeps L [] w later) : later.Minds L id r busy lost hand elements stash := by
  obtain ⟨δ, tidy⟩ := h.neat
  refine ⟨neat, fun item hm => (h.ranks item hm).grows sweeps.grown,
    h.shows.congr (fun hq => sweeps.same opens.host hq) fun i hi => ?_⟩
  exact sweeps.roots i (tidy.lt_of_alive (tidy.inHand i (List.mem_append_left _ hi)))

/-- What is at a slot is live. -/
theorem Minds.live (h : w.Minds L id r busy lost hand elements stash) (opens : L.Opens id r hand)
    {slot n : Nat} (owns : (L.plan id).layout.Owns slot n) :
    ∃ x, elements[slot]? = some x ∧ w.document.isLive x = true := by
  obtain ⟨δ, tidy⟩ := h.neat
  obtain ⟨x, hx, whose⟩ := h.shows.whose owns
  refine ⟨x, hx, ?_⟩
  rcases whose with ⟨n, hn⟩ | ⟨k, hk, rfl⟩
  · rw [← tidy.node_host opens.host] at hn
    exact tidy.valid.live hn
  · exact tidy.valid.live (tidy.node_root (tidy.inHand k (List.mem_append_left _ hk)))

/-- The repeater has been emptied. -/
theorem Minds.cleared (h : w.Minds L id r busy lost hand elements stash) (opens : L.Opens id r hand)
    (hs : stash[key]? = some item)
    (neat : later.Neat L busy lost ((stash.eraseIdx key).flatMap StashItem.held ++ hand))
    (sweeps : Sweeps L gone w later) (subset : gone ⊆ item.held) (shown : item.shown ⊆ gone)
    (kind : item'.kind = item.kind) (anchors : item'.anchors = item.anchors) (even : item'.Even)
    (held : item'.held = []) (child : item.kind ≠ .child) (ranks : item'.Ranks later id) :
    later.Minds L id r busy lost hand elements (stash.set key item') := by
  have none : item'.shown = [] := List.eq_nil_of_subset_nil (held ▸ StashItem.shown_subset even)
  refine h.sweep opens hs (neat.perm ?_) sweeps subset ?_ (by simp [held]) kind anchors even
    (fun hc => absurd hc child) ranks
  · have perm := (StashItem.perm_set hs item').1
    rw [held, List.nil_append] at perm
    exact perm.append_right hand
  · rw [none, eq_comm, List.filter_eq_nil_iff]
    exact fun i hi => by simpa using shown hi

end World

/-! ## Dismounting a stash -/

namespace Retire

variable {retire : Retire} {L : Reserve} {busy lost hand : List InstanceId} {w : World}
  {id : DefinitionId} {r : NodeId} {elements : List NodeId} {stash : List StashItem}
  {key : StashIndex} {item : StashItem} {t : Template}

/-- Dismounting an entry empties a shared repeater; it changes nothing else that the copy shows. -/
theorem dismount_entry (tidies : Tidies retire) (opens : L.Opens id r hand)
    (h : w.Minds L id r busy lost hand elements stash)
    (hs : stash[key]? = some item) :
    Ends (w = ·) (entry retire .dismount item)
      (fun item' later => later.Minds L id r busy lost hand elements (stash.set key item'))
      fun stop _ => stop.GivenUp := by
  have same : stash.set key item = stash := StashItem.set_self hs
  have mem {i : InstanceId} (hi : i ∈ item.held) : i ∈ stash.flatMap StashItem.held ++ hand :=
    List.mem_append_left _ (StashItem.mem_held hs hi)
  have even := h.shows.even item (List.mem_of_getElem? hs)
  have ranks := h.ranks item (List.mem_of_getElem? hs)
  have loose {i : InstanceId} (hi : i ∈ item.held) : w.Loose L i := by
    obtain ⟨δ, tidy⟩ := h.neat
    exact tidy.loose opens (StashItem.mem_held hs hi)
  have calm {later : World} (hl : later.Neat L busy lost (stash.flatMap StashItem.held ++ hand) ∧
      World.Sweeps L [] w later) :
      later.Minds L id r busy lost hand elements (stash.set key item) := by
    rw [same]
    exact h.calm opens hl.1 hl.2
  have split {gone : List InstanceId} (hg : item.held.Perm gone) :
      w.Neat L busy lost (gone ++ ((stash.eraseIdx key).flatMap StashItem.held ++ hand)) := by
    refine h.neat.perm ?_
    rw [← List.append_assoc]
    exact ((hg.symm.append_right _).trans (StashItem.perm_set hs item).2.symm).append_right hand
  cases item with
  | tracker tracker =>
    refine .pure ?_
    rintro _ rfl
    rwa [same]
  | child i =>
    refine (dismount_tidy tidies h.neat (mem (List.mem_singleton_self i))).bind fun _ => ?_
    exact .pure fun _ => calm
  | sequential rows =>
    refine Ends.bind (Q := fun rows' later => later.Minds L id r busy lost hand elements
      (stash.set key (.sequential rows'))) ?_ fun _ => .pure fun _ h => h
    unfold sequential
    -- A shared repeater gives its instances back; any other keeps them, unmounted.
    split
    · refine (clear_tidy tidies rows.share (split (List.Perm.refl _)) ranks.2
        fun i hi => loose hi).bind fun _ => .pure fun later hl => ?_
      exact h.cleared opens hs hl.1 hl.2 (List.Subset.refl _) (List.take_subset _ _) rfl rfl
        (Nat.le_refl 0) rfl nofun ⟨ranks.1, List.forall_mem_nil _⟩
    · exact (dismountAll_tidy tidies (fun i hi => mem hi) h.neat).bind fun _ => .pure fun _ => calm
  | keyed rows =>
    refine Ends.bind (Q := fun rows' later => later.Minds L id r busy lost hand elements
      (stash.set key (.keyed rows'))) ?_ fun _ => .pure fun _ h => h
    unfold keyed
    split
    · have perm := Keyed.inOrder_perm even
      refine (clear_tidy tidies rows.share (split perm.symm)
        (fun i hi => ranks.2.1 i (perm.subset hi)) fun i hi => loose (perm.subset hi)).bind
          fun _ => .pure fun later hl => ?_
      rw [Keyed.filter_not_mem_order even]
      exact h.cleared opens hs hl.1 hl.2 perm.subset (List.Subset.refl _) rfl rfl
        ⟨List.nodup_nil, List.nodup_nil, fun _ => Iff.rfl⟩ rfl nofun
        ⟨ranks.1, List.forall_mem_nil _, List.nodup_nil⟩
    · exact (dismountAll_tidy tidies (fun i hi => mem hi) h.neat).bind fun _ => .pure fun _ => calm

/-- The entries of a stash are dismounted one after another. -/
theorem dismount_entries (tidies : Tidies retire) (opens : L.Opens id r hand)
    (front : List StashItem) {rest : List StashItem}
    (h : w.Minds L id r busy lost hand elements (front ++ rest)) :
    Ends (w = ·) (rest.mapM (entry retire .dismount))
      (fun rest' later => later.Minds L id r busy lost hand elements (front ++ rest'))
      fun stop _ => stop.GivenUp := by
  induction rest generalizing front w with
  | nil =>
    refine .pure ?_
    rintro _ rfl
    exact h
  | cons item rest ih =>
    rw [List.mapM_cons]
    have hs : (front ++ item :: rest)[front.length]? = some item := by simp
    refine (dismount_entry tidies opens h hs).bind fun item' => .pointwise fun v hv => ?_
    rw [List.set_append_right _ _ (Nat.le_refl _), Nat.sub_self, List.set_cons_zero,
      List.append_cons] at hv
    refine (ih _ hv).bind fun rest' => .pure fun later hl => ?_
    rwa [List.append_assoc] at hl

end Retire

/-! ## Holding an instance -/

/-- The held instance is made of a host copy and shows its stash. -/
structure Instance.Tended (L : Reserve) (id : DefinitionId) (r : NodeId)
    (busy lost hand : List InstanceId) (f : Focus Instance) : Prop where
  root : f.held.root = r
  definition : f.held.definition = id
  minds : f.world.Minds L id r busy lost hand f.held.elements f.held.stash

/-- An instance of a world as `P` says has just come to be held. -/
def Focus.Enters (P : World → Prop) (i : InstanceId) (f : Focus Instance) : Prop :=
  ∃ w, P w ∧ w.instances[i]? = some f.held ∧ f.world = { w with busy := i :: w.busy }

/-- Holding an instance leaves the world tidy if what is done with it keeps the order and goes on
showing the stash. -/
theorem Ends.hold_tidy {α : Type} {L : Reserve} {busy lost hand : List InstanceId}
    {i : InstanceId} {x : Holding Instance α} {S : Stop → Prop} (hS : ∀ cause, S (.abort cause))
    {P : World → Prop} (there : ∀ {δ w inst}, P w → w.Tidy L δ busy lost hand →
      w.instances[i]? = some inst → i ∉ busy → δ.alive i)
    (orderly : Ends (Instance.Housed (.plain L.library) busy (lost ++ hand) i) x
      (fun _ => Instance.Housed (.plain L.library) busy (lost ++ hand) i)
      (Failing (Instance.Housed (.plain L.library) busy (lost ++ hand) i)))
    (h : ∀ (M : Reserve) (id : DefinitionId) (r : NodeId), M.library = L.library →
      (∀ {id d}, M.library[id]? = some d → (M.plan id).Draws d.template) → M.Opens id r hand →
        Ends (fun f => f.Enters P i ∧ Instance.Tended M id r (i :: busy) lost hand f) x
          (fun _ => Instance.Tended M id r (i :: busy) lost hand)
          fun stop f => S stop ∧ Failing (Instance.Tended M id r (i :: busy) lost hand) stop f) :
    Ends (fun w => P w ∧ w.Neat L busy lost hand) (Run.hold i x)
      (fun _ => World.Neat L busy lost hand)
      fun stop w => S stop ∧ Failing (World.Neat L busy lost hand) stop w := by
  refine Ends.hold (fun _ _ => ⟨hS _, .of_abort⟩) (fun _ _ => ⟨hS _, .of_abort⟩)
    fun w inst hw hi hb => ?_
  obtain ⟨pre, δ, tidy⟩ := hw
  have hb' : i ∉ busy := tidy.orderly.busy_eq ▸ hb
  have alive := there pre tidy hi hb'
  have sound := tidy.orderly.sound hi hb'
  obtain ⟨d, hd, -⟩ := sound.shaped
  have idle : ¬ L.host inst.root := fun host =>
    hb' ((tidy.host alive).mp (World.root_of_get hi ▸ host))
  have definition := tidy.definition_of_get alive hi
  -- It is not to be destroyed while it is held.
  let M : Reserve := { L with spared := fun j => L.spared j ∨ j = i }
  obtain ⟨taken, shows⟩ := tidy.take hi hb' alive M.spared (fun _ => .inl) (fun _ hj => hj)
    (.inr (.inr rfl))
  obtain ⟨held, aside⟩ := tidy.orderly.take hi hb' id
  rw [tidy.orderly.busy_eq] at taken held ⊢
  have back {f : Focus Instance}
      (hf : Instance.Housed (.plain L.library) busy (lost ++ hand) i f ∧
        Instance.Tended (M.enter w δ inst.root hand) inst.definition inst.root (i :: busy) lost hand
          f) : (Run.hold.back i busy f).Neat L busy lost hand := by
    obtain ⟨housed, root, definition, ⟨δ', tidy'⟩, -, shows'⟩ := hf
    refine tidy.back hi hb' alive (fun _ => .inl) (.inr rfl) root tidy' housed.definition
      ⟨housed.stocks.ranks, housed.shaped⟩ ?_
    rw [definition, tidy'.node_host (Or.inr rfl)]
    exact shows'
  have opens := tidy.opens idle definition (tidy.draws hd)
  refine (orderly.and (h (M.enter w δ inst.root hand) inst.definition inst.root rfl tidy.draws
    { opens with })).mono ?_ (fun _ _ hf => back hf)
    fun stop f hf => ⟨hf.2.1, fun cause hc => back ⟨hf.1 cause hc, hf.2.2 cause hc⟩⟩
  rintro _ rfl
  exact ⟨⟨⟨held, fun item hm => (sound.ranks item hm).grows fun hk => hk, aside⟩, sound.shaped,
      World.definition?_of_get hi⟩,
    ⟨w, pre, hi, by rw [tidy.orderly.busy_eq]⟩, rfl, rfl, ⟨δ, taken⟩,
    fun item hm => (sound.ranks item hm).grows fun hk => hk, shows⟩

namespace Retire

variable {retire : Retire} {L : Reserve} {busy lost hand : List InstanceId} {i : InstanceId}

/-- An instance that is dismounted goes on showing what its stash then says. -/
theorem dismount_inPlace {id : DefinitionId} {r : NodeId} (tidies : Tidies retire)
    (opens : L.Opens id r hand) :
    Ends (Instance.Tended L id r busy lost hand) (inPlace retire .dismount)
      (fun _ => Instance.Tended L id r busy lost hand) fun stop _ => stop.GivenUp := by
  refine .pointwise fun f hf => ?_
  obtain ⟨root, definition, minds⟩ := hf
  unfold inPlace
  refine Ends.held.bind fun inst => ?_
  rintro _ ⟨rfl, rfl⟩
  refine Ends.bind (Ends.outside_eq (a := f.held) (P := (f.world = ·))
    (dismount_entries tidies opens [] minds)) (fun stash => ?_) f ⟨rfl, rfl⟩
  rw [if_neg (by decide)]
  refine .change fun inst w hg => ?_
  obtain ⟨rfl, minds⟩ := hg
  exact ⟨root, definition, minds⟩

/-- Dismounting goes down one instance more. -/
theorem dismount_hold (tidies : Tidies retire) (keeps : Keeps retire) (hin : i ∈ hand) :
    Ends (World.Neat L busy lost hand) (Run.hold i (inPlace retire .dismount))
      (fun _ => World.Neat L busy lost hand) fun stop _ => stop.GivenUp :=
  (Ends.hold_tidy (S := Stop.GivenUp) (P := fun _ => True) (fun _ => ⟨_, rfl⟩)
    (fun _ tidy _ _ => tidy.inHand i hin) (inPlace_orderly keeps .dismount).failing
    fun _ _ _ _ _ opens => (dismount_inPlace tidies opens).mono (fun _ h => h.2)
      (fun _ _ h => h) fun _ _ h => ⟨h, .of_givenUp h⟩).mono (fun _ h => ⟨trivial, h⟩)
    (fun _ _ h => h) fun _ _ h => h.1

end Retire

/-! ## Destroying -/

namespace World.Tidy

variable {L : Reserve} {δ δ' : Deeds} {busy busy' lost lost' hand hand' : List InstanceId}
  {w v : World} {i : InstanceId} {r : NodeId}

/-- What lodges in a host matters only for what is in hand. -/
theorem lodge (h : w.Tidy L δ busy lost hand) (lodges : NodeId → InstanceId → Prop)
    (hl : ∀ b, ∀ k ∈ hand, L.lodges b k → lodges b k) :
    w.Tidy { L with lodges } δ busy lost hand :=
  { h with
    seat := fun hq hr hb => by
      obtain ⟨k, alive, root, place⟩ := h.seat hq hr hb
      exact ⟨k, alive, root, place.imp_left fun ⟨host, hk, hl'⟩ => ⟨host, hk, hl _ k hk hl'⟩⟩ }

/-- The copy of a held instance goes, and the instance is lost. -/
theorem expire (h : w.Tidy L δ busy lost' hand') (hi : w.root i = r) (hb : i ∉ busy)
    (idle : ¬ L.host r) (loose : w.Loose L i)
    (h' : v.Tidy (L.enter w δ r (i :: hand)) δ' busy' lost (i :: hand)) (root : v.root i = r) :
    ∃ δ, World.Tidy L δ busy' (i :: lost) hand
        { v with document := v.document.release r } ∧ ¬ δ.alive i := by
  subst root
  have top := h'.rooted (r := v.root i) (Or.inr rfl)
  have free : v.Loose (L.enter w δ (v.root i) (i :: hand)) i := by
    rintro b m q (hb | rfl) hq ⟨hs, b', m', hb', hq'⟩ hc
    · have hq'' : δ'.node b m = some q := (h'.hosts (Or.inl hb)).1 ▸ hq
      have same : v.document.children q = w.document.children q :=
        (h'.still (Or.inl hb) hq'' ⟨hs, b', m', hb', hq'⟩).trans (h.still hb hq hs).symm
      rw [same, ← hi] at hc
      exact loose b m q hb (h.node_host hb ▸ hq) hs hc
    · exact idle ((h.valid.inj hq' hq).1 ▸ hb')
  obtain ⟨alone, -, adrift⟩ := h'.without (List.mem_cons_self ..) free
  have lost := (alone.lose (alone.adrift_node adrift)).lodge
    (L.enter w δ (v.root i) hand).lodges fun b k hk lodges =>
      ⟨fun he => absurd (List.mem_cons_of_mem _ hk) (lodges.1 he), fun hne => ⟨(lodges.2 hne).1, hk⟩⟩
  -- Who is spared was held before, and this one was not.
  have gone := h.lapse idle lost top (fun {b m q} hb hq hr _ => ?_) (fun j hj he => ?_)
    fun j hj he => hb (h'.apart (h'.spared hj).2 (h'.inHand i (List.mem_cons_self ..)) he ▸
      (h.spared hj).1)
  · rw [← Document.release_without (h'.valid.live top)]
    exact ⟨_, gone, fun dead => dead.2 rfl⟩
  · exact adrift b m q (Or.inl hb) ((alone.hosts (Or.inl hb)).1 ▸ hq) hr
  · rw [h'.apart hj (h'.inHand i (List.mem_cons_self ..)) he]
    exact List.mem_cons_self ..

end World.Tidy

namespace Retire

variable {retire : Retire} {L : Reserve} {busy lost hand own : List InstanceId} {w : World}
  {id : DefinitionId} {r : NodeId} {item : StashItem} {t : Template} {i : InstanceId}

/-- No instance has another definition later. -/
def Grown (w later : World) : Prop :=
  ∀ {i : InstanceId} {k : DefinitionId}, w.definition? i = some k → later.definition? i = some k

/-- What an entry holds is given back or destroyed. -/
theorem destroy_entry (tidies : Tidies retire) (opens : L.Opens id r hand)
    (h : w.Neat L busy lost (item.held ++ (own ++ hand))) (even : item.Even)
    (ranks : item.Ranks w id) :
    Ends (w = ·) (entry retire .destroy item)
      (fun item' later => later.Neat L busy (item'.held ++ lost) (own ++ hand) ∧ Grown w later)
      fun stop _ => stop.GivenUp := by
  have loose {k : InstanceId} (hk : k ∈ item.held) : w.Loose L k := by
    obtain ⟨δ, tidy⟩ := h
    rw [← List.append_assoc] at tidy
    exact tidy.loose opens (List.mem_append_left _ hk)
  cases item with
  | tracker tracker =>
    refine .pure ?_
    rintro _ rfl
    exact ⟨h, fun hj => hj⟩
  | child k =>
    obtain ⟨δ, tidy⟩ := h
    refine Ends.bind (Q := fun _ later => later.Neat L busy (k :: lost) (own ++ hand) ∧
      Grown w later) ?_ fun _ => .pure fun _ h => h
    -- To destroy it, all that stays as it is now is to be respected.
    refine (tidies.destroy (L.freeze w δ L.still) busy lost (own ++ hand) k).mono ?_
      (fun _ later hl => ?_) fun _ _ h => h
    · rintro _ rfl
      refine ⟨⟨δ, tidy.freeze _⟩, fun b m q hb hq hs => ?_⟩
      exact loose (List.mem_singleton_self k) b m q hb (tidy.node_host hb ▸ hq) hs
    · obtain ⟨-, δ', tidy'⟩ := hl
      refine ⟨⟨δ', tidy.thaw tidy' fun _ _ hs => hs⟩, fun {j id} hj => ?_⟩
      rw [tidy'.defined j (World.isSome_definition?.mp (hj ▸ rfl))]
      exact hj
  | sequential rows =>
    refine Ends.bind (Q := fun rows' later =>
      later.Neat L busy ((StashItem.sequential rows').held ++ lost) (own ++ hand) ∧ Grown w later)
      ?_ fun _ => .pure fun _ h => h
    unfold sequential
    rw [if_pos (Or.inl rfl)]
    refine (clear_tidy tidies rows.share h ranks.2 fun k hk => loose hk).bind fun _ =>
      .pure fun later hl => ⟨hl.1, fun hj => hl.2.grown hj⟩
  | keyed rows =>
    refine Ends.bind (Q := fun rows' later =>
      later.Neat L busy ((StashItem.keyed rows').held ++ lost) (own ++ hand) ∧ Grown w later)
      ?_ fun _ => .pure fun _ h => h
    unfold keyed
    rw [if_pos (Or.inl rfl)]
    have perm := Keyed.inOrder_perm even
    refine (clear_tidy tidies rows.share (h.perm (perm.append_right _))
      (fun k hk => ranks.2.1 k (perm.subset hk)) fun k hk => loose (perm.subset hk)).bind fun _ =>
        .pure fun later hl => ⟨?_, fun hj => hl.2.grown hj⟩
    rw [Keyed.filter_not_mem_order even]
    exact hl.1

/-- The entries of a stash are destroyed one after another. -/
theorem destroy_entries (tidies : Tidies retire) (opens : L.Opens id r hand) {rest : List StashItem}
    (h : w.Neat L busy lost (rest.flatMap StashItem.held ++ hand)) (even : ∀ item ∈ rest, item.Even)
    (ranks : ∀ item ∈ rest, item.Ranks w id) :
    Ends (w = ·) (rest.mapM (entry retire .destroy))
      (fun rest' later => later.Neat L busy (rest'.flatMap StashItem.held ++ lost) hand)
      fun stop _ => stop.GivenUp := by
  induction rest generalizing lost w with
  | nil =>
    refine .pure ?_
    rintro _ rfl
    exact h
  | cons item rest ih =>
    -- What the later entries hold is in hand while this one goes.
    rw [List.forall_mem_cons] at even ranks
    rw [List.flatMap_cons, List.append_assoc] at h
    rw [List.mapM_cons]
    refine (destroy_entry tidies opens h even.1 ranks.1).bind fun item' => .pointwise fun v hv => ?_
    refine (ih hv.1 even.2 fun other hm => (ranks.2 other hm).grows hv.2).bind fun rest' =>
      .pure fun later ⟨δ, tidy⟩ => ⟨δ, tidy.permLost ?_⟩
    rw [List.flatMap_cons, List.append_assoc]
    exact List.perm_append_comm_assoc ..

section Hold

variable {δ : Deeds} {inst : Instance} (tidy : w.Tidy L δ busy lost (i :: hand)) (loose : w.Loose L i)
  (hi : w.instances[i]? = some inst) (hb : i ∉ busy)

include tidy hi hb

/-- The root of an instance that is not held hosts nothing. -/
theorem idle_hold : ¬ L.host inst.root := fun host =>
  hb ((tidy.host (tidy.inHand i (List.mem_cons_self ..))).mp (World.root_of_get hi ▸ host))

include loose

/-- When its nodes are released, a held instance is lost. -/
theorem release_hold (own : List InstanceId) :
    Ends (World.Neat (L.enter w δ inst.root (i :: hand)) (i :: busy) (own ++ lost) (i :: hand))
      (Run.onDocument (·.release inst.root))
      (fun _ v => v.root i = inst.root ∧ ∃ δ, v.Tidy L δ (i :: busy) (own ++ i :: lost) hand ∧
        ¬ δ.alive i) fun stop _ => stop.GivenUp := by
  refine .modify ?_
  rintro v ⟨δ', tidy'⟩
  have root := World.root_of_get hi
  have root' : v.root i = inst.root :=
    (tidy'.roots i (Array.getElem?_eq_some_iff.mp hi).1).trans root
  obtain ⟨δ'', gone, dead⟩ := tidy.expire root hb (idle_hold tidy hi hb) loose tidy' root'
  exact ⟨root', δ'', gone.permLost List.perm_middle, dead⟩

/-- What a held instance has is destroyed, and the instance is lost. -/
theorem destroy_inPlace (tidies : Tidies retire) :
    Ends (fun f => f = ⟨inst, { w with busy := i :: busy }⟩) (inPlace retire .destroy)
      (fun _ f => f.held.root = inst.root ∧ f.world.root i = inst.root ∧
        ∃ δ, f.world.Tidy L δ (i :: busy) (f.held.held ++ i :: lost) hand ∧ ¬ δ.alive i)
      fun stop _ => stop.GivenUp := by
  have hin : i ∈ i :: hand := List.mem_cons_self ..
  have sound := tidy.orderly.sound hi hb
  obtain ⟨d, hd, -⟩ := sound.shaped
  obtain ⟨taken, shows⟩ := tidy.take hi hb (tidy.inHand i hin) L.spared (fun _ hj => hj)
    (fun _ hj => .inl hj) (.inl (List.mem_append_right _ hin))
  rw [tidy.orderly.busy_eq] at taken
  have opens : (L.enter w δ inst.root (i :: hand)).Opens inst.definition inst.root (i :: hand) :=
    tidy.opens (idle_hold tidy hi hb) (tidy.definition_of_get (tidy.inHand i hin) hi) (tidy.draws hd)
  have emptied : Ends ({ w with busy := i :: busy } = ·) (inst.stash.mapM (entry retire .destroy))
      (fun stash v => World.Neat (L.enter w δ inst.root (i :: hand)) (i :: busy)
        (stash.flatMap StashItem.held ++ lost) (i :: hand) v) fun stop _ => stop.GivenUp :=
    destroy_entries tidies opens ⟨δ, taken⟩ shows.even fun item hm =>
      (sound.ranks item hm).grows fun hk => hk
  unfold inPlace
  refine Ends.held.bind fun inst' => ?_
  rintro _ ⟨rfl, rfl⟩
  refine Ends.bind (Ends.outside_eq (a := inst) (P := ({ w with busy := i :: busy } = ·)) emptied)
    (fun stash => ?_) _ ⟨rfl, rfl⟩
  rw [if_pos rfl]
  refine Ends.bind (Q := fun _ f => f.held = inst ∧ f.world.root i = inst.root ∧
    ∃ δ, f.world.Tidy L δ (i :: busy) (stash.flatMap StashItem.held ++ i :: lost) hand ∧
      ¬ δ.alive i) ?_ fun _ => .change fun inst' v hf => ?_
  · exact Ends.outside_eq (a := inst) (release_hold tidy loose hi hb _)
  · obtain ⟨rfl, root', gone⟩ := hf
    exact ⟨rfl, root', gone⟩

end Hold

/-- Destroying goes down one instance more. -/
theorem destroy_hold (tidies : Tidies retire) (keeps : Keeps retire) :
    Ends (fun w => w.Neat L busy lost (i :: hand) ∧ w.Loose L i)
      (Run.hold i (inPlace retire .destroy))
      (fun _ w => i ∉ busy ∧ w.Neat L busy (i :: lost) hand) fun stop _ => stop.GivenUp := by
  refine Ends.hold (fun _ _ => ⟨_, rfl⟩) (fun _ _ => ⟨_, rfl⟩) fun w inst hw hi hb => ?_
  obtain ⟨⟨δ, tidy⟩, loose⟩ := hw
  have hb' : i ∉ busy := tidy.orderly.busy_eq ▸ hb
  have sound := tidy.orderly.sound hi hb'
  obtain ⟨held, aside⟩ := tidy.orderly.take hi hb' id
  have ready : ∀ j ∈ busy, j ∈ (i :: lost) ++ hand ∨ L.spared j := fun j hj =>
    (tidy.ready j hj).imp_left (List.perm_middle (a := i)).mem_iff.mp
  rw [tidy.orderly.busy_eq] at held ⊢
  -- The order says that what is put back is of its definition, the deeds where its nodes have gone.
  have orderly : Ends (Instance.Housed (.plain L.library) busy (lost ++ i :: hand) i)
      (inPlace retire .destroy)
      (fun _ => Instance.Housed (.plain L.library) busy (lost ++ i :: hand) i)
      fun stop _ => stop.GivenUp := inPlace_orderly keeps .destroy
  refine (orderly.and (destroy_inPlace tidy loose hi hb' tidies)).mono ?_ (fun _ f hf => ?_)
    fun _ _ h => h.1
  · rintro _ rfl
    exact ⟨⟨⟨held, fun item hm => (sound.ranks item hm).grows fun hk => hk, aside⟩, sound.shaped,
      World.definition?_of_get hi⟩, rfl⟩
  · obtain ⟨housed, root', root'', δ', tidy', dead⟩ := hf
    exact ⟨hb', δ', tidy'.putBack dead hb' (root'.trans root''.symm) housed.definition
      ⟨housed.stocks.ranks, housed.shaped⟩ ready⟩

end Retire

namespace Run

/-- Putting an instance out of use leaves the world tidy, whatever the depth. -/
theorem retireWithin_tidy (depth : Nat) : Retire.Tidies (retireWithin depth) := by
  induction depth with
  | zero =>
    exact ⟨fun _ _ _ _ _ _ => .throw fun _ _ => ⟨_, rfl⟩,
      fun _ _ _ _ _ => .throw fun _ _ => ⟨_, rfl⟩⟩
  | succ depth ih =>
    exact ⟨fun _ _ _ _ _ hi => Retire.dismount_hold ih (retireWithin_orderly depth) hi,
      fun _ _ _ _ _ => Retire.destroy_hold ih (retireWithin_orderly depth)⟩

/-- Putting an instance out of use leaves the world tidy. -/
theorem retire_tidy : Retire.Tidies retire where
  dismount L busy lost hand i hi := Ends.get.bind fun _ =>
    ((retireWithin_tidy _).dismount L busy lost hand i hi).pre fun _ h => h.2
  destroy L busy lost hand i := Ends.get.bind fun _ =>
    ((retireWithin_tidy _).destroy L busy lost hand i).pre fun _ h => h.2

end Run

end ComponentView
