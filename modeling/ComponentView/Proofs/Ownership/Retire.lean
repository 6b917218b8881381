import ComponentView.Proofs.Ownership

/-! # Retirement keeps the order

An instance that is put out of use gives up what it holds piece by piece: rows go back to the pool of
their definition or are lost, nested children stay where they are. At no time does an instance stand
at two places (`Run.retire_orderly`). -/

namespace ComponentView

/-! ## Entries of a stash in hand -/

namespace World

/-- Entries of a stash are in hand: what they hold ranks below `id` and is not in the frame. -/
structure Stocks (frame : Frame) (busy hand : List InstanceId) (id : DefinitionId)
    (items : List StashItem) (w : World) : Prop where
  orderly : w.Orderly frame busy (items.flatMap StashItem.held ++ hand)
  ranks : ∀ item ∈ items, item.Ranks w id
  aside : ∀ i ∈ items.flatMap StashItem.held, ¬ frame.still i

namespace Stocks

variable {frame : Frame} {busy hand : List InstanceId} {id : DefinitionId}
  {items : List StashItem} {w later : World}

/-- Only the instances, the pools and the list of held instances matter. -/
theorem congr (h : w.Stocks frame busy hand id items) (instances : later.instances = w.instances)
    (pools : later.pools = w.pools) (held : later.busy = w.busy) :
    later.Stocks frame busy hand id items where
  orderly := h.orderly.congr instances pools held
  ranks item hm := (h.ranks item hm).grows fun hi => by rwa [definition?, instances]
  aside := h.aside

/-- The document does not matter. -/
theorem onDocument {f : Document Listener → Document Listener} {E : Stop → World → Prop} :
    Ends (World.Stocks frame busy hand id items) (Run.onDocument f)
      (fun _ => World.Stocks frame busy hand id items) E :=
  .modify fun _ h => h.congr rfl rfl rfl

/-- The same entries after something that did not touch them. -/
theorem after (h : w.Stocks frame busy hand id items) {others : List InstanceId}
    (ho : later.Orderly frame busy (items.flatMap StashItem.held ++ hand))
    (since : Since others w later) : later.Stocks frame busy hand id items :=
  ⟨ho, fun item hm => (h.ranks item hm).grows since.grown, h.aside⟩

/-- What else is in hand can join the frame. -/
theorem widen (h : w.Stocks frame busy hand id items) {others : List InstanceId}
    (ho : others ⊆ hand) : w.Stocks (frame.widen w others) busy hand id items where
  orderly := h.orderly.widen (List.subset_append_of_subset_right _ ho)
  ranks := h.ranks
  aside i hi := by
    refine h.orderly.not_widen (List.subset_append_of_subset_right _ ho)
      (List.mem_append_left _ hi) (fun hm => ?_) (h.aside i hi)
    exact (List.nodup_append.mp (h.orderly.spread.nodup .hand)).2.2 i hi i (ho hm) rfl

/-- What was widened for a step can be narrowed after it. -/
theorem narrow {hand₀ : List InstanceId} {others : List InstanceId}
    (h : w.Orderly frame busy hand₀)
    (h' : later.Stocks (frame.widen w others) busy hand id items) :
    later.Stocks frame busy hand id items ∧ World.Since others w later :=
  ⟨⟨(h.narrow h'.orderly).1, h'.ranks, fun i hi hs => h'.aside i hi (Or.inl hs)⟩,
    (h.narrow h'.orderly).2⟩

end Stocks

end World

namespace Instance

/-- The held instance `i` is sound, and what it holds is in hand. -/
structure Housed (frame : Frame) (busy hand : List InstanceId) (i : InstanceId)
    (f : Focus Instance) : Prop where
  stocks : f.world.Stocks frame (i :: busy) hand f.held.definition f.held.stash
  shaped : f.held.Shaped frame.library
  definition : f.world.definition? i = some f.held.definition

namespace Housed

variable {frame : Frame} {busy hand : List InstanceId} {i : InstanceId} {f : Focus Instance}
  {w : World} {others : List InstanceId}

/-- Only the definition, the nodes, the stash and the cache of the held instance matter. -/
theorem congr (h : Housed frame busy hand i f) {inst : Instance}
    (definition : inst.definition = f.held.definition) (elements : inst.elements = f.held.elements)
    (stash : inst.stash = f.held.stash) (cache : inst.cache = f.held.cache) :
    Housed frame busy hand i ⟨inst, f.world⟩ := by
  obtain ⟨d, hd, fits, same⟩ := h.shaped
  exact
    { stocks := by rw [definition, stash]; exact h.stocks
      shaped := ⟨d, definition ▸ hd, ⟨elements ▸ fits.elements, stash ▸ fits.stash⟩, cache ▸ same⟩
      definition := definition ▸ h.definition }

/-- What is in hand may be kept out of the way. -/
theorem widen (h : Housed frame busy hand i f) (ho : others ⊆ hand) :
    Housed (frame.widen f.world others) busy hand i f :=
  ⟨h.stocks.widen ho, h.shaped, h.definition⟩

/-- What was widened for the work on an instance can be narrowed after it. -/
theorem narrow {hand₀ : List InstanceId} (h : w.Orderly frame (i :: busy) hand₀)
    (h' : Housed (frame.widen w others) busy hand i f) :
    Housed frame busy hand i f ∧ World.Since others w f.world :=
  ⟨⟨(World.Stocks.narrow h h'.stocks).1, h'.shaped, h'.definition⟩,
    (World.Stocks.narrow h h'.stocks).2⟩

end Housed

end Instance

namespace Ends

variable {α : Type} {frame : Frame} {busy hand : List InstanceId} {i : InstanceId}
  {x : Holding Instance α} {Q : α → World → Prop}

/-- Holding an instance keeps the order if what is done with it does, and stops as that does. What is
known of the instance before is known when it is held. -/
theorem hold_housed {A : Focus Instance → Prop} {S : Stop → Prop} (hS : ∀ cause, S (.abort cause))
    (hs : ¬ frame.still i)
    (h : Ends (fun f => Instance.Housed frame busy hand i f ∧ A f) x
      (fun a f => Instance.Housed frame busy hand i f ∧ Q a (Run.hold.back i busy f))
      fun stop f => S stop ∧ Failing (Instance.Housed frame busy hand i) stop f) :
    Ends (fun w => w.Orderly frame busy hand ∧ ∀ inst, w.instances[i]? = some inst →
        A ⟨inst, { w with busy := i :: w.busy }⟩) (Run.hold i x)
      (fun a w => w.Orderly frame busy hand ∧ Q a w)
      fun stop w => S stop ∧ Failing (World.Orderly frame busy hand) stop w := by
  refine Ends.hold (fun _ _ => ⟨hS _, .of_abort⟩) (fun _ _ => ⟨hS _, .of_abort⟩)
    fun w inst hw hi hb => ?_
  obtain ⟨hw, ha⟩ := hw
  have hb' : i ∉ busy := hw.busy_eq ▸ hb
  have sound := hw.sound hi hb'
  obtain ⟨taken, aside⟩ := hw.take hi hb' hs
  have back {f : Focus Instance} (hf : Instance.Housed frame busy hand i f) :
      (Run.hold.back i busy f).Orderly frame busy hand :=
    hf.stocks.orderly.back hb' hf.definition ⟨hf.stocks.ranks, hf.shaped⟩ hf.stocks.aside
  have held := ha inst hi
  rw [hw.busy_eq] at taken held ⊢
  refine h.mono ?_ (fun a f hf => ⟨back hf.1, hf.2⟩) fun stop f hf => ⟨hf.1, hf.2.mono back⟩
  rintro f rfl
  exact ⟨⟨⟨taken, fun item hm => (sound.ranks item hm).grows fun hk => hk, aside⟩, sound.shaped,
    World.definition?_of_get hi⟩, held⟩

end Ends

/-! ## Putting out of use -/

/-- The instances in the order of a repeater by key and those of the keys that are not in it are
different instances of the repeater. -/
theorem Keyed.subperm_inOrder (r : Keyed) (nodup : (r.instances.map (·.2)).Nodup)
    (order : r.order.Nodup) :
    (r.inOrder ++ (r.instances.filter (·.1 ∉ r.order)).map (·.2)).Subperm
      (r.instances.map (·.2)) := by
  have unique {x y : ItemKey × InstanceId} (hx : x ∈ r.instances) (hy : y ∈ r.instances)
      (he : x.2 = y.2) : x = y := List.inj_on_of_nodup_map nodup hx hy he
  refine List.subperm_of_subset (List.nodup_append.mpr ⟨?_, ?_, ?_⟩) ?_
  · refine order.filterMap fun k k' i hk hk' => ?_
    exact congrArg Prod.fst (unique (mem_of_instance? hk) (mem_of_instance? hk') rfl)
  · exact nodup.sublist (List.filter_sublist.map _)
  · rintro i hi j hj rfl
    obtain ⟨key, hkey, hi⟩ := List.mem_filterMap.mp hi
    obtain ⟨x, hx, he⟩ := List.mem_map.mp hj
    obtain ⟨hx, ho⟩ := List.mem_filter.mp hx
    obtain rfl := unique (mem_of_instance? hi) hx he.symm
    exact absurd hkey (by simpa using ho)
  · refine List.append_subset.mpr ⟨fun i hi => ?_, List.map_subset _ List.filter_sublist.subset⟩
    obtain ⟨key, -, hi⟩ := List.mem_filterMap.mp hi
    exact List.mem_map.mpr ⟨(key, i), mem_of_instance? hi, rfl⟩

namespace Retire

variable {retire : Retire} {frame : Frame} {busy hand : List InstanceId} {id : DefinitionId}
  {i : InstanceId}

/-- Putting an instance out of use keeps the order, and cannot fail. -/
def Keeps (retire : Retire) : Prop :=
  ∀ {frame : Frame} {busy hand : List InstanceId} (mode : Retirement) (i : InstanceId),
    ¬ frame.still i → Ends (World.Orderly frame busy hand) (retire mode i)
      (fun _ => World.Orderly frame busy hand) fun stop _ => stop.GivenUp

section Steps

variable (keeps : Keeps retire)

/-- The root of an instance leaves its parent. -/
theorem detach_orderly (i : InstanceId) {β : Type} {f : Run β} {Q : β → World → Prop}
    (h : Ends (World.Orderly frame busy hand) f Q fun stop _ => stop.GivenUp) :
    Ends (World.Orderly frame busy hand)
      (do let root ← Run.rootOf i; Run.onDocument (·.detach root); f) Q
      fun stop _ => stop.GivenUp := by
  refine (Ends.rootOf (fun _ _ => ⟨_, rfl⟩) fun _ _ => ⟨_, rfl⟩).bind fun root => ?_
  exact Ends.bind (Q := fun _ => World.Orderly frame busy hand)
    (.modify fun w hw => hw.2.2.congr rfl rfl rfl) fun _ => h

include keeps

/-- An instance goes back to the pool of its definition. -/
theorem giveBack_orderly (hd : frame.start.definition? i = some id) (hs : ¬ frame.still i) :
    Ends (World.Orderly frame busy (i :: hand)) (giveBack retire id i)
      (fun _ => World.Orderly frame busy hand) fun stop _ => stop.GivenUp := by
  refine detach_orderly i ((keeps .dismount i hs).bind fun _ => ?_)
  exact .modify fun w h => h.push (h.grown hd) hs

/-- Dropping a row that is in hand keeps the order. -/
theorem drop_orderly (share : Bool) (hd : frame.start.definition? i = some id)
    (hs : ¬ frame.still i) :
    Ends (World.Orderly frame busy (i :: hand)) (drop retire id share i)
      (fun _ => World.Orderly frame busy hand) fun stop _ => stop.GivenUp := by
  unfold drop
  split
  · exact giveBack_orderly keeps hd hs
  · exact (keeps .destroy i hs).post fun _ _ h => h.of_cons

/-- Clearing rows that are in hand keeps the order. -/
theorem clear_orderly (share : Bool) {is : List InstanceId}
    (hd : ∀ i ∈ is, frame.start.definition? i = some id) (hs : ∀ i ∈ is, ¬ frame.still i) :
    Ends (World.Orderly frame busy (is ++ hand)) (clear retire id share is)
      (fun _ => World.Orderly frame busy hand) fun stop _ => stop.GivenUp := by
  induction is with
  | nil => exact .pure fun _ h => h
  | cons i is ih =>
    rw [List.forall_mem_cons] at hd hs
    exact (detach_orderly i (drop_orderly keeps share hd.1 hs.1)).bind fun _ => ih hd.2 hs.2

/-- What an entry holds less goes to a pool or is lost. -/
theorem entry_orderly (mode : Retirement) {item : StashItem} (hr : item.Ranks frame.start id)
    (hs : ∀ i ∈ item.held, ¬ frame.still i) :
    Ends (World.Orderly frame busy (item.held ++ hand)) (entry retire mode item)
      (fun item' w => (item'.Ranks frame.start id ∧ item'.held ⊆ item.held ∧
        item'.kind = item.kind) ∧ w.Orderly frame busy (item'.held ++ hand))
      fun stop _ => stop.GivenUp := by
  cases item with
  | tracker t => exact .pure fun _ h => ⟨⟨hr, List.Subset.refl _, rfl⟩, h⟩
  | child i =>
    refine (keeps mode i (hs i (by simp [StashItem.held]))).bind fun _ => ?_
    exact .pure fun _ h => ⟨⟨hr, List.Subset.refl _, rfl⟩, h⟩
  | sequential r =>
    refine Ends.bind (Q := fun r' w =>
      ((StashItem.sequential r').Ranks frame.start id ∧ r'.instances ⊆ r.instances) ∧
        w.Orderly frame busy (r'.instances ++ hand)) ?_
      fun r' => .pure fun _ h => ⟨⟨h.1.1, h.1.2, rfl⟩, h.2⟩
    unfold sequential
    split
    · refine (clear_orderly keeps _ hr.2 hs).bind fun _ => .pure fun _ h => ⟨⟨?_, ?_⟩, h⟩
      · exact ⟨hr.1, List.forall_mem_nil _⟩
      · exact List.nil_subset _
    · refine (Ends.forM fun i hi => keeps .dismount i (hs i hi)).bind fun _ => ?_
      exact .pure fun _ h => ⟨⟨hr, List.Subset.refl _⟩, h⟩
  | keyed r =>
    refine Ends.bind (Q := fun r' w =>
      ((StashItem.keyed r').Ranks frame.start id ∧
        (StashItem.keyed r').held ⊆ (StashItem.keyed r).held) ∧
        w.Orderly frame busy ((StashItem.keyed r').held ++ hand)) ?_
      fun r' => .pure fun _ h => ⟨⟨h.1.1, h.1.2, rfl⟩, h.2⟩
    unfold keyed
    split
    · intro w h
      have fewer := r.subperm_inOrder
        ((List.nodup_append.mp (h.spread.nodup .hand)).1) hr.2.2
      have rows : ∀ i ∈ r.inOrder, i ∈ r.instances.map (·.2) := fun i hi =>
        fewer.subset (List.mem_append_left _ hi)
      have left : (r.instances.filter (·.1 ∉ r.order)).map (·.2) ⊆ r.instances.map (·.2) :=
        fun i hi => fewer.subset (List.mem_append_right _ hi)
      have cleared : Ends
          (World.Orderly frame busy
            (r.inOrder ++ ((r.instances.filter (·.1 ∉ r.order)).map (·.2) ++ hand)))
          (clear retire r.definition r.share r.inOrder)
          (fun _ => World.Orderly frame busy
            ((r.instances.filter (·.1 ∉ r.order)).map (·.2) ++ hand))
          fun stop _ => stop.GivenUp :=
        clear_orderly keeps r.share (fun i hi => hr.2.1 i (rows i hi)) fun i hi => hs i (rows i hi)
      refine (cleared.bind fun _ => .pure fun w h => ⟨⟨?_, left⟩, h⟩) w (h.shrink ?_)
      · rw [← List.append_assoc]
        exact (List.subperm_append_right _).mpr fewer
      · exact ⟨hr.1, fun i hi => hr.2.1 i (left hi), List.nodup_nil⟩
    · refine (Ends.forM fun i hi => keeps .dismount i (hs i hi)).bind fun _ => ?_
      exact .pure fun _ h => ⟨⟨hr, List.Subset.refl _⟩, h⟩

/-- The entries of a stash are put out of use one after another. -/
theorem entries_orderly (mode : Retirement) {items : List StashItem}
    (hr : ∀ item ∈ items, item.Ranks frame.start id)
    (hs : ∀ i ∈ items.flatMap StashItem.held, ¬ frame.still i) :
    Ends (World.Orderly frame busy (items.flatMap StashItem.held ++ hand))
      (items.mapM (entry retire mode))
      (fun items' w => ((∀ item ∈ items', item.Ranks frame.start id) ∧
          items'.flatMap StashItem.held ⊆ items.flatMap StashItem.held ∧
          items'.map StashItem.kind = items.map StashItem.kind) ∧
        w.Orderly frame busy (items'.flatMap StashItem.held ++ hand))
      fun stop _ => stop.GivenUp := by
  induction items generalizing hand with
  | nil => exact .pure fun _ h => ⟨⟨List.forall_mem_nil _, List.Subset.refl _, rfl⟩, h⟩
  | cons item items ih =>
    rw [List.forall_mem_cons] at hr
    rw [List.flatMap_cons, List.forall_mem_append] at hs
    rw [List.mapM_cons]
    refine Ends.bind (Q := fun item' w => (item'.Ranks frame.start id ∧ item'.held ⊆ item.held ∧
        item'.kind = item.kind) ∧
        w.Orderly frame busy (items.flatMap StashItem.held ++ (item'.held ++ hand))) ?_ ?_
    · have first : Ends
          (World.Orderly frame busy (item.held ++ (items.flatMap StashItem.held ++ hand))) _ _ _ :=
        entry_orderly keeps mode hr.1 hs.1
      exact first.mono (fun w h => h.perm (by simp))
        (fun item' w h => ⟨h.1, h.2.perm (List.perm_append_comm_assoc ..)⟩) fun _ _ h => h
    · intro item'
      refine .assume fun hitem => (ih hr.2 hs.2).bind fun items' => .assume fun hitems => ?_
      refine .pure fun w h => ⟨⟨?_, ?_, ?_⟩, h.perm ?_⟩
      · exact List.forall_mem_cons.mpr ⟨hitem.1, hitems.1⟩
      · rw [List.flatMap_cons, List.flatMap_cons]
        exact List.append_subset.mpr ⟨List.subset_append_of_subset_left _ hitem.2.1,
          List.subset_append_of_subset_right _ hitems.2.1⟩
      · rw [List.map_cons, List.map_cons, hitem.2.2, hitems.2.2]
      · rw [List.flatMap_cons, List.append_assoc]
        exact List.perm_append_comm_assoc ..

/-- An instance that is put out of use keeps less. -/
theorem inPlace_orderly (mode : Retirement) :
    Ends (Instance.Housed frame busy hand i) (inPlace retire mode)
      (fun _ => Instance.Housed frame busy hand i) fun stop _ => stop.GivenUp := by
  rintro ⟨inst, w⟩ housed
  -- What holds of the entries now still holds of what becomes of them.
  let now := frame.widen w []
  obtain ⟨stocks, ⟨d, hd, fits, cache⟩, definition⟩ := housed.widen (List.nil_subset _)
  have stored (stash : List StashItem) : Ends
      (fun f => f.held = inst ∧ ((∀ item ∈ stash, item.Ranks now.start inst.definition) ∧
          stash.flatMap StashItem.held ⊆ inst.stash.flatMap StashItem.held ∧
          stash.map StashItem.kind = inst.stash.map StashItem.kind) ∧
        f.world.Orderly now (i :: busy) (stash.flatMap StashItem.held ++ hand))
      (Holding.change fun inst => { inst with stash, mounted := false })
      (fun _ => Instance.Housed now busy hand i) fun stop _ => stop.GivenUp := by
    refine .change fun inst' w' h => ?_
    obtain ⟨rfl, ⟨ranks, held, kinds⟩, orderly⟩ := h
    exact ⟨⟨orderly, fun item hm => (ranks item hm).grows orderly.grown,
        fun j hj => stocks.aside j (held hj)⟩,
      ⟨d, hd, ⟨fits.elements, kinds.trans fits.stash⟩, cache⟩, orderly.grown definition⟩
  have inside : Ends (fun f => f.held = inst ∧
      f.world.Orderly now (i :: busy) (inst.stash.flatMap StashItem.held ++ hand))
      (inPlace retire mode) (fun _ => Instance.Housed now busy hand i)
      fun stop _ => stop.GivenUp := by
    unfold inPlace
    refine .held_bind ?_
    refine (Ends.outside_eq (entries_orderly keeps mode stocks.ranks stocks.aside)).bind
      fun stash => ?_
    split
    · have released : Ends (fun w => ((∀ item ∈ stash, item.Ranks now.start inst.definition) ∧
          stash.flatMap StashItem.held ⊆ inst.stash.flatMap StashItem.held ∧
          stash.map StashItem.kind = inst.stash.map StashItem.kind) ∧
            w.Orderly now (i :: busy) (stash.flatMap StashItem.held ++ hand))
          (Run.onDocument (·.release inst.root)) (fun _ w =>
            ((∀ item ∈ stash, item.Ranks now.start inst.definition) ∧
          stash.flatMap StashItem.held ⊆ inst.stash.flatMap StashItem.held ∧
          stash.map StashItem.kind = inst.stash.map StashItem.kind) ∧
            w.Orderly now (i :: busy) (stash.flatMap StashItem.held ++ hand))
          fun stop _ => stop.GivenUp := .modify fun w h => ⟨h.1, h.2.congr rfl rfl rfl⟩
      exact (Ends.outside_eq released).bind fun _ => stored stash
    · exact stored stash
  exact (inside.post fun _ _ h => (Instance.Housed.narrow housed.stocks.orderly h).1) _
    ⟨rfl, stocks.orderly⟩

end Steps

end Retire

namespace Run

variable {frame : Frame} {busy hand : List InstanceId}

/-- Putting an instance out of use keeps the order, whatever the depth. -/
theorem retireWithin_orderly (depth : Nat) : Retire.Keeps (retireWithin depth) := by
  induction depth with
  | zero => exact fun _ _ _ => .throw fun _ _ => ⟨_, rfl⟩
  | succ depth ih =>
    intro frame busy hand mode i hs
    exact (Ends.hold_housed (A := fun _ => True) (Q := fun _ _ => True) (fun _ => ⟨_, rfl⟩) hs
      ((Retire.inPlace_orderly ih mode).mono (fun _ h => h.1) (fun _ _ h => ⟨h, trivial⟩)
        fun _ _ h => ⟨h, .of_givenUp h⟩)).mono (fun _ h => ⟨h, fun _ _ => trivial⟩)
      (fun _ _ h => h.1) fun _ _ h => h.1

/-- Putting an instance out of use keeps the order, and cannot fail. -/
theorem retire_orderly : Retire.Keeps retire := fun mode i hs =>
  Ends.get.bind fun _ => (retireWithin_orderly _ mode i hs).pre fun _ h => h.2

end Run

end ComponentView
