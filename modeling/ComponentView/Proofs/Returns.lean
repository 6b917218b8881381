import ComponentView.Proofs.Retirement

/-! # What retirement brings into the pools

Putting an instance out of use returns some of what it holds, at any depth, to the pools; nothing is
taken from them, and the instance itself is not returned (`Run.retire_regains`). -/

namespace ComponentView

variable {T : InstanceId → Prop} {w later latest : World} {id : DefinitionId}

namespace World

/-- A pool that is set has the spare instances it was given. -/
theorem pool_setPool_self (h : id < w.pools.size) (spare : List InstanceId) :
    (w.setPool id spare).pool id = spare := by
  simp [pool, setPool, Array.getElem_modify, h]

/-- The other pools stay as they are. -/
theorem pool_setPool_other {other : DefinitionId} (h : other ≠ id) (spare : List InstanceId) :
    (w.setPool id spare).pool other = w.pool other := by
  simp [pool, setPool, Array.getElem?_modify, Ne.symm h]

/-- What the instances in `T` hold is in `T`. -/
def Closed (T : InstanceId → Prop) (w : World) : Prop :=
  ∀ (i : InstanceId) (inst : Instance), T i → w.instances[i]? = some inst → ∀ j ∈ inst.held, T j

/-- What an instance holds, at any depth. -/
def Under (w : World) (i j : InstanceId) : Prop :=
  ∃ inst : Instance, w.instances[i]? = some inst ∧ ∃ k ∈ inst.held, w.Holds k j

/-- What is under an instance is closed under holding. -/
theorem closed_under (w : World) (i : InstanceId) : w.Closed (w.Under i) := by
  rintro j inst ⟨top, htop, k, hk, hj⟩ hinst c hc
  exact ⟨top, htop, k, hk, .tail hj ⟨inst, hinst, hc⟩⟩

/-- From `w` to `later` instances have come to the pools in front, which are in `T` and were not held
by an operation; no instance holds more than it did. -/
structure Regains (T : InstanceId → Prop) (w later : World) : Prop where
  fewer : ∀ (i : InstanceId) (inst' : Instance), later.instances[i]? = some inst' →
    ∃ inst : Instance, w.instances[i]? = some inst ∧ inst'.held ⊆ inst.held
  busy : later.busy = w.busy
  size : later.pools.size = w.pools.size
  pools : ∀ id, ∃ new, later.pool id = new ++ w.pool id ∧ ∀ j ∈ new, T j ∧ j ∉ w.busy

namespace Regains

/-- A world that stays as it is has nothing to regain. -/
theorem refl (T : InstanceId → Prop) (w : World) : Regains T w w :=
  ⟨fun _ inst h => ⟨inst, h, List.Subset.refl _⟩, rfl, rfl, fun _ => ⟨[], rfl, nofun⟩⟩

/-- What is regained in two steps is regained. -/
theorem trans (h : Regains T w later) (h' : Regains T later latest) : Regains T w latest where
  fewer i inst'' hi := by
    obtain ⟨inst', hi', hs'⟩ := h'.fewer i inst'' hi
    obtain ⟨inst, hi, hs⟩ := h.fewer i inst' hi'
    exact ⟨inst, hi, List.Subset.trans hs' hs⟩
  busy := h'.busy.trans h.busy
  size := h'.size.trans h.size
  pools id := by
    obtain ⟨new, hn, ht⟩ := h.pools id
    obtain ⟨new', hn', ht'⟩ := h'.pools id
    refine ⟨new' ++ new, by rw [hn', hn, List.append_assoc], fun j hj => ?_⟩
    rcases List.mem_append.mp hj with hj | hj
    · exact h.busy ▸ ht' j hj
    · exact ht j hj

/-- What a set regains a larger one regains. -/
theorem mono {U : InstanceId → Prop} (h : Regains T w later) (hu : ∀ i, T i → U i) :
    Regains U w later where
  fewer := h.fewer
  busy := h.busy
  size := h.size
  pools id := by
    obtain ⟨new, hn, ht⟩ := h.pools id
    exact ⟨new, hn, fun j hj => ⟨hu j (ht j hj).1, (ht j hj).2⟩⟩

/-- Only the instances, the pools and what is held matter. -/
theorem congr (h : Regains T w later) (instances : latest.instances = later.instances)
    (busy : latest.busy = later.busy) (pools : latest.pools = later.pools) : Regains T w latest where
  fewer := instances ▸ h.fewer
  busy := busy.trans h.busy
  size := pools ▸ h.size
  pools id := by
    rw [World.pool, pools]
    exact h.pools id

/-- A set that is closed under holding stays so. -/
theorem closed (h : Regains T w later) {U : InstanceId → Prop} (hw : w.Closed U) :
    later.Closed U := by
  intro i inst' hi hinst' j hj
  obtain ⟨inst, hinst, hs⟩ := h.fewer i inst' hinst'
  exact hw i inst hi hinst j (hs hj)

/-- An instance that no operation holds is returned. -/
theorem push (h : Regains T w later) {i : InstanceId} (hi : T i) (free : i ∉ w.busy)
    (id : DefinitionId) : Regains T w (later.setPool id (i :: later.pool id)) where
  fewer := h.fewer
  busy := h.busy
  size := by rw [← h.size]; exact Array.size_modify
  pools other := by
    obtain ⟨new, hn, ht⟩ := h.pools other
    rcases eq_or_ne other id with rfl | hne
    · by_cases hlt : other < later.pools.size
      · rw [pool_setPool_self hlt, hn]
        exact ⟨i :: new, rfl, List.forall_mem_cons.mpr ⟨⟨hi, free⟩, ht⟩⟩
      · refine ⟨new, hn ▸ ?_, ht⟩
        simp [pool, setPool, hlt]
    · rw [pool_setPool_other hne]
      exact ⟨new, hn, ht⟩

end Regains

end World

namespace Retire

open World

variable {retire : Retire}

/-- Putting an instance out of use that holds nothing but what is in `T` brings nothing but instances
of `T` into the pools, and not the instance itself. -/
def Regains (T : InstanceId → Prop) (retire : Retire) : Prop :=
  ∀ mode i w, w.Closed T →
    (∀ inst : Instance, w.instances[i]? = some inst → ∀ j ∈ inst.held, T j) →
    Ends (· = w) (retire mode i) (fun _ => World.Regains (fun j => T j ∧ j ≠ i) w) fun _ _ => True

variable (closed : w.Closed T) (hretire : Regains T retire)

/-- A change to the document touches no instance. -/
theorem onDocument_regains (f : Document Listener → Document Listener) :
    Ends (World.Regains T w) (Run.onDocument f) (fun _ => World.Regains T w) fun _ _ => True :=
  .modify fun _ h => h.congr rfl rfl rfl

include closed hretire

/-- Retiring an instance of the set regains only from the set. -/
theorem retire_regains (mode : Retirement) {i : InstanceId} (hi : T i) :
    Ends (World.Regains T w) (retire mode i) (fun _ => World.Regains T w) fun _ _ => True := by
  refine .pointwise fun v hv => ?_
  have closed' := hv.closed closed
  refine ((hretire mode i v closed' fun inst => closed' i inst hi).mono (fun _ h => h.symm) ?_
    fun _ _ h => h)
  exact fun _ u hu => hv.trans (hu.mono fun _ hj => hj.1)

/-- Giving an instance of the set back regains only from the set. -/
theorem giveBack_regains (id : DefinitionId) {i : InstanceId} (hi : T i) :
    Ends (World.Regains T w) (giveBack retire id i) (fun _ => World.Regains T w) fun _ _ => True := by
  refine (Ends.rootOf (fun _ _ => trivial) fun _ _ => trivial).bind fun root =>
    .pointwise fun v hv => ?_
  obtain ⟨-, free, hv⟩ := hv
  refine Ends.pre (P := World.Regains T w) ?_ fun _ h => h ▸ hv
  refine (onDocument_regains _).bind fun _ => (retire_regains closed hretire .dismount hi).bind
    fun _ => .modify fun u hu => hu.push hi (hv.busy ▸ free) id

/-- Clearing rows of the set regains only from the set. -/
theorem clear_regains (id : DefinitionId) (share : Bool) {is : List InstanceId}
    (his : ∀ i ∈ is, T i) :
    Ends (World.Regains T w) (clear retire id share is) (fun _ => World.Regains T w)
      fun _ _ => True := by
  refine .forM fun i hi => Ends.bind
    ((Ends.rootOf (fun _ _ => trivial) fun _ _ => trivial).post fun _ _ h => h.2.2) fun root =>
      (onDocument_regains _).bind fun _ => ?_
  unfold drop
  split
  · exact giveBack_regains closed hretire id (his i hi)
  · exact retire_regains closed hretire .destroy (his i hi)

/-- Retiring an entry of the stash regains only from the set, and the entry holds no more than
before. -/
theorem entry_regains (mode : Retirement) {item : StashItem} (hitem : ∀ i ∈ item.held, T i) :
    Ends (World.Regains T w) (entry retire mode item)
      (fun item' v => item'.held ⊆ item.held ∧ World.Regains T w v) fun _ _ => True := by
  have stay {is : List InstanceId} (his : ∀ i ∈ is, T i) :
      Ends (World.Regains T w) (is.forM (retire .dismount)) (fun _ => World.Regains T w)
        fun _ _ => True :=
    .forM fun i hi => retire_regains closed hretire .dismount (his i hi)
  cases item with
  | tracker t => exact .pure fun _ h => ⟨List.Subset.refl _, h⟩
  | child i =>
    exact (retire_regains closed hretire mode (hitem i (by simp [StashItem.held]))).bind fun _ =>
      .pure fun _ h => ⟨List.Subset.refl _, h⟩
  | sequential r =>
    refine Ends.bind (Q := fun r' v => r'.instances ⊆ r.instances ∧ World.Regains T w v) ?_
      fun r' => .pure fun _ h => h
    unfold sequential
    split
    · exact (clear_regains closed hretire _ _ hitem).bind fun _ => .pure fun _ h =>
        ⟨List.nil_subset _, h⟩
    · exact (stay hitem).bind fun _ => .pure fun _ h => ⟨List.Subset.refl _, h⟩
  | keyed r =>
    refine Ends.bind (Q := fun r' v => r'.instances ⊆ r.instances ∧ World.Regains T w v) ?_
      fun r' => .pure fun _ h => ⟨List.map_subset _ h.1, h.2⟩
    unfold keyed
    split
    · refine (clear_regains closed hretire _ _ fun i hi => hitem i ?_).bind fun _ =>
        .pure fun _ h => ⟨List.filter_sublist.subset, h⟩
      obtain ⟨key, -, hk⟩ := List.mem_filterMap.mp hi
      obtain ⟨before, after, hm, -⟩ := List.lookup_eq_some_iff.mp hk
      exact List.mem_map.mpr ⟨(key, i), by simp [hm], rfl⟩
    · exact (stay hitem).bind fun _ => .pure fun _ h => ⟨List.Subset.refl _, h⟩

end Retire

namespace Run

open Retire

/-- However deep a retirement goes, it regains only from the set. -/
theorem retireWithin_regains (T : InstanceId → Prop) (depth : Nat) :
    Retire.Regains T (retireWithin depth) := by
  induction depth with
  | zero => exact fun _ _ _ _ _ => .throw fun _ _ => trivial
  | succ depth ih =>
    intro mode i w closed hi
    refine Ends.hold (fun _ _ => trivial) (fun _ _ => trivial) fun v inst hv hinst _ => ?_
    subst hv
    set w : World := { v with busy := i :: v.busy } with hw
    have closed : w.Closed T := closed
    -- The held instance only ever holds less, and nothing that is held is returned.
    have done (stash : List StashItem) :
        Ends (fun f => f.held = inst ∧ List.Forall₂ (fun item item' : StashItem =>
            item'.held ⊆ item.held) inst.stash stash ∧ World.Regains T w f.world)
          (Holding.change fun inst => { inst with stash, mounted := false })
          (fun _ f => World.Regains (fun j => T j ∧ j ≠ i) v (hold.back i v.busy f))
          fun _ _ => True := by
      refine .change fun inst' u h => ?_
      obtain ⟨rfl, fewer, regains⟩ := h
      refine ⟨fun j inst'' hinst'' => ?_, rfl, regains.size, fun id => ?_⟩
      · change (u.instances.setIfInBounds i { inst' with stash, mounted := false })[j]? = _
          at hinst''
        rcases eq_or_ne i j with rfl | hij
        · rw [Array.getElem?_setIfInBounds_self] at hinst''
          split at hinst''
          · obtain rfl := Option.some.inj hinst''
            exact ⟨inst', hinst, StashItem.flatMap_held_subset fewer⟩
          · cases hinst''
        · rw [Array.getElem?_setIfInBounds_ne hij] at hinst''
          exact regains.fewer j inst'' hinst''
      · obtain ⟨new, hn, ht⟩ := regains.pools id
        refine ⟨new, hn, fun j hj => ?_⟩
        obtain ⟨hj, free⟩ := ht j hj
        rw [hw, List.mem_cons, not_or] at free
        exact ⟨⟨hj, free.1⟩, free.2⟩
    have inside : Ends (fun f => f.held = inst ∧ World.Regains T w f.world)
        (inPlace (retireWithin depth) mode)
        (fun _ f => World.Regains (fun j => T j ∧ j ≠ i) v (hold.back i v.busy f))
        fun _ _ => True := by
      have items : ∀ item ∈ inst.stash, ∀ j ∈ item.held, T j := fun item hm j hj =>
        hi inst hinst j (List.mem_flatMap.mpr ⟨item, hm, hj⟩)
      unfold inPlace
      refine .held_bind ?_
      refine (Ends.outside_eq (.mapM fun item hm =>
        entry_regains closed ih mode (items item hm))).bind fun stash => ?_
      split
      · exact (Ends.outside_eq (.assume fun fewer => (onDocument_regains _).post fun _ _ h =>
          (⟨fewer, h⟩ : _ ∧ _))).bind fun _ => done stash
      · exact done stash
    refine inside.pre ?_
    rintro f rfl
    exact ⟨rfl, .refl T w⟩

/-- Putting an instance out of use returns nothing but what it holds. -/
theorem retire_regains (T : InstanceId → Prop) : Retire.Regains T retire := fun mode i w closed hi =>
  Ends.get.bind fun _ => (retireWithin_regains T _ mode i w closed hi).pre fun _ h => h.2

end Run

end ComponentView
