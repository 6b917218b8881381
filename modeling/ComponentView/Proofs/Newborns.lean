import ComponentView.Proofs.Cascade.Retire

/-! # Destroying what was just built

An instance with which nothing has been done since it was built holds its nested children, which
were built before it, and nothing else (`World.Newborn`). Destroying it releases its root and those
of all below it, and changes nothing else: not even the instances themselves, which are as good as
new but for their nodes (`World.Newborn.releases`). -/

namespace ComponentView

/-- The entry holds nothing and can be put out of use as it is. -/
def StashItem.Blank : StashItem → Prop
  | tracker _ => True
  | child _ => False
  | sequential r => r.instances = [] ∧ r.attached = 0
  | keyed r => r.instances = [] ∧ r.order = []

/-- The entry is blank, or it is a nested child. -/
def StashItem.Plain (item : StashItem) : Prop := item.Blank ∨ ∃ j, item = .child j

namespace World

/-- The instance has a number from `n` on, and nothing has been done with it since it was built: all
that it holds are nested children of which the same is true, and which were built before it. -/
inductive Newborn (w : World) (n : Nat) : InstanceId → Prop
  | intro {i : InstanceId} {inst : Instance} (there : w.instances[i]? = some inst) (new : n ≤ i)
      (unmounted : inst.mounted = false) (plain : ∀ item ∈ inst.stash, item.Plain)
      (older : ∀ j ∈ inst.children, j < i) (children : ∀ j ∈ inst.children, Newborn w n j) :
      Newborn w n i

end World

/-- Plain entries hold nested children only. -/
theorem StashItem.flatMap_held {stash : List StashItem} (plain : ∀ item ∈ stash, item.Plain) :
    stash.flatMap StashItem.held = stash.filterMap StashItem.child? := by
  induction stash with
  | nil => rfl
  | cons item stash ih =>
    rw [List.forall_mem_cons] at plain
    rw [List.flatMap_cons, ih plain.2]
    rcases plain.1 with blank | ⟨j, rfl⟩
    · cases item with
      | tracker t => rfl
      | child i => exact blank.elim
      | sequential r =>
        obtain ⟨definition, share, anchors, instances, attached⟩ := r
        obtain ⟨rfl, rfl⟩ := blank
        rfl
      | keyed r =>
        obtain ⟨definition, key, share, anchors, instances, order⟩ := r
        obtain ⟨rfl, rfl⟩ := blank
        rfl
    · rfl

/-- The roots of what is below some instances, instance by instance. -/
theorem World.roots_below (w : World) (is : List InstanceId) :
    w.roots (w.below is) = ⋃ j ∈ is, w.roots (w.tree j) := by
  ext r
  simp only [roots, mem_below, Set.mem_iUnion₂, Set.mem_ofPred_eq, exists_prop]
  constructor
  · rintro ⟨k, ⟨j, hj, hk⟩, hr⟩
    exact ⟨j, hj, k, hk, hr⟩
  · rintro ⟨j, hj, k, hk, hr⟩
    exact ⟨k, ⟨j, hj, hk⟩, hr⟩

namespace World.Newborn

variable {w later : World} {n m : Nat} {i : InstanceId}

/-- What was built stays so when instances are added. -/
theorem grow (h : w.Newborn n i)
    (kept : ∀ {i : InstanceId} {inst}, w.instances[i]? = some inst →
      later.instances[i]? = some inst) : later.Newborn n i := by
  induction h with
  | intro there new unmounted plain older _ ih =>
    exact .intro (kept there) new unmounted plain older ih

/-- What is new since later is new since earlier. -/
theorem since (h : w.Newborn n i) (hm : m ≤ n) : w.Newborn m i := by
  induction h with
  | intro there new unmounted plain older _ ih =>
    exact .intro there (hm.trans new) unmounted plain older ih

/-- A newborn exists. -/
theorem lt_size (h : w.Newborn n i) : i < w.instances.size := by
  cases h with
  | intro there => exact (Array.getElem?_eq_some_iff.mp there).1

/-- A newborn is none of the instances that were there. -/
theorem le (h : w.Newborn n i) : n ≤ i := by
  cases h with
  | intro _ new => exact new

/-- The roots of a newborn instance and all below it: its own, and those of its children. -/
theorem roots_tree {inst : Instance} (there : w.instances[i]? = some inst)
    (plain : ∀ item ∈ inst.stash, item.Plain) :
    w.roots (w.tree i) = insert inst.root (w.roots (w.below inst.children)) := by
  have held : inst.held = inst.children := StashItem.flatMap_held plain
  rw [World.tree_eq there, held, World.roots_insert]
  rw [World.root?, there, Option.map_some]

/-- What is held below a newborn instance stays so when instances are added. -/
theorem roots_grow (h : w.Newborn n i)
    (kept : ∀ {i : InstanceId} {inst}, w.instances[i]? = some inst →
      later.instances[i]? = some inst) :
    later.roots (later.tree i) = w.roots (w.tree i) := by
  induction h with
  | @intro i inst there _ _ plain _ _ ih =>
    rw [roots_tree there plain, roots_tree (kept there) plain, World.roots_below, World.roots_below]
    congr 1
    exact Set.iUnion₂_congr ih

end World.Newborn

/-! ## What a computation releases -/

/-- Where no instance from `n` on is held before `m`, the computation ends with the result; it has
released `rs`, one after the other, and changed nothing else. -/
def Run.Releases {α : Type} (w : World) (n m : Nat) (x : Run α) (a : α) (rs : List NodeId) : Prop :=
  ∀ v : World, v.instances = w.instances → (∀ k ∈ v.busy, n ≤ k → m ≤ k) →
    x v = .ok a { v with document := rs.foldl Document.release v.document }

namespace Run.Releases

variable {α β : Type} {w : World} {n m m' : Nat} {x : Run α} {a : α} {b : β} {rs rs' : List NodeId}

/-- A result releases nothing. -/
theorem pure (a : α) : Releases w n m (pure a) a [] := fun _ _ _ => rfl

/-- Two steps release what either releases. -/
theorem bind {f : α → Run β} (hx : Releases w n m x a rs) (hf : Releases w n m (f a) b rs') :
    Releases w n m (x >>= f) b (rs ++ rs') := by
  intro v there free
  rw [bind_ok (hx v there free), List.foldl_append]
  exact hf { v with document := rs.foldl Document.release v.document } there free

/-- What is made of a result releases nothing more. -/
theorem map (g : α → β) (hx : Releases w n m x a rs) :
    Releases w n m (do return g (← x)) (g a) rs := by
  have := hx.bind (f := fun a => Pure.pure (g a)) (pure (g a))
  rwa [List.append_nil] at this

/-- Fewer instances need not be held. -/
theorem mono (hx : Releases w n m x a rs) (hm : m ≤ m') : Releases w n m' x a rs :=
  fun v there free => hx v there fun k hk hn => hm.trans (free k hk hn)

/-- An instance that is not held is held, and comes back as it was. -/
theorem hold {i : InstanceId} {inst : Instance} {x : Holding Instance α}
    (there : w.instances[i]? = some inst) (new : n ≤ i)
    (inside : ∀ v : World, v.instances = w.instances → (∀ k ∈ v.busy, n ≤ k → i ≤ k) →
      x ⟨inst, v⟩ = .ok a ⟨inst, { v with document := rs.foldl Document.release v.document }⟩) :
    Releases w n (i + 1) (Run.hold i x) a rs := by
  intro v same free
  have apart : i ∉ v.busy := fun hb => Nat.not_succ_le_self i (free i hb new)
  have look : v.instances[i]? = some inst := same ▸ there
  -- The instances before it are as free as they were.
  have run := inside { v with busy := i :: v.busy } same (List.forall_mem_cons.mpr
    ⟨fun _ => Nat.le_refl i, fun k hk hn => Nat.le_of_succ_le (free k hk hn)⟩)
  simp only [Run.hold, Run.look_eq look apart, run, Run.hold.back, setIfInBounds_of_get look]

end Run.Releases

/-! ## Destroying -/

namespace Retire

variable {w : World} {n m : Nat} (retire : Retire)

/-- Nothing is done about a blank entry. -/
theorem entry_blank {item : StashItem} (blank : item.Blank) :
    Run.Releases w n m (entry retire .destroy item) item [] := by
  cases item with
  | tracker t => exact .pure (StashItem.tracker t)
  | child i => exact blank.elim
  | sequential r =>
    obtain ⟨definition, share, anchors, instances, attached⟩ := r
    obtain ⟨rfl, rfl⟩ := blank
    exact .pure (StashItem.sequential ⟨definition, share, anchors, [], 0⟩)
  | keyed r =>
    obtain ⟨definition, key, share, anchors, instances, order⟩ := r
    obtain ⟨rfl, rfl⟩ := blank
    exact .pure (StashItem.keyed ⟨definition, key, share, anchors, [], []⟩)

/-- Of plain entries the nested children are destroyed, one after the other. -/
theorem entries_release {items : List StashItem} (plain : ∀ item ∈ items, item.Plain)
    {f : InstanceId → List NodeId} (children : ∀ j ∈ items.filterMap StashItem.child?,
      Run.Releases w n m (retire .destroy j) () (f j)) :
    Run.Releases w n m (items.mapM (entry retire .destroy)) items
      ((items.filterMap StashItem.child?).flatMap f) := by
  induction items with
  | nil => exact .pure []
  | cons item items ih =>
    rw [List.forall_mem_cons] at plain
    rw [List.mapM_cons]
    rcases plain.1 with blank | ⟨j, rfl⟩
    · have none : item.child? = none := by
        cases item with
        | child => exact blank.elim
        | _ => rfl
      rw [List.filterMap_cons_none none] at children ⊢
      have both := (entry_blank retire (w := w) (n := n) (m := m) blank).bind
        (f := fun b => do return b :: (← items.mapM (entry retire .destroy)))
        ((ih plain.2 children).map (item :: ·))
      exact both
    · have some : (StashItem.child j :: items).filterMap StashItem.child?
          = j :: items.filterMap StashItem.child? := rfl
      rw [some, List.forall_mem_cons] at children
      rw [some, List.flatMap_cons]
      exact (children.1.map fun _ => StashItem.child j).bind ((ih plain.2 children.2).map _)

/-- Once its children are destroyed, the root of the instance is released; the instance is as it
was. -/
theorem inPlace_releases {inst : Instance} (unmounted : inst.mounted = false) {rs : List NodeId}
    (stash : Run.Releases w n m (inst.stash.mapM (entry retire .destroy)) inst.stash rs) {v : World}
    (same : v.instances = w.instances) (free : ∀ k ∈ v.busy, n ≤ k → m ≤ k) :
    inPlace retire .destroy ⟨inst, v⟩ = .ok ()
      ⟨inst, { v with document := (rs ++ [inst.root]).foldl Document.release v.document }⟩ := by
  have first : (Holding.outside (inst.stash.mapM (entry retire .destroy)) : Holding Instance _)
      ⟨inst, v⟩ = .ok inst.stash
        ⟨inst, { v with document := rs.foldl Document.release v.document }⟩ := by
    rw [Holding.outside, stash v same free]
  have still : { inst with stash := inst.stash, mounted := false } = inst := by rw [← unmounted]
  have held : (Holding.held : Holding Instance _) ⟨inst, v⟩ = .ok inst ⟨inst, v⟩ := rfl
  refine (bind_ok held).trans ((bind_ok first).trans ?_)
  rw [if_pos rfl, List.foldl_append]
  show EStateM.Result.ok () (Focus.mk { inst with stash := inst.stash, mounted := false } _) = _
  rw [still]
  rfl

end Retire

namespace World

variable {w : World} {n : Nat}

/-- Destroying a newborn instance releases its root and those of all below it. -/
theorem Newborn.releases {i : InstanceId} (h : w.Newborn n i) :
    ∃ rs : List NodeId, {r | r ∈ rs} = w.roots (w.tree i) ∧
      ∀ depth, i < depth → Run.Releases w n (i + 1) (Run.retireWithin depth .destroy i) () rs := by
  induction h with
  | @intro i inst there new unmounted plain older _ ih =>
    -- `f` gives what is released for each child.
    choose! f roots releases using ih
    refine ⟨inst.children.flatMap f ++ [inst.root], ?_, fun depth deep => ?_⟩
    · rw [roots_tree there plain, World.roots_below, ← Set.iUnion₂_congr roots]
      ext r
      simp [or_comm]
    · cases depth with
      | zero => exact absurd deep (Nat.not_lt_zero i)
      | succ depth =>
        refine .hold there new fun v same free => ?_
        -- Children are older, so the depth that is left is enough for them, and none is held.
        have stash := Retire.entries_release (Run.retireWithin depth) plain fun j hj =>
          (releases j hj depth (Nat.lt_of_lt_of_le (older j hj) (Nat.le_of_lt_succ deep))).mono
            (older j hj)
        exact Retire.inPlace_releases _ unmounted stash same free

/-- The nodes that are left of newborn instances when they are destroyed one after the other. -/
theorem Newborn.forM_releases {is : List InstanceId} (h : ∀ i ∈ is, w.Newborn n i) :
    ∃ rs : List NodeId, {r | r ∈ rs} = w.roots (w.below is) ∧
      Run.Releases w n w.instances.size (is.forM (Run.retire .destroy)) () rs := by
  induction is with
  | nil => exact ⟨[], by simp [roots_below], .pure ()⟩
  | cons i is ih =>
    rw [List.forall_mem_cons] at h
    obtain ⟨rs, roots, releases⟩ := h.1.releases
    obtain ⟨rs', roots', releases'⟩ := ih h.2
    refine ⟨rs ++ rs', ?_, ?_⟩
    · rw [roots_below] at roots' ⊢
      simp only [List.mem_append, Set.ofPred_or, roots, roots', List.mem_cons, Set.iUnion_or,
        Set.iUnion_union_distrib, Set.iUnion_iUnion_eq_left]
    · refine Run.Releases.bind (a := ()) (f := fun _ => is.forM (Run.retire .destroy)) ?_ releases'
      intro v same free
      have size : v.instances.size = w.instances.size := by rw [same]
      exact (releases (v.instances.size + 1) (Nat.lt_succ_of_lt (size ▸ h.1.lt_size))).mono
        h.1.lt_size v same free

end World

end ComponentView
