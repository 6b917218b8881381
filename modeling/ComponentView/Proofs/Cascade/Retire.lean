import ComponentView.Proofs.Cascade.Tree
import ComponentView.Proofs.Containers.Blueprint
import ComponentView.Proofs.Document.Parting
import ComponentView.Proofs.Repeat.Keyed
import ComponentView.Proofs.Returns

/-! # Dismounting a tree

Dismounting goes down a tree of instances, and on the way back shared repeaters return what they hold.
Parts of the tree that have nothing in common are dismounted one after another: what each adds to what
is done is its own, whatever has been done before (`Cascades`). An instance on the way down is held,
and its tree has nothing in common with those that are held above it, so no way is too deep and none
comes back to an instance (`Run.retire_cascades`). -/

namespace ComponentView

namespace World

/-- The roots of instances. -/
def roots (w : World) (is : Set InstanceId) : Set NodeId := {root | ∃ i ∈ is, w.root? i = some root}

/-- Since `origin` the instances in `done` have been dismounted, those in `given` have come to the
pools of their definitions, and the roots of those in `parted` have been taken out of their parents;
nothing else has changed. -/
structure Cascading (origin : World) (busy : List InstanceId) (done given parted : Set InstanceId)
    (w : World) : Prop where
  busy_eq : w.busy = busy
  count : w.instances.size = origin.instances.size
  past : ∀ k ∈ done, w.instances[k]? = origin.instances[k]?.map Instance.dismounted
  rest : ∀ k ∉ done, w.instances[k]? = origin.instances[k]?
  capacity : w.pools.size = origin.pools.size
  pools : ∀ id, ∃ new, w.pool id = new ++ origin.pool id ∧ new.Nodup ∧
    ∀ j, j ∈ new ↔ j ∈ given ∧ origin.definition? j = some id
  subset : given ⊆ done
  document : Document.Parted (origin.roots parted) origin.document w.document

variable {origin w : World} {busy : List InstanceId} {done given parted : Set InstanceId}
  {k : InstanceId} {root : NodeId} {id : DefinitionId}

/-- One more instance has one more root. -/
theorem roots_insert (hroot : w.root? k = some root) (is : Set InstanceId) :
    w.roots (insert k is) = insert root (w.roots is) := by
  ext r
  constructor
  · rintro ⟨i, rfl | hi, hr⟩
    · exact Or.inl (Option.some.inj (hr.symm.trans hroot))
    · exact Or.inr ⟨i, hi, hr⟩
  · rintro (rfl | ⟨i, hi, hr⟩)
    · exact ⟨k, Or.inl rfl, hroot⟩
    · exact ⟨i, Or.inr hi, hr⟩

namespace Cascading

/-- Nothing has happened yet. -/
theorem start (w : World) : w.Cascading w.busy ∅ ∅ ∅ w where
  busy_eq := rfl
  count := rfl
  past _ hk := hk.elim
  rest _ _ := rfl
  capacity := rfl
  pools _ := ⟨[], rfl, List.nodup_nil, fun _ => ⟨nofun, fun h => h.1.elim⟩⟩
  subset := Set.empty_subset _
  document := by
    have : w.roots ∅ = ∅ := Set.eq_empty_of_forall_notMem fun _ ⟨_, hi, _⟩ => hi
    rw [this]
    exact .refl _

variable (h : origin.Cascading busy done given parted w)

include h

/-- A root is taken out of where it stands. -/
theorem detach (hroot : origin.root? k = some root) :
    origin.Cascading busy done given (insert k parted)
      { w with document := w.document.detach root } :=
  { h with document := roots_insert hroot parted ▸ h.document.detach root }

/-- An instance that has been dismounted comes to the pool of its definition. -/
theorem push (hd : origin.definition? k = some id) (room : id < origin.pools.size) (hk : k ∈ done)
    (new : k ∉ given) :
    origin.Cascading busy done (insert k given) parted (w.setPool id (k :: w.pool id)) where
  busy_eq := h.busy_eq
  count := h.count
  past := h.past
  rest := h.rest
  capacity := Array.size_modify.trans h.capacity
  subset := Set.insert_subset hk h.subset
  document := h.document
  pools other := by
    obtain ⟨spare, pool, nodup, mem⟩ := h.pools other
    by_cases he : other = id
    · subst he
      rw [pool_setPool_self (h.capacity ▸ room), pool]
      refine ⟨k :: spare, rfl, nodup.cons fun hk => new ((mem k).mp hk).1, fun j => ?_⟩
      rw [List.mem_cons, mem, Set.mem_insert_iff, or_and_right]
      exact or_congr_left ⟨fun hj => ⟨hj, hj ▸ hd⟩, And.left⟩
    · rw [pool_setPool_other he]
      refine ⟨spare, pool, nodup, fun j => ?_⟩
      rw [mem, Set.mem_insert_iff, or_and_right]
      refine ⟨Or.inr, fun hj => hj.resolve_left ?_⟩
      rintro ⟨rfl, hother⟩
      exact he (Option.some.inj (hother.symm.trans hd))

/-- The instance that has been held is put back as dismounted. -/
theorem back {i : InstanceId} {inst : Instance} (hi : origin.instances[i]? = some inst)
    (later : List InstanceId) :
    origin.Cascading later (insert i done) given parted
      { w with busy := later, instances := w.instances.setIfInBounds i inst.dismounted } where
  busy_eq := rfl
  count := Array.size_setIfInBounds.trans h.count
  past k hk := by
    by_cases he : i = k
    · subst he
      have lt := (Array.getElem?_eq_some_iff.mp hi).1
      rw [Array.getElem?_setIfInBounds_self_of_lt (h.count ▸ lt), hi, Option.map_some]
    · rw [Array.getElem?_setIfInBounds_ne he]
      exact h.past k (hk.resolve_left (Ne.symm he))
  rest k hk := by
    rw [Set.mem_insert_iff, not_or] at hk
    rw [Array.getElem?_setIfInBounds_ne (Ne.symm hk.1)]
    exact h.rest k hk.2
  capacity := h.capacity
  pools := h.pools
  subset := h.subset.trans (Set.subset_insert i done)
  document := h.document

omit h in
/-- The root of an instance that is neither done nor held is taken out of where it stands. -/
theorem withdraw {α : Type} {x : Run α} {Q : α → World → Prop} (hroot : origin.root? k = some root)
    (hk : k ∉ done) (free : k ∉ busy)
    (hx : Ends (origin.Cascading busy done given (insert k parted)) x Q fun _ _ => False) :
    Ends (origin.Cascading busy done given parted)
      (do
        let root ← Run.rootOf k
        Run.onDocument (·.detach root)
        x)
      Q fun _ _ => False := by
  refine Ends.bind (Q := fun r w => r = root ∧ origin.Cascading busy done given parted w)
    (.pointwise fun w h => ?_) fun r => .assume fun hr => ?_
  · have there : w.root? k = some root := by rw [root?, h.rest k hk]; exact hroot
    exact (Keyed.rootOf_ends (h.busy_eq ▸ free) there).mono (fun _ hv => hv.symm)
      (fun _ _ hv => ⟨hv.1, hv.2 ▸ h⟩) fun _ _ hs => hs
  · subst hr
    exact Ends.bind (Q := fun _ => origin.Cascading busy done given (insert k parted))
      (.modify fun w h => h.detach hroot) fun _ => hx

end Cascading

end World

/-! ## One part after another -/

/-- Where nothing of `scope` is done, the computation ends with the result, has dismounted what is in
`scope` and has given `gain` back. -/
def Cascades {α : Type} (origin : World) (busy : List InstanceId) (x : Run α)
    (scope gain : Set InstanceId) (a : α) : Prop :=
  ∀ done given parted, (∀ k ∈ scope, k ∉ done) →
    Ends (origin.Cascading busy done given parted) x
      (fun b w => b = a ∧ origin.Cascading busy (done ∪ scope) (given ∪ gain) (parted ∪ gain) w)
      fun _ _ => False

namespace Cascades

variable {α β : Type} {origin : World} {busy : List InstanceId} {x : Run α}
  {scope scope' gain gain' : Set InstanceId} {a : α} {b : β}

/-- A result cascades to nobody. -/
theorem pure (a : α) : Cascades origin busy (pure a) ∅ ∅ a := fun _ _ _ _ =>
  .pure fun _ h => ⟨rfl, by rwa [Set.union_empty, Set.union_empty, Set.union_empty]⟩

/-- Two cascades over different instances are one over both. -/
theorem bind {f : α → Run β} (hx : Cascades origin busy x scope gain a)
    (hf : Cascades origin busy (f a) scope' gain' b) (apart : ∀ k ∈ scope, k ∉ scope') :
    Cascades origin busy (x >>= f) (scope ∪ scope') (gain ∪ gain') b := by
  intro done given parted free
  rw [← Set.union_assoc, ← Set.union_assoc, ← Set.union_assoc]
  refine (hx done given parted fun k hk => free k (Or.inl hk)).bind fun a' => .assume fun ha => ?_
  subst ha
  -- The first part has done nothing of the second.
  exact hf _ _ _ fun k hk => not_or.mpr ⟨free k (Or.inr hk), fun hk' => apart k hk' hk⟩

/-- What is made of the result does not matter. -/
theorem map (g : α → β) (hx : Cascades origin busy x scope gain a) :
    Cascades origin busy (do return g (← x)) scope gain (g a) := by
  have := hx.bind (f := fun a => Pure.pure (g a)) (pure (g a)) fun _ _ hk => hk
  rwa [Set.union_empty, Set.union_empty] at this

/-- Trees that have nothing in common are dismounted one after another. -/
theorem forM {f : InstanceId → Run Unit} {gains : InstanceId → Set InstanceId}
    {is : List InstanceId} (each : ∀ k ∈ is, Cascades origin busy (f k) (origin.tree k) (gains k) ())
    (apart : is.Pairwise origin.Severed) :
    Cascades origin busy (is.forM f) (origin.below is) (⋃ k ∈ is, gains k) () := by
  induction is with
  | nil =>
    have : Cascades origin busy (Pure.pure ()) ∅ ∅ () := pure ()
    simpa [World.below] using this
  | cons k is ih =>
    rw [List.forall_mem_cons] at each
    rw [List.pairwise_cons] at apart
    have rest : ∀ m ∈ origin.tree k, m ∉ origin.below is := fun m hm hm' => by
      obtain ⟨j, hj, hm'⟩ := World.mem_below.mp hm'
      exact apart.1 j hj m hm hm'
    have := each.1.bind (f := fun _ => is.forM f) (ih each.2 apart.2) rest
    simpa [World.below, Set.iUnion_or, Set.iUnion_union_distrib] using this

end Cascades

/-! ## Entries -/

namespace Retire

variable {origin : World} {busy : List InstanceId} {retire : Retire} {id : DefinitionId}
  {k : InstanceId}

/-- A way to dismount the instance, which stands in no operation and does not hold itself. -/
structure Reaches (origin : World) (busy : List InstanceId) (retire : Retire) (k : InstanceId) :
    Prop where
  cascades : Cascades origin busy (retire .dismount k) (origin.tree k) (origin.loans k) ()
  exists_root : ∃ root, origin.root? k = some root
  free : k ∉ busy
  new : k ∉ origin.loans k

section One

variable (reaches : Reaches origin busy retire k)

include reaches

/-- An instance that is given back leaves the document and comes to a pool. -/
theorem giveBack_cascades (hd : origin.definition? k = some id) (room : id < origin.pools.size) :
    Cascades origin busy (giveBack retire id k) (origin.tree k) (insert k (origin.loans k)) () := by
  intro done given parted apart
  have own : k ∉ done := apart k (origin.mem_tree_self k)
  obtain ⟨root, hroot⟩ := reaches.exists_root
  refine .pointwise fun w h => .pre (P := origin.Cascading busy done given parted) ?_
    fun _ hs => hs ▸ h
  -- It is neither on loan below itself nor given back already, for then it would be done.
  have new : k ∉ given ∪ origin.loans k := fun hk =>
    hk.elim (fun hk => own (h.subset hk)) reaches.new
  refine World.Cascading.withdraw hroot own reaches.free ?_
  refine (reaches.cascades done given _ apart).bind fun _ => .modify fun w h => ⟨rfl, ?_⟩
  have pushed := h.2.push hd room (Or.inr (origin.mem_tree_self k)) new
  rwa [Set.insert_union, ← Set.union_insert, ← Set.union_insert] at pushed

/-- A shared repeater takes an instance out of the document before it gives it back. -/
theorem cleared_cascades (hd : origin.definition? k = some id) (room : id < origin.pools.size) :
    Cascades origin busy
      (do
        let root ← Run.rootOf k
        Run.onDocument (·.detach root)
        drop retire id true k)
      (origin.tree k) (insert k (origin.loans k)) () := by
  intro done given parted apart
  have own : k ∉ done := apart k (origin.mem_tree_self k)
  obtain ⟨root, hroot⟩ := reaches.exists_root
  refine World.Cascading.withdraw hroot own reaches.free ?_
  refine (giveBack_cascades reaches hd room done given _ apart).post fun _ w h => ?_
  rwa [Set.insert_union, ← Set.union_insert, Set.insert_idem] at h

end One

/-- What a shared repeater holds is given back. -/
theorem clear_cascades {is : List InstanceId} (reaches : ∀ k ∈ is, Reaches origin busy retire k)
    (apart : is.Pairwise origin.Severed)
    (hd : ∀ k ∈ is, origin.definition? k = some id) (room : id < origin.pools.size) :
    Cascades origin busy (clear retire id true is) (origin.below is)
      ({j | j ∈ is} ∪ ⋃ k ∈ is, origin.loans k) () := by
  have gains : (⋃ k ∈ is, insert k (origin.loans k)) = {j | j ∈ is} ∪ ⋃ k ∈ is, origin.loans k := by
    ext j
    simp only [Set.mem_iUnion₂, Set.mem_insert_iff, Set.mem_union, Set.mem_ofPred_eq, exists_prop,
      and_or_left, exists_or, exists_eq_right']
  rw [← gains]
  exact .forM (fun k hk => cleared_cascades (reaches k hk) (hd k hk) room) apart

/-- What is not on loan is dismounted where it is. -/
theorem dismountAll_cascades {is : List InstanceId}
    (reaches : ∀ k ∈ is, Reaches origin busy retire k)
    (apart : is.Pairwise origin.Severed) :
    Cascades origin busy (is.forM (retire .dismount)) (origin.below is)
      ({j | j ∈ ([] : List InstanceId)} ∪ ⋃ k ∈ is, origin.loans k) () := by
  have gain : {j : InstanceId | j ∈ ([] : List InstanceId)} = ∅ :=
    Set.eq_empty_of_forall_notMem fun _ => List.not_mem_nil
  rw [gain, Set.empty_union]
  exact .forM (fun k hk => (reaches k hk).cascades) apart

/-- Of an entry everything is dismounted that it holds, and what it has on loan is given back. -/
theorem entry_cascades {item : StashItem}
    (reaches : ∀ k ∈ item.held, Reaches origin busy retire k)
    (apart : item.held.Pairwise origin.Severed)
    (even : item.Even) (ranks : item.Ranks origin id) (room : id < origin.pools.size) :
    Cascades origin busy (entry retire .dismount item) (origin.below item.held)
      (origin.due [item]) item.vacated := by
  cases item with
  | tracker t =>
    have scope : origin.below (StashItem.tracker t).held = ∅ := by simp [World.below, StashItem.held]
    have gain : origin.due [.tracker t] = ∅ := by
      simp [World.due, StashItem.held, StashItem.lent]
    rw [scope, gain]
    exact .pure (StashItem.tracker t)
  | child i =>
    have scope : origin.below (StashItem.child i).held = origin.tree i := by
      simp [World.below, StashItem.held]
    have gain : origin.due [.child i] = origin.loans i := by
      simp [World.due, StashItem.held, StashItem.lent]
    rw [scope, gain]
    exact (reaches i (List.mem_singleton_self i)).cascades.map fun _ => StashItem.child i
  | sequential r =>
    rw [World.due_singleton]
    obtain ⟨definition, share, anchors, instances, attached⟩ := r
    refine .map StashItem.sequential (a := if share then ⟨definition, share, anchors, [], 0⟩
      else ⟨definition, share, anchors, instances, attached⟩) ?_
    cases share with
    | true => exact (clear_cascades reaches apart ranks.2 (ranks.1.trans room)).map fun _ => _
    | false => exact (dismountAll_cascades reaches apart).map fun _ => _
  | keyed r =>
    rw [World.due_singleton]
    -- The order names each instance once, so clearing in order leaves none.
    have perm := Keyed.inOrder_perm even
    have rest := Keyed.filter_not_mem_order even
    obtain ⟨definition, key, share, anchors, instances, order⟩ := r
    refine .map StashItem.keyed (a := if share then ⟨definition, key, share, anchors, [], []⟩
      else ⟨definition, key, share, anchors, instances, order⟩) ?_
    cases share with
    | true =>
      have cleared := (clear_cascades (fun k hk => reaches k (perm.subset hk))
        ((perm.pairwise_iff World.Severed.symm).mpr apart) (fun k hk => ranks.2.1 k (perm.subset hk))
        (ranks.1.trans room)).map fun _ => (⟨definition, key, true, anchors, [], []⟩ : Keyed)
      simp only [World.below, perm.mem_iff] at cleared
      rw [keyed, if_pos (Or.inr rfl), rest]
      exact cleared
    | false => exact (dismountAll_cascades reaches apart).map fun _ => _

/-- The entries of a stash are put out of use in their order. -/
theorem entries_cascades {items : List StashItem}
    (reaches : ∀ k ∈ items.flatMap StashItem.held, Reaches origin busy retire k)
    (apart : (items.flatMap StashItem.held).Pairwise origin.Severed)
    (even : ∀ item ∈ items, item.Even) (ranks : ∀ item ∈ items, item.Ranks origin id)
    (room : id < origin.pools.size) :
    Cascades origin busy (items.mapM (entry retire .dismount))
      (origin.below (items.flatMap StashItem.held)) (origin.due items)
      (items.map StashItem.vacated) := by
  induction items with
  | nil =>
    have scope : origin.below [] = ∅ := by simp [World.below]
    have gain : origin.due [] = ∅ := by simp [World.due]
    rw [List.flatMap_nil, scope, gain]
    exact .pure []
  | cons item items ih =>
    rw [List.flatMap_cons, List.forall_mem_append] at reaches
    rw [List.flatMap_cons, List.pairwise_append] at apart
    rw [List.forall_mem_cons] at even ranks
    have rest : ∀ m ∈ origin.below item.held, m ∉ origin.below (items.flatMap StashItem.held) := by
      intro m hm hm'
      obtain ⟨j, hj, hm⟩ := World.mem_below.mp hm
      obtain ⟨k, hk, hm'⟩ := World.mem_below.mp hm'
      exact apart.2.2 j hj k hk m hm hm'
    rw [List.flatMap_cons, World.below_append, World.due_cons, List.mapM_cons]
    exact (entry_cascades reaches.1 apart.1 even.1 ranks.1 room).bind
      ((ih reaches.2 apart.2.1 even.2 ranks.2).map fun rest => item.vacated :: rest) rest

end Retire

/-! ## Instances -/

namespace Run

open Retire

variable {origin : World} {lib : Library} {busy : List InstanceId} {i : InstanceId}
  {inst : Instance}

/-- An instance is dismounted when what it holds is: it is held all the while. -/
theorem hold_inPlace_cascades {retire : Retire} (h : origin.Arranged lib)
    (hi : origin.instances[i]? = some inst) (free : i ∉ busy)
    (reaches : ∀ k ∈ inst.held, Reaches origin (i :: busy) retire k) :
    Cascades origin busy (hold i (inPlace retire .dismount)) (origin.tree i) (origin.loans i) () := by
  intro done given parted apart
  have own : i ∉ done := apart i (origin.mem_tree_self i)
  refine .hold_at (fun w hw => ⟨(hw.rest i own).trans hi, hw.busy_eq ▸ free⟩)
    fun w hw => ?_
  -- While it is held the world still shows it as it was; it counts as done when it is put back.
  have inside : origin.Cascading (i :: busy) done given parted { w with busy := i :: w.busy } :=
    { hw with busy_eq := congrArg (i :: ·) hw.busy_eq }
  have entries := entries_cascades reaches (h.pairwise_held hi) (fun item hm => h.even hi hm)
    (fun item hm => h.ranks hi hm) (h.lt_pools hi) done given parted
      fun k hk => apart k (World.tree_eq hi ▸ Or.inr hk)
  unfold inPlace
  refine .held_at ?_
  refine Ends.bind (Q := fun stash f => f.held = inst ∧ stash = inst.stash.map StashItem.vacated ∧
    origin.Cascading (i :: busy) (done ∪ origin.below inst.held) (given ∪ origin.due inst.stash)
      (parted ∪ origin.due inst.stash) f.world) ?_ fun stash => ?_
  · exact Ends.outside_eq (P := ({ w with busy := i :: w.busy } = ·)) (E := fun _ => False)
      (entries.pre fun _ hv => hv ▸ inside)
  · rw [if_neg (by simp)]
    refine .change fun inst' v hf => ⟨rfl, ?_⟩
    obtain ⟨held, rfl, hv⟩ := hf
    obtain rfl : inst' = inst := held
    rw [World.tree_eq hi, World.loans_eq hi, Set.union_insert]
    exact hw.busy_eq ▸ hv.back hi w.busy

/-- Following instances in instances dismounts a tree, as long as there are more steps left than
instances that are not held. -/
theorem retireWithin_cascades (h : origin.Arranged lib) (depth : Nat) :
    ∀ {busy : List InstanceId} {i : InstanceId} {inst : Instance}, busy.Nodup →
      (∀ b ∈ busy, b < origin.instances.size ∧ b ∉ origin.tree i) →
      origin.instances.size < busy.length + depth → origin.instances[i]? = some inst →
      Cascades origin busy (retireWithin depth .dismount i) (origin.tree i) (origin.loans i) () := by
  induction depth with
  | zero =>
    intro busy i inst nodup above deep hi
    -- So many different instances cannot be held.
    have few : busy.length ≤ (List.range origin.instances.size).length :=
      (List.subperm_of_subset nodup fun b hb => List.mem_range.mpr (above b hb).1).length_le
    rw [List.length_range] at few
    omega
  | succ depth ih =>
    intro busy i inst nodup above deep hi
    have free : i ∉ busy := fun hb => (above i hb).2 (origin.mem_tree_self i)
    refine hold_inPlace_cascades h hi free fun k hk => ?_
    obtain ⟨inst', hk'⟩ := h.exists_of_mem_held hi hk
    -- What is held above is in no tree below, and the instance itself is not below itself.
    have inner : ∀ b ∈ i :: busy, b < origin.instances.size ∧ b ∉ origin.tree k := by
      refine List.forall_mem_cons.mpr ⟨⟨(Array.getElem?_eq_some_iff.mp hi).1,
        h.not_mem_tree hi hk⟩, fun b hb => ⟨(above b hb).1, fun hm => (above b hb).2 ?_⟩⟩
      exact .head ⟨inst, hi, hk⟩ hm
    refine ⟨ih (nodup.cons free) inner ?_ hk', ⟨inst'.root, by rw [World.root?, hk']; rfl⟩,
      fun hb => (inner k hb).2 (origin.mem_tree_self k), h.not_mem_loans k⟩
    rw [List.length_cons]
    omega

/-- To dismount an instance is to dismount its tree. -/
theorem retire_cascades (h : origin.Arranged lib) (hi : origin.instances[i]? = some inst) :
    Cascades origin [] (retire .dismount i) (origin.tree i) (origin.loans i) () := by
  intro done given parted apart
  refine Ends.get.bind fun w => .pointwise fun v hv => ?_
  obtain ⟨rfl, hw⟩ := hv
  refine (retireWithin_cascades h _ List.nodup_nil (List.forall_mem_nil _) ?_ hi done given parted
    apart).pre fun _ hs => hs ▸ hw
  rw [hw.count, List.length_nil, Nat.zero_add]
  exact Nat.lt_succ_self _

end Run

end ComponentView
