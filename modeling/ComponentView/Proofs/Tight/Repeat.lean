import ComponentView.Proofs.Repeat.Blocks
import ComponentView.Proofs.Tight.Runs

/-! # Repeaters of tight instances

Putting instances out of use cannot fail, and changes neither what kind an entry of a stash is nor its
anchors. A patch is safe whatever the repeater is. It keeps the anchors of the repeater and leaves it
even if it was, wherever it stops: a repeater by position has no more instances attached than there
are (`Sequential.patch_safe`), and the order of one by key has each of its keys once
(`Keyed.patch_safe`). -/

namespace ComponentView

variable {lib : Library}

/-- Whatever is asked of the engine is done safely. -/
structure Engine.Safe (lib : Library) (engine : Engine) : Prop where
  library : engine.library = lib
  render : ∀ i props controller, Run.Safe lib (engine.render i props controller)
  acquire : ∀ id share props controller, Run.Safe lib (engine.acquire id share props controller)
  dispatch : ∀ target name value, Run.Safe lib (engine.dispatch target name value)
  publish : ∀ name value, Run.Safe lib (engine.publish name value)

/-- The entry has the anchors and is even. What is said of a repeater below is said in the case `p`
that this was so before. -/
structure StashItem.Kept (anchors : List Anchor) (item : StashItem) : Prop where
  anchors : item.anchors = anchors
  even : item.Even

/-! ## Retirement -/

namespace Retire

variable {retire : Retire} (sure : ∀ mode i, Run.Sure lib (retire mode i))

include sure

/-- Giving an instance back cannot fail. -/
theorem giveBack_sure (id : DefinitionId) (i : InstanceId) :
    Run.Sure lib (giveBack retire id i) :=
  (Run.Sure.rootOf i).bind fun _ => (Run.Sure.onDocument _).bind fun _ =>
    (sure .dismount i).bind fun _ => Run.Sure.pushPool id i

/-- Dropping a row cannot fail. -/
theorem drop_sure (id : DefinitionId) (share : Bool) (i : InstanceId) :
    Run.Sure lib (drop retire id share i) := by
  unfold drop
  split
  · exact giveBack_sure sure id i
  · exact sure .destroy i

/-- Clearing rows cannot fail. -/
theorem clear_sure (id : DefinitionId) (share : Bool) (is : List InstanceId) :
    Run.Sure lib (clear retire id share is) :=
  .forM fun i _ => (Run.Sure.rootOf i).bind fun _ => (Run.Sure.onDocument _).bind fun _ =>
    drop_sure sure id share i

/-- An entry stays of its kind, keeps its anchors and stays even. -/
theorem entry_sure (mode : Retirement) (item : StashItem) (busy : List InstanceId) :
    Ends (World.Tight lib busy) (entry retire mode item)
      (fun item' w => item.Succeeds item' ∧ w.Tight lib busy) fun stop _ => stop.Waived := by
  have stay (is : List InstanceId) : Run.Sure lib (is.forM (retire .dismount)) :=
    .forM fun i _ => sure .dismount i
  cases item with
  | tracker t => exact .pure fun _ h => ⟨⟨rfl, rfl, id⟩, h⟩
  | child i => exact (sure mode i busy).bind fun _ => .pure fun _ h => ⟨⟨rfl, rfl, id⟩, h⟩
  | sequential r =>
    refine Ends.bind (Q := fun r' w => (StashItem.sequential r).Succeeds (.sequential r') ∧
      w.Tight lib busy) ?_ fun r' => .pure fun _ h => h
    unfold sequential
    split
    · exact (clear_sure sure _ _ _ busy).bind fun _ => .pure fun _ h =>
        ⟨⟨rfl, rfl, fun _ => Nat.zero_le _⟩, h⟩
    · exact (stay _ busy).bind fun _ => .pure fun _ h => ⟨⟨rfl, rfl, id⟩, h⟩
  | keyed r =>
    refine Ends.bind (Q := fun r' w => (StashItem.keyed r).Succeeds (.keyed r') ∧
      w.Tight lib busy) ?_ fun r' => .pure fun _ h => h
    unfold keyed
    split
    · refine (clear_sure sure _ _ _ busy).bind fun _ => .pure fun _ h => ⟨⟨rfl, rfl, fun even => ?_⟩, h⟩
      rw [Keyed.filter_not_mem_order even]
      exact ⟨List.nodup_nil, List.nodup_nil, fun _ => Iff.rfl⟩
    · exact (stay _ busy).bind fun _ => .pure fun _ h => ⟨⟨rfl, rfl, id⟩, h⟩

/-- An instance goes on following its template when it is put out of use. -/
theorem inPlace_sure (mode : Retirement) (busy : List InstanceId) :
    Ends (Focus.Tight (Instance.Follows lib) lib busy) (inPlace retire mode)
      (fun _ => Focus.Tight (Instance.Follows lib) lib busy) fun stop _ => stop.Waived := by
  refine .pointwise fun f hf => ?_
  obtain ⟨inst, w⟩ := f
  obtain ⟨⟨d, hd, elements, backs⟩, tight⟩ := hf
  have done (stash : List StashItem) : Ends
      (fun f => f.held = inst ∧ List.Forall₂ StashItem.Succeeds inst.stash stash ∧
        f.world.Tight lib busy)
      (Holding.change fun inst => { inst with stash, mounted := false })
      (fun _ => Focus.Tight (Instance.Follows lib) lib busy) fun stop _ => stop.Waived := by
    refine .change fun inst' v h => ?_
    obtain ⟨rfl, same, later⟩ := h
    exact ⟨⟨d, hd, elements, backs.cache, StashItem.Suits.replaced backs.stash same⟩, later⟩
  unfold inPlace
  refine .pre (.held_bind (P := World.Tight lib busy) ?_) (by rintro _ rfl; exact ⟨rfl, tight⟩)
  refine (Ends.outside_eq (.mapM fun item _ => entry_sure sure mode item busy)).bind fun stash => ?_
  split
  · exact (Ends.outside_eq (.assume fun same => (Run.Sure.onDocument _ busy).post fun _ _ h =>
      (⟨same, h⟩ : _ ∧ _))).bind fun _ => done stash
  · exact done stash

end Retire

namespace Run.Sure

/-- However deep a retirement goes, it cannot fail. -/
theorem retireWithin (depth : Nat) (mode : Retirement) (i : InstanceId) :
    Sure lib (retireWithin depth mode i) := by
  induction depth generalizing mode i with
  | zero => exact fun _ => .throw fun _ _ => ⟨⟨_, rfl⟩, id⟩
  | succ depth ih =>
    refine fun busy => Ends.hold (fun _ _ => ⟨⟨_, rfl⟩, id⟩) (fun _ _ => ⟨⟨_, rfl⟩, id⟩)
      fun w inst hw hi hb => ?_
    obtain rfl := hw.busy_eq
    refine ((Retire.inPlace_sure ih mode (i :: w.busy)).post fun _ _ hf => hf.2.back hf.1).pre ?_
    rintro _ rfl
    exact ⟨hw.follows hi hb, hw.take i⟩

/-- Putting an instance out of use is safe and cannot fail. -/
theorem retire (mode : Retirement) (i : InstanceId) : Sure lib (retire mode i) := fun busy =>
  Ends.get.bind fun _ => (retireWithin _ mode i busy).pre fun _ h => h.2

end Run.Sure

/-! ## Repeaters by position -/

namespace Sequential

variable {engine : Engine} (safe : engine.Safe lib) (controller : Controller) {p : Prop}
  {anchors : List Anchor} {busy : List InstanceId}

/-- The repeater has instances up to a position, and is kept otherwise. -/
structure Reaches (anchors : List Anchor) (position : Nat) (r : Sequential) : Prop
    extends (StashItem.sequential r).Kept anchors where
  position : position ≤ r.instances.length

include safe

/-- The instance of the next position is rendered, or a new one is made. -/
theorem instanceFor_safe (position : Nat) (item : Value) :
    Ends (Focus.Tight (p → Reaches anchors position ·) lib busy)
      (instanceFor engine controller position item)
      (fun _ => Focus.Tight (p → Reaches anchors (position + 1) ·) lib busy)
      (Safely (Focus.Tight (p → Reaches anchors position ·) lib busy)) := by
  refine Ends.held.bind fun r => ?_
  split
  · next i hi =>
    have hlt := (List.getElem?_eq_some_iff.mp hi).1
    have rendered : Holding.Safe lib (fun a => r = a ∧ (p → Reaches anchors position a))
        (Holding.outside (engine.render i item controller)) :=
      .outside (safe.render i item controller)
    refine Ends.bind ((rendered busy).mono (fun _ h => ⟨⟨h.1, h.2.1⟩, h.2.2⟩) (fun _ _ h => h)
      fun _ _ h => h.mono fun h => ⟨h.1.2, h.2⟩) fun _ => .pure fun f h => ?_
    obtain ⟨⟨rfl, reaches⟩, tight⟩ := h
    exact ⟨fun hp => ⟨(reaches hp).toKept, hlt⟩, tight⟩
  · next none =>
    have hle := List.getElem?_eq_none_iff.mp none
    refine Ends.pre (P := Focus.Tight (p → Reaches anchors position ·) lib busy) ?_ fun _ h => h.2
    refine Ends.bind (Holding.Safe.outside (safe.acquire r.definition r.share item controller) busy)
      fun i => Ends.bind (Holding.Safe.outside (.welcome i) busy) fun _ => ?_
    refine Ends.bind (.change fun r w h => ?_) fun _ => .pure fun _ h => h
    refine ⟨fun hp => ?_, h.2⟩
    obtain ⟨⟨hanchors, even⟩, reaches⟩ := h.1 hp
    have even : r.attached ≤ r.instances.length := even
    refine ⟨⟨hanchors, ?_⟩, ?_⟩
    · show r.attached ≤ (r.instances ++ [i]).length
      rw [List.length_append]
      exact Nat.le_add_right_of_le even
    · show position + 1 ≤ (r.instances ++ [i]).length
      rw [List.length_append]
      exact Nat.add_le_add_right reaches 1

/-- An item is shown at the next position. -/
theorem showItem_safe (container : NodeId) (anchor : Option NodeId) (position : Nat) (item : Value) :
    Ends (Focus.Tight (p → Reaches anchors position ·) lib busy)
      (showItem engine container anchor controller position item)
      (fun _ => Focus.Tight (p → Reaches anchors (position + 1) ·) lib busy)
      (Safely (Focus.Tight (p → Reaches anchors 0 ·) lib busy)) := by
  have less (position : Nat) (f : Focus Sequential)
      (h : Focus.Tight (p → Reaches anchors position ·) lib busy f) :
      Focus.Tight (p → Reaches anchors 0 ·) lib busy f :=
    ⟨fun hp => ⟨(h.1 hp).toKept, Nat.zero_le _⟩, h.2⟩
  refine ((instanceFor_safe safe controller position item).mono (fun _ h => h) (fun _ _ h => h)
    fun _ _ h => h.mono (less _ _)).bind fun i => Ends.held.bind fun r => ?_
  refine Ends.pre (P := Focus.Tight (p → Reaches anchors (position + 1) ·) lib busy) ?_ fun _ h => h.2
  split
  · have shown : Run.Safe lib (do
        let root ← Run.rootOf i
        Run.onDocument (·.insertBefore container root anchor)) :=
      (Run.Safe.rootOf i).bind fun _ => Run.Safe.onDocument _
    refine ((Holding.Safe.outside shown busy).mono (fun _ h => h) (fun _ _ h => h)
      fun _ _ h => h.mono (less _ _)).bind fun _ => .change fun r w h => ?_
    exact ⟨fun hp => ⟨⟨(h.1 hp).anchors, (h.1 hp).position⟩, (h.1 hp).position⟩, h.2⟩
  · exact .pure fun _ h => h

/-- Showing the items from a position on reaches the last of them. -/
theorem showItems_safe (container : NodeId) (anchor : Option NodeId) (position : Nat)
    (items : List Value) :
    Ends (Focus.Tight (p → Reaches anchors position ·) lib busy)
      (showItems engine container anchor controller position items)
      (fun _ => Focus.Tight (p → Reaches anchors (position + items.length) ·) lib busy)
      (Safely (Focus.Tight (p → Reaches anchors 0 ·) lib busy)) := by
  induction items generalizing position with
  | nil => exact .pure fun _ h => h
  | cons item items ih =>
    refine (showItem_safe safe controller container anchor position item).bind fun _ => ?_
    have := ih (position + 1)
    rwa [Nat.add_right_comm, Nat.add_assoc] at this

omit safe

/-- The instances from a position on leave the container. -/
theorem withdraw_safe (container : NodeId) (position : Nat) :
    Ends (Focus.Tight (p → Reaches anchors position ·) lib busy) (withdraw container position)
      (fun _ => Focus.Tight (fun r => p → Reaches anchors position r ∧ r.attached ≤ position) lib busy)
      (Safely (Focus.Tight (p → Reaches anchors 0 ·) lib busy)) := by
  refine Ends.held.bind fun r => Ends.pre (P := Focus.Tight (p → Reaches anchors position ·) lib busy) ?_
    fun _ h => h.2
  have left (i : InstanceId) : Run.Safe lib (do
      let root ← Run.rootOf i
      Run.onDocument (·.remove container root)) :=
    (Run.Safe.rootOf i).bind fun _ => Run.Safe.onDocument _
  refine ((Preserves.forM fun i _ => Holding.Safe.outside (left i)) busy |>.mono (fun _ h => h)
    (fun _ _ h => h) fun _ _ h => h.mono fun h =>
      ⟨fun hp => ⟨(h.1 hp).toKept, Nat.zero_le _⟩, h.2⟩).bind fun _ => .change fun r w h => ?_
  refine ⟨fun hp => ?_, h.2⟩
  obtain ⟨⟨hanchors, even⟩, reaches⟩ := h.1 hp
  have even : r.attached ≤ r.instances.length := even
  refine ⟨⟨⟨hanchors, ?_⟩, reaches⟩, Nat.min_le_right _ _⟩
  exact Nat.le_trans (Nat.min_le_left _ _) even

/-- The instances from a position on, of which none is attached, are given back. -/
theorem giveBackFrom_safe (position : Nat) :
    Ends (Focus.Tight (fun r => p → Reaches anchors position r ∧ r.attached ≤ position) lib busy)
      (giveBackFrom position) (fun _ => Focus.Tight (p → Reaches anchors 0 ·) lib busy)
      (Safely (Focus.Tight (p → Reaches anchors 0 ·) lib busy)) := by
  refine Ends.held.bind fun r => Ends.pre
    (P := Focus.Tight (fun r => p → Reaches anchors position r ∧ r.attached ≤ position) lib busy) ?_
      fun _ h => h.2
  split
  · have given (i : InstanceId) : Run.Safe lib (Retire.giveBack Run.retire r.definition i) :=
      (Retire.giveBack_sure .retire r.definition i).safe
    refine ((Preserves.forM fun i _ => Holding.Safe.outside (given i)) busy |>.mono (fun _ h => h)
      (fun _ _ h => h) fun _ _ h => h.mono fun h =>
        ⟨fun hp => ⟨(h.1 hp).1.toKept, Nat.zero_le _⟩, h.2⟩).bind fun _ => .change fun r w h => ?_
    refine ⟨fun hp => ?_, h.2⟩
    obtain ⟨reaches, attached⟩ := h.1 hp
    refine ⟨⟨reaches.anchors, ?_⟩, Nat.zero_le _⟩
    show r.attached ≤ (r.instances.take position).length
    rwa [List.length_take, Nat.min_eq_left reaches.position]
  · exact .pure fun _ h => ⟨fun hp => ⟨(h.1 hp).1.toKept, Nat.zero_le _⟩, h.2⟩

include safe

/-- A patch is safe, and the repeater keeps its anchors and stays even. -/
theorem patch_safe (p : Prop) (anchors : List Anchor) (container : NodeId) (anchor : Option NodeId)
    (items : List Value) :
    Holding.Safe lib (fun r => p → (StashItem.sequential r).Kept anchors)
      (patch engine container anchor items controller) := by
  refine .welcoming fun busy => ?_
  have shown : Ends (Focus.Tight (p → Reaches anchors 0 ·) lib busy) _ _ _ :=
    showItems_safe safe controller container anchor 0 items
  rw [Nat.zero_add] at shown
  refine (shown.bind fun _ => (withdraw_safe container items.length).bind fun _ =>
    giveBackFrom_safe items.length).mono (fun f h => ⟨fun hp => ⟨h.1 hp, Nat.zero_le _⟩, h.2⟩)
    (fun _ _ h => ⟨fun hp => (h.1 hp).toKept, h.2⟩) fun _ _ h => h.mono fun h =>
      ⟨fun hp => (h.1 hp).toKept, h.2⟩

end Sequential

/-! ## Repeaters by key -/

namespace Keyed

variable {engine : Engine} (safe : engine.Safe lib) (controller : Controller) {p : Prop}
  {anchors : List Anchor} {busy : List InstanceId} {seen waiting : List ItemKey} {key : ItemKey}
  {r : Keyed}

/-- The keys that have come so far are the first in the order, and the keys of the instances are
those of the order and some that wait for their place. -/
structure Awaits (anchors : List Anchor) (seen waiting : List ItemKey) (r : Keyed) : Prop where
  anchors : r.anchors = anchors
  order : r.order.Nodup
  keys : (r.instances.map (·.1)).Nodup
  same : ∀ key, key ∈ waiting ∨ key ∈ r.order ↔ key ∈ r.instances.map (·.1)
  front : r.order.take seen.length = seen.reverse

/-- If no key waits, the repeater is even. -/
theorem Awaits.kept (h : Awaits anchors seen [] r) : (StashItem.keyed r).Kept anchors :=
  ⟨h.anchors, h.order, h.keys, fun key => (or_iff_right List.not_mem_nil).symm.trans (h.same key)⟩

/-- Before a patch by key nothing has been seen and nothing waits. -/
theorem Awaits.of_kept (h : (StashItem.keyed r).Kept anchors) : Awaits anchors [] [] r :=
  ⟨h.anchors, h.even.1, h.even.2.1,
    fun key => (or_iff_right List.not_mem_nil).trans (h.even.2.2 key), rfl⟩

/-- A key that has no instance is none of the keys. -/
theorem not_mem_of_instance? (h : r.instance? key = none) : key ∉ r.instances.map (·.1) := by
  rw [instance?, List.lookup_eq_none_iff] at h
  intro hm
  obtain ⟨x, hx, rfl⟩ := List.mem_map.mp hm
  simpa using h x hx

/-- A new key waits for its place. -/
theorem Awaits.join (h : Awaits anchors seen [] r) (new : r.instance? key = none) (i : InstanceId) :
    Awaits anchors seen [key] { r with instances := r.instances ++ [(key, i)] } := by
  have fresh := not_mem_of_instance? new
  have keys : (r.instances ++ [(key, i)]).map (·.1) = r.instances.map (·.1) ++ [key] := by simp
  refine ⟨h.anchors, h.order, ?_, fun k => ?_, h.front⟩
  · show ((r.instances ++ [(key, i)]).map (·.1)).Nodup
    rw [keys]
    exact List.nodup_append.mpr ⟨h.keys, List.nodup_singleton key, fun a ha b hb he =>
      fresh (List.mem_singleton.mp hb ▸ he ▸ ha)⟩
  · show _ ↔ k ∈ (r.instances ++ [(key, i)]).map (·.1)
    rw [keys, List.mem_append, ← h.same k, or_iff_right List.not_mem_nil, or_comm]

/-- The key that waits takes its place behind those that have come before it. -/
theorem Awaits.pull (h : Awaits anchors seen waiting r) (unseen : key ∉ seen)
    (there : key ∈ r.instances.map (·.1)) (only : ∀ k ∈ waiting, k = key) :
    Awaits anchors (key :: seen) [] { r with order := pullForward key seen.length r.order } := by
  have front : key ∉ r.order.take seen.length := by
    rwa [h.front, List.mem_reverse]
  have length : (r.order.take seen.length).length = seen.length := by
    rw [h.front, List.length_reverse]
  refine ⟨h.anchors, nodup_pullForward h.order front, h.keys, fun k => ?_, ?_⟩
  · rw [or_iff_right List.not_mem_nil, mem_pullForward, ← h.same k]
    constructor
    · rintro (rfl | hk)
      · exact (h.same k).mpr there
      · exact Or.inr hk
    · exact Or.imp_left (only k)
  · show (pullForward key seen.length r.order).take (seen.length + 1) = (key :: seen).reverse
    rw [pullForward, List.take_append, length, List.take_of_length_le (by omega), h.front]
    simp

omit safe in
/-- Finding the key of an item is safe. -/
theorem itemKey_safe (r : Keyed) (item : Value) : Run.Safe lib (r.itemKey item) := by
  unfold itemKey
  dsimp only
  split
  · exact .pure _
  · exact .fail id

/-- The instance of a key comes to its place. -/
theorem settle_safe (container : NodeId) (anchor : Option NodeId) (i : InstanceId)
    (unseen : key ∉ seen) (only : ∀ k ∈ waiting, k = key) :
    Ends (Focus.Tight (fun r => (p → Awaits anchors seen waiting r) ∧
        key ∈ r.instances.map (·.1)) lib busy) (settle container anchor key i seen.length)
      (fun _ => Focus.Tight (p → Awaits anchors (key :: seen) [] ·) lib busy)
      fun stop _ => stop.Waived := by
  let P (r : Keyed) : Focus Keyed → Prop := fun f => f.held = r ∧ f.world.Tight lib busy
  refine .pointwise fun f hf => ?_
  obtain ⟨r, w⟩ := f
  obtain ⟨⟨awaits, there⟩, tight⟩ := hf
  have done (hp : p) := (awaits hp).pull unseen there only
  have goes {β : Type} {x : Run β} (hx : Run.Sure lib x) :
      Ends (P r) (Holding.outside x) (fun _ => P r) fun stop _ => stop.Waived :=
    Ends.outside_eq (hx busy)
  unfold settle
  refine .pre (.held_bind (P := World.Tight lib busy) ?_) (by rintro _ rfl; exact ⟨rfl, tight⟩)
  refine (goes (.rootOf i)).bind fun root => ?_
  split
  · next past =>
    have hle : r.order.length ≤ seen.length := List.getElem?_eq_none_iff.mp past
    refine (goes (.onDocument _)).bind fun _ => .change fun r' v h => ?_
    obtain ⟨rfl, later⟩ := h
    rw [pullForward, List.take_of_length_le hle, List.drop_of_length_le hle, List.erase_nil] at done
    exact ⟨done, later⟩
  · next other hother =>
    split
    · split
      · exact Ends.outside fun _ => .throw fun _ _ => ⟨⟨_, rfl⟩, id⟩
      · refine (goes (.rootOf _)).bind fun before => (goes (.onDocument _)).bind fun _ =>
          .change fun r' v h => ?_
        obtain ⟨rfl, later⟩ := h
        exact ⟨done, later⟩
    · next he =>
      obtain rfl : other = key := Decidable.byContradiction he
      refine .pure fun f h => ?_
      obtain ⟨rfl, later⟩ := h
      rw [pullForward_self hother] at done
      exact ⟨done, later⟩

include safe

/-- The instance of a key is rendered, or a new one is made, whose key waits for its place. -/
theorem instanceFor_safe (item : Value) :
    Ends (Focus.Tight (p → Awaits anchors seen [] ·) lib busy) (instanceFor engine controller key item)
      (fun _ f => ∃ waiting, (∀ k ∈ waiting, k = key) ∧ Focus.Tight (fun r =>
        (p → Awaits anchors seen waiting r) ∧ key ∈ r.instances.map (·.1)) lib busy f)
      (Safely (Focus.Tight (p → Awaits anchors seen [] ·) lib busy)) := by
  refine Ends.held.bind fun r => ?_
  have goes {β : Type} {x : Run β} (hx : Run.Safe lib x) :
      Ends (Focus.Tight (fun a => r = a ∧ (p → Awaits anchors seen [] a)) lib busy) (Holding.outside x)
        (fun _ => Focus.Tight (fun a => r = a ∧ (p → Awaits anchors seen [] a)) lib busy)
        (Safely (Focus.Tight (p → Awaits anchors seen [] ·) lib busy)) :=
    Ends.mono (Holding.Safe.outside hx busy) (fun _ h => h) (fun _ _ h => h)
      fun _ _ h => h.mono fun h => ⟨h.1.2, h.2⟩
  refine Ends.pre (P := Focus.Tight (fun a => r = a ∧ (p → Awaits anchors seen [] a)) lib busy) ?_
    fun _ h => ⟨⟨h.1, h.2.1⟩, h.2.2⟩
  split
  · next i hi =>
    obtain ⟨front, back, he, -⟩ := List.lookup_eq_some_iff.mp hi
    have there : key ∈ r.instances.map (·.1) := by simp [he]
    refine Ends.bind (goes (safe.render i item controller)) fun _ => .pure fun f h => ?_
    obtain ⟨⟨rfl, awaits⟩, tight⟩ := h
    exact ⟨[], nofun, ⟨awaits, there⟩, tight⟩
  · next none =>
    refine (goes (safe.acquire r.definition r.share item controller)).bind fun i =>
      (goes (.welcome i)).bind fun _ => Ends.bind (.change fun r' w h => ?_) fun _ =>
        .pure fun _ h => h
    obtain ⟨⟨rfl, awaits⟩, tight⟩ := h
    exact ⟨[key], fun k hk => List.mem_singleton.mp hk, ⟨fun hp => (awaits hp).join none i, by simp⟩, tight⟩

/-- The items are shown one after another. -/
theorem showItems_safe (container : NodeId) (anchor : Option NodeId) (seen : List ItemKey)
    (items : List Value) :
    Ends (Focus.Tight (p → Awaits anchors seen [] ·) lib busy)
      (showItems engine container anchor controller seen seen.length items)
      (fun position f => ∃ seen : List ItemKey, position = seen.length ∧
        Focus.Tight (p → Awaits anchors seen [] ·) lib busy f)
      (Safely (Focus.Tight (fun r => p → (StashItem.keyed r).Kept anchors) lib busy)) := by
  have kept (seen : List ItemKey) (f : Focus Keyed)
      (h : Focus.Tight (p → Awaits anchors seen [] ·) lib busy f) :
      Focus.Tight (fun r => p → (StashItem.keyed r).Kept anchors) lib busy f :=
    ⟨fun hp => (h.1 hp).kept, h.2⟩
  have goes {β : Type} {x : Run β} (hx : Run.Safe lib x) (seen : List ItemKey) :
      Ends (Focus.Tight (p → Awaits anchors seen [] ·) lib busy) (Holding.outside x)
        (fun _ => Focus.Tight (p → Awaits anchors seen [] ·) lib busy)
        (Safely (Focus.Tight (fun r => p → (StashItem.keyed r).Kept anchors) lib busy)) :=
    (Holding.Safe.outside hx busy).mono (fun _ h => h) (fun _ _ h => h)
      fun _ _ h => h.mono (kept seen _)
  induction items generalizing seen with
  | nil => exact .pure fun _ h => ⟨seen, rfl, h⟩
  | cons item items ih =>
    refine Ends.held.bind fun r => Ends.pre (P := Focus.Tight (p → Awaits anchors seen [] ·) lib busy) ?_
      fun _ h => h.2
    refine (goes (itemKey_safe r item) seen).bind fun key => ?_
    split
    · exact (goes ((Run.Safe.definition _ _).bind fun _ => Run.Safe.log _ _) seen).bind fun _ => ih seen
    · next unseen =>
      refine ((instanceFor_safe safe controller item).mono (fun _ h => h) (fun _ _ h => h)
        fun _ _ h => h.mono (kept seen _)).bind fun i => ?_
      refine Ends.bind (Q := fun _ => Focus.Tight (p → Awaits anchors (key :: seen) [] ·) lib busy) ?_
        fun _ => ih (key :: seen)
      rintro f ⟨waiting, only, tight⟩
      exact ((settle_safe container anchor i unseen only).mono (fun _ h => h) (fun _ _ h => h)
        fun _ _ => Safely.of_waived) f tight

omit safe

/-- Of the keys of an order those that are done have no instance any more. -/
structure Sheds (anchors : List Anchor) (order done : List ItemKey) (r : Keyed) : Prop where
  anchors : r.anchors = anchors
  order_eq : r.order = order
  keys : (r.instances.map (·.1)).Nodup
  left : ∀ k, k ∈ r.instances.map (·.1) ↔ k ∈ order ∧ k ∉ done

/-- Before rows are dropped all of them are there. -/
theorem Sheds.of_kept (h : (StashItem.keyed r).Kept anchors) : Sheds anchors r.order [] r :=
  ⟨h.anchors, rfl, h.even.2.1, fun k => by simp [h.even.2.2 k]⟩

/-- A key that has no instance is done. -/
theorem Sheds.skip {order done : List ItemKey} (h : Sheds anchors order done r)
    (none : r.instance? key = none) : Sheds anchors order (done ++ [key]) r := by
  refine ⟨h.anchors, h.order_eq, h.keys, fun k => (h.left k).trans ?_⟩
  have absent := (h.left key).not.mp (not_mem_of_instance? none)
  grind

/-- The instance of a key goes. -/
theorem Sheds.shed {order done : List ItemKey} (h : Sheds anchors order done r) (key : ItemKey) :
    Sheds anchors order (done ++ [key]) { r with instances := r.instances.filter (·.1 ≠ key) } := by
  refine ⟨h.anchors, h.order_eq, h.keys.sublist (List.filter_sublist.map _), fun k => ?_⟩
  have mem : k ∈ (r.instances.filter (·.1 ≠ key)).map (·.1) ↔
      k ∈ r.instances.map (·.1) ∧ k ≠ key := by
    simp only [List.mem_map, List.mem_filter, decide_eq_true_eq]
    grind
  rw [mem, h.left k]
  grind

/-- With the rest of its keys gone from the order too, the repeater is even. -/
theorem Sheds.kept {order : List ItemKey} {position : Nat}
    (h : Sheds anchors order (order.drop position) r) (nodup : order.Nodup) :
    (StashItem.keyed { r with order := r.order.take position }).Kept anchors := by
  have split (k : ItemKey) : k ∈ order ↔ k ∈ order.take position ∨ k ∈ order.drop position := by
    rw [← List.mem_append, List.take_append_drop]
  rw [← List.take_append_drop position order, List.nodup_append] at nodup
  refine ⟨h.anchors, ?_, h.keys, fun k => ?_⟩
  · show (r.order.take position).Nodup
    rw [h.order_eq]
    exact nodup.1
  · show k ∈ r.order.take position ↔ _
    rw [h.left k, h.order_eq, split]
    exact ⟨fun hk => ⟨Or.inl hk, fun hd => nodup.2.2 k hk k hd rfl⟩, fun h => h.1.resolve_right h.2⟩

/-- Dropping the row of a key cannot fail. -/
theorem dropKey_sure (container : NodeId) (order done : List ItemKey) (key : ItemKey) :
    Ends (Focus.Tight (p → Sheds anchors order done ·) lib busy) (dropKey container key)
      (fun _ => Focus.Tight (p → Sheds anchors order (done ++ [key]) ·) lib busy)
      fun stop _ => stop.Waived := by
  refine .pointwise fun f hf => ?_
  obtain ⟨r, w⟩ := f
  obtain ⟨sheds, tight⟩ := hf
  unfold dropKey
  refine .pre (.held_bind (P := World.Tight lib busy) ?_) (by rintro _ rfl; exact ⟨rfl, tight⟩)
  split
  · next none =>
    refine .pure fun f h => ?_
    obtain ⟨rfl, later⟩ := h
    exact ⟨fun hp => (sheds hp).skip none, later⟩
  · next i hi =>
    refine (Ends.outside_eq (((Run.Sure.rootOf i).bind fun _ => (Run.Sure.onDocument _).bind
      fun _ => Retire.drop_sure .retire _ _ _) busy)).bind fun _ => .change fun r' v h => ?_
    obtain ⟨rfl, later⟩ := h
    exact ⟨fun hp => (sheds hp).shed key, later⟩

/-- The instances from a position on are dropped. -/
theorem dropFrom_sure (container : NodeId) (position : Nat) :
    Ends (Focus.Tight (fun r => p → (StashItem.keyed r).Kept anchors) lib busy)
      (dropFrom container position)
      (fun _ => Focus.Tight (fun r => p → (StashItem.keyed r).Kept anchors) lib busy)
      fun stop _ => stop.Waived := by
  refine .pointwise fun f hf => ?_
  obtain ⟨r, w⟩ := f
  obtain ⟨kept, tight⟩ := hf
  have kept (hp : p) : (StashItem.keyed r).Kept anchors := kept hp
  have loop : Ends (Focus.Tight (p → Sheds anchors r.order [] ·) lib busy)
      ((r.order.drop position).forM (dropKey container))
      (fun _ => Focus.Tight (p → Sheds anchors r.order (r.order.drop position) ·) lib busy)
      fun stop _ => stop.Waived :=
    .forM_done fun done key _ _ => dropKey_sure container r.order done key
  unfold dropFrom
  refine .pre (.held_bind (P := World.Tight lib busy) ?_) (by rintro _ rfl; exact ⟨rfl, tight⟩)
  refine (loop.pre ?_).bind fun _ => .change fun r' v h =>
    ⟨fun hp => (h.1 hp).kept (kept hp).even.1, h.2⟩
  rintro f ⟨rfl, later⟩
  exact ⟨fun hp => .of_kept (kept hp), later⟩

include safe

/-- A patch is safe, and the repeater keeps its anchors and stays even. -/
theorem patch_safe (p : Prop) (anchors : List Anchor) (container : NodeId)
    (anchor : Option NodeId) (items : List Value) :
    Holding.Safe lib (fun r => p → (StashItem.keyed r).Kept anchors)
      (patch engine container anchor items controller) := by
  refine .welcoming fun busy => ?_
  refine ((showItems_safe safe controller container anchor [] items).pre fun _ h =>
    ⟨fun hp => Awaits.of_kept (h.1 hp), h.2⟩).bind fun position => ?_
  refine ((dropFrom_sure container position).mono (fun f h => ?_) (fun _ _ h => h)
    fun _ _ => Safely.of_waived)
  obtain ⟨seen, -, awaits, tight⟩ := h
  exact ⟨fun hp => (awaits hp).kept, tight⟩

end Keyed

end ComponentView
