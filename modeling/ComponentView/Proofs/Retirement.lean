import ComponentView.Proofs.Document.Links
import ComponentView.Proofs.Runs
import ComponentView.Instance.Retirement

/-! # What retirement leaves alone

Putting an instance out of use goes through all that it holds, moves roots and releases trees. A node
that none of these trees reaches keeps its children (`Run.retire_spares`): what is held somewhere
else is not affected. -/

namespace ComponentView

/-- The root of an instance. -/
def World.root? (w : World) (i : InstanceId) : Option NodeId := w.instances[i]?.map (·.root)

/-- The props of an instance. -/
def World.props? (w : World) (i : InstanceId) : Option Value := w.instances[i]?.map (·.props)

/-- Whether an instance is another or held by it, at any depth. -/
def World.Holds (w : World) : InstanceId → InstanceId → Prop :=
  Relation.ReflTransGen fun i j => ∃ inst, w.instances[i]? = some inst ∧ j ∈ inst.held

/-- An instance that holds no more than it did, at the same root with the same props. -/
structure Instance.Less (later earlier : Instance) : Prop where
  root : later.root = earlier.root
  props : later.props = earlier.props
  held : later.held ⊆ earlier.held

/-- From `w` to `later` no node joins or leaves the children of the container, nothing gets a child
or comes to be held. -/
structure World.Spares (container : NodeId) (w later : World) : Prop where
  children : later.document.children container = w.document.children container
  parent : ∀ c, later.document.parent? c = some container ↔
    w.document.parent? c = some container
  below : ∀ q, later.document.children q ⊆ w.document.children q
  size : later.document.size = w.document.size
  count : later.instances.size = w.instances.size
  instances : ∀ (i : InstanceId) (inst : Instance), w.instances[i]? = some inst →
    ∃ inst' : Instance, later.instances[i]? = some inst' ∧ inst'.Less inst

/-- What the instances in `S` hold is in `S`, and none of their trees reaches the container or its
children. -/
structure World.Apart (container : NodeId) (S : InstanceId → Prop) (w : World) : Prop where
  linked : ∀ c, w.document.parent? c = some container ↔ c ∈ w.document.children container
  held : ∀ (i : InstanceId) (inst : Instance), S i → w.instances[i]? = some inst →
    ∀ j ∈ inst.held, S j
  unreached : ∀ i root, S i → w.root? i = some root → ¬ w.document.Below root container ∧
    ∀ c ∈ w.document.children container, ¬ w.document.Below root c

/-- Entries that hold no more hold no more together. -/
theorem StashItem.flatMap_held_subset {stash stash' : List StashItem}
    (h : List.Forall₂ (fun item item' : StashItem => item'.held ⊆ item.held) stash stash') :
    stash'.flatMap StashItem.held ⊆ stash.flatMap StashItem.held := by
  induction h with
  | nil => exact List.Subset.refl _
  | cons h _ ih =>
    rw [List.flatMap_cons, List.flatMap_cons]
    exact List.append_subset.mpr
      ⟨List.subset_append_of_subset_left _ h, List.subset_append_of_subset_right _ ih⟩

namespace World.Spares

variable {container : NodeId} {w later : World}

/-- A world that stays as it is spares the container. -/
theorem refl (container : NodeId) (w : World) : Spares container w w :=
  ⟨rfl, fun _ => Iff.rfl, fun _ => List.Subset.refl _, rfl, rfl,
    fun _ inst h => ⟨inst, h, rfl, rfl, List.Subset.refl _⟩⟩

/-- An instance keeps its root in a world that spares the container. -/
theorem root? (h : Spares container w later) (i : InstanceId) : later.root? i = w.root? i := by
  unfold World.root?
  cases hi : w.instances[i]? with
  | none =>
    rw [Array.getElem?_eq_none_iff] at hi
    rw [Array.getElem?_eq_none (h.count ▸ hi)]
  | some inst =>
    obtain ⟨inst', hi', less⟩ := h.instances i inst hi
    rw [hi', Option.map_some, Option.map_some, less.root]

/-- An instance keeps its props in a world that spares the container. -/
theorem props? (h : Spares container w later) (i : InstanceId) : later.props? i = w.props? i := by
  unfold World.props?
  cases hi : w.instances[i]? with
  | none =>
    rw [Array.getElem?_eq_none_iff] at hi
    rw [Array.getElem?_eq_none (h.count ▸ hi)]
  | some inst =>
    obtain ⟨inst', hi', less⟩ := h.instances i inst hi
    rw [hi', Option.map_some, Option.map_some, less.props]

/-- Nothing comes to be held. -/
theorem holds (h : Spares container w later) {i j : InstanceId} (hj : later.Holds i j) :
    w.Holds i j := by
  refine Relation.ReflTransGen.mono (fun i j ⟨inst, hi, hm⟩ => ?_) _ _ hj
  have hlt := (Array.getElem?_eq_some_iff.mp hi).1
  rw [h.count] at hlt
  obtain ⟨inst', hi', less⟩ := h.instances i _ (Array.getElem?_eq_getElem hlt)
  obtain rfl : inst = inst' := Option.some.inj (hi.symm.trans hi')
  exact ⟨_, Array.getElem?_eq_getElem hlt, less.held hm⟩

/-- Two steps that spare the container are one. -/
theorem trans {latest : World} (h : Spares container w later) (h' : Spares container later latest) :
    Spares container w latest where
  children := h'.children.trans h.children
  parent c := (h'.parent c).trans (h.parent c)
  below q := List.Subset.trans (h'.below q) (h.below q)
  size := h'.size.trans h.size
  count := h'.count.trans h.count
  instances i inst hi := by
    obtain ⟨inst', hi', less⟩ := h.instances i inst hi
    obtain ⟨inst'', hi'', less'⟩ := h'.instances i inst' hi'
    exact ⟨inst'', hi'', less'.root.trans less.root, less'.props.trans less.props,
      List.Subset.trans less'.held less.held⟩

/-- What is apart stays apart. -/
theorem apart {S : InstanceId → Prop} (h : Spares container w later) (ha : w.Apart container S) :
    later.Apart container S where
  linked c := by rw [h.parent, h.children, ha.linked]
  held i inst' hi hinst' j hj := by
    have hlt := (Array.getElem?_eq_some_iff.mp hinst').1
    rw [h.count] at hlt
    obtain ⟨inst'', hi'', less⟩ := h.instances i _ (Array.getElem?_eq_getElem hlt)
    obtain rfl : inst' = inst'' := Option.some.inj (hinst'.symm.trans hi'')
    exact ha.held i _ hi (Array.getElem?_eq_getElem hlt) j (less.held hj)
  unreached i root hi hr := by
    rw [h.root?] at hr
    obtain ⟨hc, hk⟩ := ha.unreached i root hi hr
    rw [h.children]
    exact ⟨fun hb => hc (.of_subset h.below hb), fun c hm hb => hk c hm (.of_subset h.below hb)⟩

/-- Only the document matters to the nodes, and only the instances to what is held. -/
theorem of_document {document : Document Listener}
    (children : document.children container = w.document.children container)
    (parent : ∀ c, document.parent? c = some container ↔ w.document.parent? c = some container)
    (below : ∀ q, document.children q ⊆ w.document.children q)
    (size : document.size = w.document.size) :
    Spares container w { w with document } :=
  ⟨children, parent, below, size, rfl, (refl container w).instances⟩

end World.Spares

namespace Retire

variable {container : NodeId} {S : InstanceId → Prop} {w₀ : World} {retire : Retire}

/-- From `w₀` on the container is spared, and the same instances are held. -/
def Calm (container : NodeId) (w₀ : World) (busy : List InstanceId) (w : World) : Prop :=
  World.Spares container w₀ w ∧ w.busy = busy

/-- Putting instances of `S` out of use spares the container. -/
def Sparing (container : NodeId) (S : InstanceId → Prop) (w₀ : World) (retire : Retire) : Prop :=
  ∀ mode i busy, S i → Ends (Calm container w₀ busy) (retire mode i)
    (fun _ => Calm container w₀ busy) fun stop _ => stop.Barred

section Steps

variable {busy : List InstanceId} (ha : w₀.Apart container S)

/-- Only the document changes, and the container is spared. -/
theorem calm_onDocument {f : Document Listener → Document Listener}
    (h : ∀ w, World.Spares container w₀ w → World.Spares container w { w with document := f w.document }) :
    Ends (Calm container w₀ busy) (Run.onDocument f) (fun _ => Calm container w₀ busy)
      fun stop _ => stop.Barred :=
  .modify fun w hw => ⟨hw.1.trans (h w hw.1), hw.2⟩

include ha in
/-- The root of an instance in `S` leaves its parent, which is not the container. -/
theorem calm_detach {i : InstanceId} (hi : S i) {root : NodeId} (hr : w₀.root? i = some root) :
    Ends (Calm container w₀ busy) (Run.onDocument (·.detach root))
      (fun _ => Calm container w₀ busy) fun stop _ => stop.Barred := by
  refine calm_onDocument fun w hw => ?_
  have apart := hw.apart ha
  obtain ⟨-, hk⟩ := apart.unreached i root hi (by rw [hw.root?, hr])
  have outside : w.document.parent? root ≠ some container := fun hp =>
    hk root ((apart.linked root).mp hp) .refl
  refine .of_document ?_ (fun c => ?_) (fun q => ?_) (Document.size_detach root)
  · rw [Document.children_detach, if_neg outside]
  · rw [Document.parent?_detach]
    split
    · next hc => subst hc; simp [outside]
    · rfl
  · rw [Document.children_detach]
    split
    · exact List.filter_sublist.subset
    · exact List.Subset.refl _

include ha in
/-- The tree of an instance in `S` is released, and the container is not in it. -/
theorem calm_release {i : InstanceId} (hi : S i) {root : NodeId} (hr : w₀.root? i = some root) :
    Ends (Calm container w₀ busy) (Run.onDocument (·.release root))
      (fun _ => Calm container w₀ busy) fun stop _ => stop.Barred := by
  refine calm_onDocument fun w hw => ?_
  have apart := hw.apart ha
  obtain ⟨hc, hk⟩ := apart.unreached i root hi (by rw [hw.root?, hr])
  have outside : w.document.parent? root ≠ some container := fun hp =>
    hk root ((apart.linked root).mp hp) .refl
  have node {c : NodeId} (hb : ¬ w.document.Below root c) :
      (w.document.release root).children c = w.document.children c ∨
        w.document.parent? root = some c := by
    unfold Document.children
    rw [Document.node_release hb]
    split
    · show (w.document.without root).children c = w.document.children c ∨ _
      rw [Document.children_without]
      split
      · next h => exact Or.inr h
      · exact Or.inl rfl
    · exact Or.inl rfl
  refine .of_document ((node hc).resolve_right outside) (fun c => ⟨Document.parent?_release, ?_⟩)
    (Document.children_release_subset root) (Document.size_release root)
  intro hp
  have hb := hk c ((apart.linked c).mp hp)
  unfold Document.parent?
  rw [Document.node_release hb]
  split
  · show (w.document.without root).parent? c = some container
    have hne : c ≠ root := by
      rintro rfl
      exact hb .refl
    rw [Document.parent?_without, if_neg hne]
    exact hp
  · exact hp

variable (hretire : Sparing container S w₀ retire)

include ha hretire

/-- Giving back an instance from the set keeps the world calm. -/
theorem calm_giveBack (id : DefinitionId) {i : InstanceId} (hi : S i) :
    Ends (Calm container w₀ busy) (giveBack retire id i) (fun _ => Calm container w₀ busy)
      fun stop _ => stop.Barred := by
  refine (Ends.rootOf (fun _ _ => ⟨_, rfl, nofun⟩) fun _ _ => ⟨_, rfl, nofun⟩).bind fun root w h => ?_
  obtain ⟨hr, -, hw⟩ := h
  refine Ends.bind (P := Calm container w₀ busy) (calm_detach ha hi (hw.1.root? i ▸ hr))
    (fun _ => (hretire .dismount i busy hi).bind fun _ => ?_) w hw
  exact .modify fun w h => ⟨⟨h.1.1, h.1.2, h.1.3, h.1.4, h.1.5, h.1.6⟩, h.2⟩

/-- Dropping a row from the set keeps the world calm. -/
theorem calm_drop (id : DefinitionId) (share : Bool) {i : InstanceId} (hi : S i) :
    Ends (Calm container w₀ busy) (drop retire id share i) (fun _ => Calm container w₀ busy)
      fun stop _ => stop.Barred := by
  unfold drop
  split
  · exact calm_giveBack ha hretire id hi
  · exact hretire .destroy i busy hi

/-- Clearing rows from the set keeps the world calm. -/
theorem calm_clear (id : DefinitionId) (share : Bool) {is : List InstanceId}
    (his : ∀ i ∈ is, S i) :
    Ends (Calm container w₀ busy) (clear retire id share is) (fun _ => Calm container w₀ busy)
      fun stop _ => stop.Barred := by
  refine .forM fun i hi =>
    (Ends.rootOf (fun _ _ => ⟨_, rfl, nofun⟩) fun _ _ => ⟨_, rfl, nofun⟩).bind fun root w h => ?_
  obtain ⟨hr, -, hw⟩ := h
  exact Ends.bind (P := Calm container w₀ busy) (calm_detach ha (his i hi) (hw.1.root? i ▸ hr))
    (fun _ => calm_drop ha hretire id share (his i hi)) w hw

/-- An entry of a stash holds no more after it was put out of use. -/
theorem calm_entry (mode : Retirement) {item : StashItem} (hitem : ∀ i ∈ item.held, S i) :
    Ends (Calm container w₀ busy) (entry retire mode item)
      (fun item' w => item'.held ⊆ item.held ∧ Calm container w₀ busy w) fun stop _ => stop.Barred := by
  cases item with
  | tracker t => exact .pure fun _ h => ⟨List.Subset.refl _, h⟩
  | child i =>
    refine (hretire mode i busy (hitem i (by simp [StashItem.held]))).bind fun _ => ?_
    exact .pure fun _ h => ⟨List.Subset.refl _, h⟩
  | sequential r =>
    refine Ends.bind (Q := fun r' w => r'.instances ⊆ r.instances ∧ Calm container w₀ busy w) ?_
      fun r' => .pure fun _ h => h
    unfold sequential
    split
    · refine (calm_clear ha hretire _ _ hitem).bind fun _ => .pure fun _ h => ⟨?_, h⟩
      exact List.nil_subset _
    · refine (Ends.forM fun i hi => hretire .dismount i busy (hitem i hi)).bind fun _ => ?_
      exact .pure fun _ h => ⟨List.Subset.refl _, h⟩
  | keyed r =>
    refine Ends.bind
      (Q := fun r' w => r'.instances ⊆ r.instances ∧ Calm container w₀ busy w) ?_
      fun r' => .pure fun _ h => ⟨List.map_subset _ h.1, h.2⟩
    unfold keyed
    split
    · refine (calm_clear ha hretire _ _ fun i hi => hitem i ?_).bind fun _ =>
        .pure fun _ h => ⟨List.filter_sublist.subset, h⟩
      obtain ⟨key, -, hk⟩ := List.mem_filterMap.mp hi
      obtain ⟨before, after, hm, -⟩ := List.lookup_eq_some_iff.mp hk
      exact List.mem_map.mpr ⟨(key, i), by simp [hm], rfl⟩
    · refine (Ends.forM fun i hi => hretire .dismount i busy (hitem i hi)).bind fun _ => ?_
      exact .pure fun _ h => ⟨List.Subset.refl _, h⟩

end Steps

end Retire

namespace Run

open Retire

variable {container : NodeId} {S : InstanceId → Prop} {w₀ : World}

/-- Putting an instance out of use spares the container of another, whatever the depth. -/
theorem retireWithin_spares (ha : w₀.Apart container S) (depth : Nat) :
    Sparing container S w₀ (retireWithin depth) := by
  induction depth with
  | zero => exact fun _ _ _ _ => .throw fun _ _ => ⟨_, rfl, nofun⟩
  | succ depth ih =>
    intro mode i busy hi
    refine Ends.hold (fun _ _ => ⟨_, rfl, nofun⟩) (fun _ _ => ⟨_, rfl, nofun⟩) fun w inst hw hinst _ => ?_
    obtain ⟨inst₀, hinst₀, less⟩ : ∃ inst₀, w₀.instances[i]? = some inst₀ ∧ inst.Less inst₀ := by
      have hlt := (Array.getElem?_eq_some_iff.mp hinst).1
      rw [hw.1.count] at hlt
      obtain ⟨inst', hi', less⟩ := hw.1.instances i _ (Array.getElem?_eq_getElem hlt)
      obtain rfl : inst = inst' := Option.some.inj (hinst.symm.trans hi')
      exact ⟨_, Array.getElem?_eq_getElem hlt, less⟩
    -- The held instance only ever holds less, in a world that spares the container.
    have inside : Ends
        (fun f => f.held = inst ∧ Calm container w₀ (i :: w.busy) f.world)
        (inPlace (retireWithin depth) mode)
        (fun _ f => f.held.Less inst₀ ∧ Calm container w₀ (i :: w.busy) f.world)
        fun stop _ => stop.Barred := by
      have items : ∀ item ∈ inst.stash, ∀ j ∈ item.held, S j := fun item hm j hj =>
        ha.held i inst₀ hi hinst₀ j (less.held (List.mem_flatMap.mpr ⟨item, hm, hj⟩))
      unfold inPlace
      refine .held_bind ?_
      refine (Ends.outside_eq (.mapM fun item hm =>
        calm_entry ha ih mode (items item hm))).bind fun stash => ?_
      have done : Ends (fun f => f.held = inst ∧
          List.Forall₂ (fun item item' : StashItem => item'.held ⊆ item.held) inst.stash stash ∧
            Calm container w₀ (i :: w.busy) f.world)
          (Holding.change fun inst => { inst with stash, mounted := false })
          (fun _ f => f.held.Less inst₀ ∧ Calm container w₀ (i :: w.busy) f.world)
          fun stop _ => stop.Barred := by
        refine .change fun inst v h => ?_
        obtain ⟨rfl, fewer, calm⟩ := h
        refine ⟨⟨less.root, less.props, List.Subset.trans ?_ less.held⟩, calm⟩
        exact StashItem.flatMap_held_subset fewer
      split
      · have released : Ends (Calm container w₀ (i :: w.busy))
            (Run.onDocument (·.release inst.root)) (fun _ => Calm container w₀ (i :: w.busy))
            fun stop _ => stop.Barred :=
          calm_release ha hi (by rw [World.root?, hinst₀, Option.map_some, less.root])
        exact (Ends.outside_eq (.assume fun fewer => released.post fun _ _ h =>
          (⟨fewer, h⟩ : _ ∧ _))).bind fun _ => done
      · exact done
    refine (inside.mono ?_ ?_ fun _ _ h => h)
    · rintro f rfl
      exact ⟨rfl, hw.1.trans ⟨rfl, fun _ => Iff.rfl, fun _ => List.Subset.refl _, rfl, rfl,
        fun _ inst h => ⟨inst, h, rfl, rfl, List.Subset.refl _⟩⟩, rfl⟩
    · rintro _ f ⟨hless, spares, -⟩
      refine ⟨⟨spares.children, spares.parent, spares.below, spares.size, ?_, ?_⟩, hw.2⟩
      · exact Array.size_setIfInBounds.trans spares.count
      · intro j inst' hj
        show ∃ a : Instance, (f.world.instances.setIfInBounds i f.held)[j]? = some a ∧ a.Less inst'
        by_cases hij : i = j
        · subst hij
          obtain rfl : inst₀ = inst' := Option.some.inj (hinst₀.symm.trans hj)
          have hlt := (Array.getElem?_eq_some_iff.mp hj).1
          exact ⟨f.held, by simp [spares.count, hlt], hless⟩
        · obtain ⟨a, ha', hl⟩ := spares.instances j inst' hj
          exact ⟨a, by rw [Array.getElem?_setIfInBounds_ne hij, ha'], hl⟩

/-- Putting an instance out of use spares the container of another. -/
theorem retire_spares (ha : w₀.Apart container S) : Sparing container S w₀ retire := by
  intro mode i busy hi
  exact Ends.get.bind fun w => (retireWithin_spares ha _ mode i busy hi).pre fun _ h => h.2

end Run

end ComponentView
