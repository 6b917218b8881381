import ComponentView.Proofs.Ownership.Build
import ComponentView.Proofs.Stillness

/-! # Working on one of several instances in hand

What works on some of the instances in hand leaves the others as they are (`Ends.beside`). So a
repeater can have its rows rendered one after another, and so can a stash its entries: those that are
through have still nothing left to do when the last one is. -/

namespace ComponentView

/-! ## Leaving the others alone -/

namespace Ends

variable {α : Type} {frame : Frame} {busy hand others : List InstanceId} {w : World}

/-- A computation that keeps the order in every frame leaves alone what is in hand beside that which
it works on. -/
theorem beside {x : Run α} {hand' : α → List InstanceId} {Q : α → World → Prop}
    (ho : others ⊆ hand) (hw : w.Orderly frame busy hand)
    (hx : Ends (World.Orderly (frame.widen w others) busy hand) x
      (fun a later => later.Orderly (frame.widen w others) busy (hand' a) ∧ Q a later)
      (Failing (World.Orderly (frame.widen w others) busy hand))) :
    Ends (w = ·) x
      (fun a later => later.Orderly frame busy (hand' a) ∧ World.Since others w later ∧ Q a later)
      (Failing fun later => later.Orderly frame busy hand ∧ World.Since others w later) := by
  rintro _ rfl
  refine (hx.mono (fun _ h => h) (fun a later h => ?_) fun stop later h =>
    h.mono fun h => hw.narrow h) w (hw.widen ho)
  obtain ⟨orderly, since⟩ := hw.narrow h.1
  exact ⟨orderly, since, h.2⟩

/-- A loop that takes the instances of a list out of hand, one after another. -/
theorem forM_hand {σ γ : Type} {f : γ → EStateM Stop σ PUnit} {P : List γ → σ → Prop}
    {E : Stop → σ → Prop} {is : List γ}
    (h : ∀ i rest, i :: rest <:+ is → Ends (P (i :: rest)) (f i) (fun _ => P rest) E) :
    Ends (P is) (is.forM f) (fun _ => P []) E := by
  induction is with
  | nil => exact .pure fun _ h => h
  | cons i is ih =>
    exact (h i is List.suffix_rfl).bind fun _ =>
      ih fun j rest hj => h j rest (hj.trans (List.suffix_cons i is))

end Ends

/-- Rendering keeps the order, and so does asking for an instance. What has been rendered has nothing
left to do. -/
structure Engine.Steady (engine : Engine) : Prop where
  render : ∀ {frame : Frame} {busy hand : List InstanceId} (i : InstanceId) (props : Value)
    (controller : Controller), frame.library = engine.library → ¬ frame.still i →
    Ends (World.Orderly frame busy hand) (engine.render i props controller)
      (fun _ w => w.Orderly frame busy hand ∧ engine.Idle w controller i props)
      (Failing (World.Orderly frame busy hand))
  acquire : ∀ {frame : Frame} {busy hand : List InstanceId} (id : DefinitionId) (share : Bool)
    (props : Value) (controller : Controller), frame.library = engine.library →
    Ends (World.Orderly frame busy hand) (engine.acquire id share props controller)
      (fun i w => w.Orderly frame busy (i :: hand) ∧ w.definition? i = some id ∧
        ¬ frame.still i ∧ engine.Idle w controller i props)
      (Failing (World.Orderly frame busy hand))

/-! ## Rows of a repeater -/

namespace World

/-- Instances of one definition are in hand, and none is in the frame. -/
structure Rows (frame : Frame) (busy hand : List InstanceId) (id : DefinitionId)
    (rows : List InstanceId) (w : World) : Prop where
  orderly : w.Orderly frame busy (rows ++ hand)
  definition : ∀ i ∈ rows, w.definition? i = some id
  aside : ∀ i ∈ rows, ¬ frame.still i

variable {frame : Frame} {busy hand : List InstanceId} {id k : DefinitionId}
  {rows : List InstanceId} {w later : World} {i : InstanceId} {engine : Engine}
  {controller : Controller} {item : Value}

/-- The rows of a repeater by position are of an earlier definition and in order. -/
theorem stocks_sequential {r : Sequential} : w.Stocks frame busy hand id [.sequential r] ↔
    r.definition < id ∧ w.Rows frame busy hand r.definition r.instances := by
  constructor
  · intro h
    have ranks := h.ranks _ (List.mem_singleton_self _)
    have orderly := h.orderly
    have aside := h.aside
    rw [List.flatMap_singleton] at orderly aside
    exact ⟨ranks.1, orderly, ranks.2, aside⟩
  · rintro ⟨hlt, orderly, definition, aside⟩
    refine ⟨?_, List.forall_mem_singleton.mpr ⟨hlt, definition⟩, ?_⟩ <;>
      rw [List.flatMap_singleton] <;> assumption

/-- The rows of a repeater by key are of an earlier definition and in order, under different keys.
-/
theorem stocks_keyed {r : Keyed} : w.Stocks frame busy hand id [.keyed r] ↔
    r.definition < id ∧ r.order.Nodup ∧
      w.Rows frame busy hand r.definition (r.instances.map (·.2)) := by
  constructor
  · intro h
    have ranks := h.ranks _ (List.mem_singleton_self _)
    have orderly := h.orderly
    have aside := h.aside
    rw [List.flatMap_singleton] at orderly aside
    exact ⟨ranks.1, ranks.2.2, orderly, ranks.2.1, aside⟩
  · rintro ⟨hlt, order, orderly, definition, aside⟩
    refine ⟨?_, List.forall_mem_singleton.mpr ⟨hlt, definition, order⟩, ?_⟩ <;>
      rw [List.flatMap_singleton] <;> assumption

namespace Rows

/-- Only the instances, the pools and the list of held instances matter. -/
theorem congr (h : w.Rows frame busy hand id rows) (instances : later.instances = w.instances)
    (pools : later.pools = w.pools) (held : later.busy = w.busy) :
    later.Rows frame busy hand id rows :=
  ⟨h.orderly.congr instances pools held,
    fun i hi => by rw [definition?, instances]; exact h.definition i hi, h.aside⟩

/-- No row stands twice. -/
theorem nodup (h : w.Rows frame busy hand id rows) : rows.Nodup :=
  (List.nodup_append.mp (h.orderly.spread.nodup .hand)).1

/-- The rows after something that did not touch what they are. -/
theorem after (h : w.Rows frame busy hand id rows) {others : List InstanceId}
    (orderly : later.Orderly frame busy (rows ++ hand)) (since : Since others w later) :
    later.Rows frame busy hand id rows :=
  ⟨orderly, fun i hi => since.grown (h.definition i hi), h.aside⟩

/-- A new instance joins the rows. -/
theorem join (h : w.Rows frame busy hand id rows) {others : List InstanceId}
    (orderly : later.Orderly frame busy (i :: (rows ++ hand))) (since : Since others w later)
    (definition : later.definition? i = some id) (aside : ¬ frame.still i) :
    later.Rows frame busy hand id (rows ++ [i]) := by
  refine ⟨orderly.perm (by simp), ?_, ?_⟩
  · exact List.forall_mem_append.mpr ⟨fun j hj => since.grown (h.definition j hj),
      List.forall_mem_singleton.mpr definition⟩
  · exact List.forall_mem_append.mpr ⟨h.aside, List.forall_mem_singleton.mpr aside⟩

/-- Rendering one row leaves the others alone. -/
theorem render (h : w.Rows frame busy hand id rows) (steady : engine.Steady)
    (hl : frame.library = engine.library) (hi : i ∈ rows) :
    Ends (w = ·) (engine.render i item controller)
      (fun _ later => later.Rows frame busy hand id rows ∧ engine.Idle later controller i item ∧
        ∀ j ∈ rows, j ≠ i → w.Leaves later j)
      (Failing (World.Rows frame busy hand id rows)) := by
  have others : rows.filter (· ≠ i) ⊆ rows ++ hand :=
    List.subset_append_of_subset_left _ List.filter_sublist.subset
  have apart : ¬ (frame.widen w (rows.filter (· ≠ i))).still i :=
    h.orderly.not_widen others (List.mem_append_left _ hi) (by simp) (h.aside i hi)
  refine (Ends.beside others h.orderly (steady.render i item controller hl apart)).mono
    (fun _ h => h) (fun _ later hx => ?_) fun stop later hx => hx.mono fun hx => h.after hx.1 hx.2
  obtain ⟨orderly, since, idle⟩ := hx
  exact ⟨h.after orderly since, idle, fun j hj hne =>
    since.leaves j (List.mem_filter.mpr ⟨hj, by simpa using hne⟩)⟩

/-- A new row comes beside the others. -/
theorem acquire (h : w.Rows frame busy hand id rows) (steady : engine.Steady)
    (hl : frame.library = engine.library) (share : Bool) :
    Ends (w = ·) (engine.acquire id share item controller)
      (fun i later => later.Rows frame busy hand id (rows ++ [i]) ∧
        engine.Idle later controller i item ∧ ∀ j ∈ rows, w.Leaves later j)
      (Failing (World.Rows frame busy hand id rows)) := by
  have others : rows ⊆ rows ++ hand := List.subset_append_left _ _
  refine (Ends.beside others h.orderly (steady.acquire id share item controller hl)).mono
    (fun _ h => h) (fun i later hx => ?_) fun stop later hx => hx.mono fun hx => h.after hx.1 hx.2
  obtain ⟨orderly, since, definition, aside, idle⟩ := hx
  exact ⟨h.join orderly since definition fun hs => aside (Or.inl hs), idle, since.leaves⟩

end Rows

/-! ## Entries of a stash -/

namespace Stocks

variable {items : List StashItem} {key : StashIndex} {entry : StashItem}

/-- What the other entries of a stash hold. -/
def besides (items : List StashItem) (key : StashIndex) : List InstanceId :=
  (items.eraseIdx key).flatMap StashItem.held

/-- What another entry of the stash holds is besides the entry at the key. -/
theorem mem_besides {k : StashIndex} (hk : k ≠ key) {other : StashItem}
    (ho : items[k]? = some other) (hi : i ∈ other.held) : i ∈ besides items key :=
  List.mem_flatMap.mpr ⟨other, List.mem_eraseIdx_iff_getElem?.mpr ⟨k, hk, ho⟩, hi⟩

/-- One entry comes into hand, and what the others hold comes beside it. -/
theorem alone (h : w.Stocks frame busy hand id items) (hk : items[key]? = some entry) :
    w.Stocks frame busy (besides items key ++ hand) id [entry] := by
  obtain ⟨hlt, rfl⟩ := List.getElem?_eq_some_iff.mp hk
  have perm := List.getElem_cons_eraseIdx_perm hlt
  refine ⟨h.orderly.perm ?_, List.forall_mem_singleton.mpr (h.ranks _ (List.getElem_mem hlt)),
    fun i hi => h.aside i ((perm.flatMap_right StashItem.held).subset ?_)⟩
  · rw [List.flatMap_singleton, ← List.append_assoc]
    exact (perm.flatMap_right StashItem.held).append_right hand
  · rw [List.flatMap_singleton] at hi
    exact List.mem_append_left _ hi

/-- One entry comes into hand, and the others join the frame. -/
theorem split (h : w.Stocks frame busy hand id items) (hk : items[key]? = some entry) :
    w.Stocks (frame.widen w (besides items key)) busy (besides items key ++ hand) id [entry] :=
  (h.alone hk).widen (List.subset_append_left _ _)

/-- The entry comes back, and what joined the frame has been left alone. -/
theorem join (h : w.Stocks frame busy hand id items) (hk : items[key]? = some entry)
    {entry' : StashItem} {others : List InstanceId}
    (h' : later.Stocks (frame.widen w others) busy (besides items key ++ hand) id [entry']) :
    later.Stocks frame busy hand id (items.set key entry') ∧ Since others w later := by
  have hlt := (List.getElem?_eq_some_iff.mp hk).1
  obtain ⟨alone, since⟩ := narrow h.orderly h'
  have perm := List.set_perm_cons_eraseIdx hlt entry'
  refine ⟨⟨alone.orderly.perm ?_, fun item hm => ?_, fun i hi => ?_⟩, since⟩
  · rw [List.flatMap_singleton, ← List.append_assoc]
    exact (perm.flatMap_right StashItem.held).append_right hand
  · rcases List.mem_or_eq_of_mem_set hm with hm | rfl
    · exact (h.ranks item hm).grows since.grown
    · exact alone.ranks item (List.mem_singleton_self _)
  · obtain ⟨item, hm, hi⟩ := List.mem_flatMap.mp hi
    rcases List.mem_or_eq_of_mem_set hm with hm | rfl
    · exact h.aside i (List.mem_flatMap.mpr ⟨item, hm, hi⟩)
    · exact alone.aside i (by rwa [List.flatMap_singleton])

end Stocks

end World

end ComponentView
