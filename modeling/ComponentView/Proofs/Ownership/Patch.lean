import ComponentView.Proofs.Ownership.Rows
import ComponentView.Proofs.Repeat.Keyed

/-! # Patches keep the order

A patch has the rows of a repeater rendered one after another and gives back those it does not need.
When it ends, the repeater has nothing left to do for the items it was patched with
(`Sequential.patch_steady`, `Keyed.patch_steady`). -/

namespace ComponentView

section

variable {α β : Type} {a : α} {frame : Frame} {busy hand rows : List InstanceId} {id : DefinitionId}
  {w : World} {engine : Engine} {controller : Controller} {item : Value}

/-- A new row is taken up, and joins the repeater that is held. -/
theorem World.Rows.recruit {g : InstanceId → Holding α β} {Q : β → Focus α → Prop}
    {E : Stop → Focus α → Prop} (h : w.Rows frame busy hand id rows) (steady : engine.Steady)
    (hl : frame.library = engine.library) (share : Bool)
    (hE : ∀ stop f, f.held = a → Failing (World.Rows frame busy hand id rows) stop f.world →
      E stop f)
    (hg : ∀ i, Ends (fun f => f.held = a ∧ f.world.Rows frame busy hand id (rows ++ [i]) ∧
      engine.Idle f.world controller i item ∧ ∀ j ∈ rows, w.Leaves f.world j) (g i) Q E) :
    Ends (fun f => f.held = a ∧ w = f.world)
      (do
        let i ← Holding.outside (engine.acquire id share item controller)
        Holding.outside (Run.welcome i)
        g i) Q E := by
  refine ((Ends.outside_at (h.acquire steady hl share)).mono (fun _ h => h) (fun _ _ h => h)
    fun stop f h => hE stop f h.1 h.2).bind fun i => ?_
  refine Ends.bind (Q := fun _ f => f.held = a ∧ f.world.Rows frame busy hand id (rows ++ [i]) ∧
    engine.Idle f.world controller i item ∧ ∀ j ∈ rows, w.Leaves f.world j) ?_ fun _ => hg i
  refine .outside fun b => .modify fun later ⟨hb, rows, idle, leaves⟩ => ?_
  exact ⟨hb, rows.congr rfl rfl rfl, idle.leaves ⟨rfl, fun _ _ _ => rfl⟩,
    fun j hj => (leaves j hj).trans ⟨rfl, fun _ _ _ => rfl⟩⟩

end

/-! ## Repeats by position -/

namespace Sequential

variable {engine : Engine} {frame : Frame} {busy hand : List InstanceId} {id : DefinitionId}
  {controller : Controller} {past : List Value} {item : Value} {n : Nat}

/-- The repeater is in hand, `n` instances are in the container, and the first instances have nothing
left to do for the items that have come. -/
structure Served (engine : Engine) (frame : Frame) (busy hand : List InstanceId)
    (id : DefinitionId) (controller : Controller) (n : Nat) (past : List Value)
    (f : Focus Sequential) : Prop where
  stocks : f.world.Stocks frame busy hand id [.sequential f.held]
  attached : n ≤ f.held.attached
  length : past.length ≤ f.held.instances.length
  rows : ∀ (k : Nat) (item : Value), past[k]? = some item →
    ∃ i, f.held.instances[k]? = some i ∧ engine.Idle f.world controller i item

/-- The document does not matter, and more instances may be in the container. -/
theorem Served.onDocument {f : Focus Sequential}
    (h : Served engine frame busy hand id controller n past f) (document : Document Listener)
    {m attached : Nat} (hm : m ≤ attached) : Served engine frame busy hand id controller m past
      ⟨{ f.held with attached }, { f.world with document }⟩ where
  stocks := by
    obtain ⟨hlt, rows⟩ := World.stocks_sequential.mp h.stocks
    exact World.stocks_sequential.mpr ⟨hlt, rows.congr rfl rfl rfl⟩
  attached := hm
  length := h.length
  rows k item hk := by
    obtain ⟨i, hi, idle⟩ := h.rows k item hk
    exact ⟨i, hi, idle.leaves ⟨rfl, fun _ _ _ => rfl⟩⟩

variable (steady : engine.Steady) (hl : frame.library = engine.library)

include steady hl

/-- The next item has its instance. -/
theorem instanceFor_steady :
    Ends (Served engine frame busy hand id controller n past)
      (instanceFor engine controller past.length item)
      (fun _ => Served engine frame busy hand id controller n (past ++ [item]))
      (Failing fun f => f.world.Stocks frame busy hand id [.sequential f.held]) := by
  rintro ⟨r, w⟩ ⟨stocks, attached, length, old⟩
  obtain ⟨hlt, rows⟩ := World.stocks_sequential.mp stocks
  have failed (stop : Stop) (f : Focus Sequential) (hf : f.held = r)
      (h : Failing (World.Rows frame busy hand r.definition r.instances) stop f.world) :
      Failing (fun f => f.world.Stocks frame busy hand id [.sequential f.held]) stop f :=
    h.mono fun h => World.stocks_sequential.mpr (hf.symm ▸ ⟨hlt, h⟩)
  refine Ends.held_at ?_ _ rfl
  split
  · next i hi =>
    refine ((Ends.outside_at (rows.render steady hl (List.mem_of_getElem? hi))).mono
      (fun _ h => h) (fun _ _ h => h) fun stop f h => failed stop f h.1 h.2).bind fun _ =>
      .pure fun f h => ?_
    obtain ⟨held, rows', idle, leaves⟩ := h
    refine ⟨?_, held ▸ attached, ?_, fun k item' hk => ?_⟩
    · exact World.stocks_sequential.mpr (held.symm ▸ ⟨hlt, rows'⟩)
    · rw [held, List.length_append, List.length_singleton]
      exact (List.getElem?_eq_some_iff.mp hi).1
    · rw [held]
      rcases Nat.lt_or_ge k past.length with hlt | hge
      · rw [List.getElem?_append_left hlt] at hk
        obtain ⟨j, hj, idle'⟩ := old k item' hk
        refine ⟨j, hj, idle'.leaves (leaves j (List.mem_of_getElem? hj) fun he => ?_)⟩
        -- Two positions have different instances.
        subst he
        exact Nat.ne_of_lt hlt ((List.getElem?_inj (List.getElem?_eq_some_iff.mp hj).1
          rows.nodup).mp (hj.trans hi.symm))
      · obtain ⟨rfl, rfl⟩ : k = past.length ∧ item = item' := by
          rw [List.getElem?_append_right hge, List.getElem?_singleton] at hk
          split at hk
          · exact ⟨by omega, Option.some.inj hk⟩
          · cases hk
        exact ⟨i, hi, idle⟩
  · next hnone =>
    have full : r.instances.length = past.length :=
      Nat.le_antisymm (List.getElem?_eq_none_iff.mp hnone) length
    refine rows.recruit steady hl r.share failed fun i => ?_
    refine Ends.bind (Q := fun _ => Served engine frame busy hand id controller n (past ++ [item]))
      (.change fun r w' h => ?_) fun _ => .pure fun _ h => h
    obtain ⟨rfl, rows', idle, leaves⟩ := h
    refine ⟨World.stocks_sequential.mpr ⟨hlt, rows'⟩, attached, ?_, fun k item' hk => ?_⟩
    · simp [full]
    · show ∃ j, (r.instances ++ [i])[k]? = some j ∧ _
      rcases Nat.lt_or_ge k past.length with hlt | hge
      · rw [List.getElem?_append_left hlt] at hk
        obtain ⟨j, hj, idle'⟩ := old k item' hk
        refine ⟨j, ?_, idle'.leaves (leaves j (List.mem_of_getElem? hj))⟩
        rw [List.getElem?_append_left (full.symm ▸ hlt), hj]
      · rw [List.getElem?_append_right hge, List.getElem?_singleton] at hk
        rw [List.getElem?_append_right (full.symm ▸ hge), full, List.getElem?_singleton]
        split at hk
        · next h0 =>
          obtain rfl := Option.some.inj hk
          exact ⟨i, by rw [if_pos h0], idle⟩
        · cases hk

/-- Showing the items one after another serves them. -/
theorem showItems_steady (container : NodeId) (anchor : Option NodeId) (items : List Value) :
    Ends (Served engine frame busy hand id controller past.length past)
      (showItems engine container anchor controller past.length items)
      (fun _ => Served engine frame busy hand id controller (past ++ items).length (past ++ items))
      (Failing fun f => f.world.Stocks frame busy hand id [.sequential f.held]) := by
  induction items generalizing past with
  | nil => exact .pure fun _ h => by rwa [List.append_nil]
  | cons item items ih =>
    rw [List.append_cons, showItems, show past.length + 1 = (past ++ [item]).length by simp]
    refine Ends.bind (Q := fun _ => Served engine frame busy hand id controller
      (past ++ [item]).length (past ++ [item])) ?_ fun _ => ih
    refine (instanceFor_steady steady hl).bind fun i => ?_
    rintro ⟨r, w⟩ h
    refine Ends.held_at ?_ _ rfl
    split
    · have placed : Ends (w = ·) (do
          let root ← Run.rootOf i
          Run.onDocument (·.insertBefore container root anchor))
          (fun _ v => ∃ document, v = { w with document })
          (Failing (World.Stocks frame busy hand id [.sequential r])) := by
        refine (Ends.rootOf (fun _ _ => .of_abort) fun _ _ => .of_abort).bind fun root => ?_
        refine .modify fun v hv => ?_
        obtain ⟨-, -, rfl⟩ := hv
        exact ⟨_, rfl⟩
      refine ((Ends.outside_at placed).mono (fun _ h => h) (fun _ _ h => h) fun stop f h =>
        h.2.mono fun h' => ?_).bind fun _ => .change fun r v hv => ?_
      · obtain ⟨held, -⟩ := h
        rwa [held]
      · obtain ⟨rfl, document, rfl⟩ := hv
        exact h.onDocument document (by simp)
    · next hle =>
      refine .pure fun f hf => ?_
      obtain ⟨rfl, rfl⟩ := hf
      exact { h with attached := by simp; omega }

omit steady hl

/-- The instances past a position leave the container. -/
theorem withdraw_steady (container : NodeId) {m : Nat} (hm : n ≤ m) :
    Ends (Served engine frame busy hand id controller n past) (withdraw container m)
      (fun _ f => f.held.attached ≤ m ∧ Served engine frame busy hand id controller n past f)
      (Failing fun f => f.world.Stocks frame busy hand id [.sequential f.held]) := by
  unfold withdraw
  refine Ends.held.bind fun r => ?_
  rintro f ⟨rfl, h⟩
  refine Ends.bind (P := Served engine frame busy hand id controller n past)
    (Q := fun _ => Served engine frame busy hand id controller n past)
    (.forM fun i _ => ?_) (fun _ => .change fun r w h => ?_) f h
  · refine Ends.outside fun r => (Ends.rootOf (fun _ _ => .of_abort) fun _ _ => .of_abort).bind
      fun root => .modify fun w h => ?_
    exact h.2.2.onDocument _ h.2.2.attached
  · exact ⟨Nat.min_le_right _ _, h.onDocument w.document (Nat.le_min.mpr ⟨h.attached, hm⟩)⟩

/-- A shared repeater gives back the instances past a position; the others are left alone. -/
theorem giveBackFrom_steady {r : Sequential} {w : World}
    (stocks : w.Stocks frame busy hand id [.sequential r]) :
    Ends (fun f => f.held = r ∧ w = f.world) (giveBackFrom n)
      (fun _ f => f.world.Stocks frame busy hand id [.sequential f.held] ∧
        f.held = { r with instances := if r.share then r.instances.take n else r.instances } ∧
        World.Since (r.instances.take n) w f.world)
      (Failing fun f => f.world.Stocks frame busy hand id [.sequential f.held]) := by
  obtain ⟨hlt, rows⟩ := World.stocks_sequential.mp stocks
  unfold giveBackFrom
  refine .held_bind ?_
  split
  · let kept := r.instances.take n
    let dropped := r.instances.drop n
    have whole : r.instances = kept ++ dropped := (List.take_append_drop ..).symm
    have before : w.Orderly frame busy (dropped ++ (kept ++ hand)) := by
      refine rows.orderly.perm ?_
      rw [whole, ← List.append_assoc]
      exact List.perm_append_comm.append_right hand
    have others : kept ⊆ dropped ++ (kept ++ hand) :=
      List.subset_append_of_subset_right _ (List.subset_append_left _ _)
    let wide := frame.widen w kept
    have given : Ends (fun f => f.held = r ∧ f.world.Orderly wide busy (dropped ++ (kept ++ hand)))
        (dropped.forM fun i => Holding.outside (Retire.giveBack Run.retire r.definition i))
        (fun _ f => f.held = r ∧ f.world.Orderly wide busy ([] ++ (kept ++ hand)))
        fun stop _ => stop.GivenUp := by
      refine .forM_hand (P := fun is (f : Focus Sequential) => f.held = r ∧
        f.world.Orderly wide busy (is ++ (kept ++ hand))) fun i rest hi => ?_
      have hd : i ∈ dropped := hi.subset (List.mem_cons_self ..)
      have hi' : i ∈ r.instances := List.drop_subset _ _ hd
      refine Ends.outside_eq (Retire.giveBack_orderly Run.retire_orderly (rows.definition i hi') ?_)
      refine before.not_widen others (List.mem_append_left _ hd) (fun hk => ?_) (rows.aside i hi')
      have nodup := rows.nodup
      rw [whole, List.nodup_append] at nodup
      exact nodup.2.2 i hk i hd rfl
    refine Ends.bind (Q := fun _ f => f.held = r ∧ f.world.Orderly wide busy (kept ++ hand))
      ((given.mono (fun f hf => ?_) (fun _ _ h => h) fun _ _ h => .of_givenUp h))
      fun _ => .change fun r v hv => ?_
    · obtain ⟨rfl, rfl⟩ := hf
      exact ⟨rfl, before.widen others⟩
    · obtain ⟨rfl, hv⟩ := hv
      obtain ⟨orderly, since⟩ := before.narrow hv
      have smaller : kept ⊆ r.instances := List.take_subset _ _
      refine ⟨World.stocks_sequential.mpr ⟨hlt, orderly, fun i hi =>
        since.grown (rows.definition i (smaller hi)), fun i hi => rows.aside i (smaller hi)⟩, rfl,
        since⟩
  · refine .pure fun f hf => ?_
    obtain ⟨rfl, rfl⟩ := hf
    exact ⟨stocks, rfl, .of_instances rfl rfl _⟩

include steady hl

/-- After a patch the repeater has nothing left to do. -/
theorem patch_steady (container : NodeId) (anchor : Option NodeId) (items : List Value) :
    Ends (fun f => f.world.Stocks frame busy hand id [.sequential f.held])
      (patch engine container anchor items controller)
      (fun _ f => f.world.Stocks frame busy hand id [.sequential f.held] ∧
        f.held.Rests (engine.Idle f.world controller) items)
      (Failing fun f => f.world.Stocks frame busy hand id [.sequential f.held]) := by
  refine .welcoming ?_
  have shown : Ends (Served engine frame busy hand id controller ([] : List Value).length [])
      (showItems engine container anchor controller ([] : List Value).length items) _ _ :=
    showItems_steady steady hl container anchor items
  have given : Ends (fun f => f.held.attached ≤ items.length ∧
        Served engine frame busy hand id controller items.length items f)
      (giveBackFrom items.length)
      (fun _ f => f.world.Stocks frame busy hand id [.sequential f.held] ∧
        f.held.Rests (engine.Idle f.world controller) items)
      (Failing fun f => f.world.Stocks frame busy hand id [.sequential f.held]) := by
    rintro ⟨r, w⟩ ⟨attached, served⟩
    refine ((giveBackFrom_steady served.stocks).post fun _ f h => ?_) _ ⟨rfl, rfl⟩
    obtain ⟨stocks, held, since⟩ := h
    have first (k : Nat) (item : Value) (hk : items[k]? = some item) :
        ∃ i, f.held.instances[k]? = some i ∧ engine.Idle f.world controller i item := by
      obtain ⟨i, hi, idle⟩ := served.rows k item hk
      have kept : (r.instances.take items.length)[k]? = some i := by
        rw [List.getElem?_take, if_pos (List.getElem?_eq_some_iff.mp hk).1]
        exact hi
      refine ⟨i, ?_, idle.leaves (since.leaves i (List.mem_of_getElem? kept))⟩
      rw [held]
      dsimp only
      split
      · exact kept
      · exact hi
    refine ⟨stocks, ?_, fun hshare => ?_, first⟩
    · rw [held]
      exact Nat.le_antisymm attached served.attached
    · rw [held] at hshare ⊢
      dsimp only at hshare ⊢
      rw [if_pos hshare]
      exact List.length_take_le _ _
  refine (shown.bind fun _ => (withdraw_steady container (Nat.le_refl _)).bind fun _ => given).mono
    (fun f h => ⟨h, Nat.zero_le _, Nat.zero_le _, nofun⟩) (fun _ f h newcomers => ⟨?_, ?_⟩)
    fun stop f h newcomers => h.mono fun h => h.congr rfl rfl rfl
  · exact h.1.congr rfl rfl rfl
  · exact h.2.imp fun i _ item idle => idle.leaves ⟨rfl, fun _ _ _ => rfl⟩

end Sequential

/-! ## Repeats by key -/

namespace Keyed

variable {engine : Engine} {frame : Frame} {busy hand : List InstanceId} {id : DefinitionId}
  {controller : Controller} {container : NodeId} {anchor : Option NodeId} {key : ItemKey}
  {item : Value} {seen : List ItemKey} {n : Nat} {f later latest : Focus Keyed}

/-- The first `n` places keep their keys and instances, and these are left alone. -/
structure Keeps (n : Nat) (f later : Focus Keyed) : Prop where
  definition : later.held.definition = f.held.definition
  path : later.held.key = f.held.key
  places : ∀ position < n, ∀ key i, f.held.order[position]? = some key →
    f.held.instance? key = some i → later.held.order[position]? = some key ∧
      later.held.instance? key = some i ∧ f.world.Leaves later.world i

/-- A repeater that stays as it is keeps its rows. -/
theorem Keeps.refl (n : Nat) (f : Focus Keyed) : Keeps n f f :=
  ⟨rfl, rfl, fun _ _ _ i hk hi => ⟨hk, hi, .refl _ i⟩⟩

/-- Rows that are kept twice are kept. -/
theorem Keeps.trans (h : Keeps n f later) (h' : Keeps n later latest) : Keeps n f latest where
  definition := h'.definition.trans h.definition
  path := h'.path.trans h.path
  places position hp key i hk hi := by
    obtain ⟨hk', hi', leaves⟩ := h.places position hp key i hk hi
    obtain ⟨hk'', hi'', leaves'⟩ := h'.places position hp key i hk' hi'
    exact ⟨hk'', hi'', leaves.trans leaves'⟩

/-- Fewer rows are kept too. -/
theorem Keeps.mono {m : Nat} (h : Keeps n f later) (hm : m ≤ n) : Keeps m f later :=
  ⟨h.definition, h.path, fun position hp => h.places position (Nat.lt_of_lt_of_le hp hm)⟩

/-- What rests in the first places rests there later. -/
theorem Keeps.rests (h : Keeps n f later) {lib : Library} {position : Nat} {items : List Value}
    (rests : f.held.Rests (engine.Idle f.world controller) lib n seen position items) :
    later.held.Rests (engine.Idle later.world controller) lib n seen position items :=
  rests.keep h.definition h.path fun position hp key i hk hi => by
    obtain ⟨hk', hi', leaves⟩ := h.places position hp key i hk hi
    exact ⟨hk', hi', fun _ idle => idle.leaves leaves⟩

/-- The repeater is in hand, and its first places belong to the keys that have come. -/
structure Served (frame : Frame) (busy hand : List InstanceId) (id : DefinitionId)
    (seen : List ItemKey) (f : Focus Keyed) : Prop where
  stocks : f.world.Stocks frame busy hand id [.keyed f.held]
  front : f.held.order.take seen.length = seen.reverse

/-- No more keys were served than are in order. -/
theorem Served.length_le (h : Served frame busy hand id seen f) :
    seen.length ≤ f.held.order.length := by
  have := congrArg List.length h.front
  rw [List.length_take, List.length_reverse] at this
  omega

/-- A key among the first places has come. -/
theorem Served.mem_seen (h : Served frame busy hand id seen f) {position : Nat}
    (hp : position < seen.length) (hk : f.held.order[position]? = some key) : key ∈ seen := by
  rw [← List.mem_reverse, ← h.front]
  exact List.mem_of_getElem? (i := position) (by rw [List.getElem?_take, if_pos hp, hk])

/-- Two keys have two instances. -/
theorem key_eq_of_instance? {r : Keyed} (nodup : (r.instances.map (·.2)).Nodup) {other : ItemKey}
    {i : InstanceId} (hi : r.instance? key = some i) (hj : r.instance? other = some i) :
    key = other :=
  congrArg Prod.fst
    (List.inj_on_of_nodup_map nodup (mem_of_instance? hi) (mem_of_instance? hj) rfl)

section

variable (steady : engine.Steady) (hl : frame.library = engine.library)

include steady hl

/-- The key has its instance, and those of the first places are left alone. -/
theorem instanceFor_steady (served : Served frame busy hand id seen f) (hkey : key ∉ seen) :
    Ends (f = ·) (instanceFor engine controller key item)
      (fun i later => Served frame busy hand id seen later ∧ later.held.instance? key = some i ∧
        engine.Idle later.world controller i item ∧ Keeps seen.length f later)
      (Failing fun f => f.world.Stocks frame busy hand id [.keyed f.held]) := by
  obtain ⟨r, w⟩ := f
  obtain ⟨hlt, order, rows⟩ := World.stocks_keyed.mp served.stocks
  have failed (stop : Stop) (f : Focus Keyed) (hf : f.held = r)
      (h : Failing (World.Rows frame busy hand r.definition (r.instances.map (·.2))) stop f.world) :
      Failing (fun f => f.world.Stocks frame busy hand id [.keyed f.held]) stop f :=
    h.mono fun h => World.stocks_keyed.mpr (hf.symm ▸ ⟨hlt, order, h⟩)
  refine .held_at ?_
  split
  · next i hi =>
    have hm : i ∈ r.instances.map (·.2) := List.mem_map_of_mem (mem_of_instance? hi)
    refine ((Ends.outside_at (rows.render steady hl hm)).mono (fun _ h => h) (fun _ _ h => h)
      fun stop f h => failed stop f h.1 h.2).bind fun _ => .pure fun f h => ?_
    obtain ⟨held, rows', idle, leaves⟩ := h
    refine ⟨⟨World.stocks_keyed.mpr (held.symm ▸ ⟨hlt, order, rows'⟩), held.symm ▸ served.front⟩,
      held.symm ▸ hi, idle, congrArg _ held, congrArg _ held, fun position hp key' j hk' hj => ?_⟩
    rw [held]
    refine ⟨hk', hj, leaves j (List.mem_map_of_mem (mem_of_instance? hj)) fun he => ?_⟩
    subst he
    obtain rfl := key_eq_of_instance? rows.nodup hi hj
    exact hkey (served.mem_seen hp hk')
  · next hnone =>
    refine rows.recruit steady hl r.share failed fun i => ?_
    refine Ends.bind (Q := fun _ later => Served frame busy hand id seen later ∧
        later.held.instance? key = some i ∧ engine.Idle later.world controller i item ∧
          Keeps seen.length ⟨r, w⟩ later)
      (.change fun r v h => ?_) fun _ => .pure fun _ h => h
    obtain ⟨rfl, rows', idle, leaves⟩ := h
    have old {key' : ItemKey} {j : InstanceId} (hj : r.instance? key' = some j) :
        (r.instances ++ [(key, i)]).lookup key' = some j := by
      rw [List.lookup_append, show r.instances.lookup key' = some j from hj, Option.some_or]
    refine ⟨⟨World.stocks_keyed.mpr ⟨hlt, order, ?_⟩, served.front⟩, ?_, idle, rfl, rfl,
      fun position hp key' j hk' hj => ⟨hk', old hj, leaves j ?_⟩⟩
    · simpa using rows'
    · show (r.instances ++ [(key, i)]).lookup key = some i
      rw [List.lookup_append, show r.instances.lookup key = none from hnone]
      simp
    · exact List.mem_map_of_mem (mem_of_instance? hj)

omit steady hl

/-- The instance of a key comes to the next place. -/
theorem settle_steady (served : Served frame busy hand id seen f) (hkey : key ∉ seen)
    {i : InstanceId} :
    Ends (f = ·) (settle container anchor key i seen.length)
      (fun _ later => Served frame busy hand id (key :: seen) later ∧
        later.held.order[seen.length]? = some key ∧
        later.held.instances = f.held.instances ∧ f.world.Leaves later.world i ∧
        Keeps seen.length f later)
      (Failing fun f => f.world.Stocks frame busy hand id [.keyed f.held]) := by
  obtain ⟨r, w⟩ := f
  obtain ⟨hlt, order, rows⟩ := World.stocks_keyed.mp served.stocks
  have fresh : key ∉ r.order.take seen.length := by
    rw [served.front, List.mem_reverse]
    exact hkey
  -- Only the document and the order change; the first places stay.
  have done (document : Document Listener) {order' : List ItemKey} (nodup : order'.Nodup)
      (front : order'.take (seen.length + 1) = r.order.take seen.length ++ [key]) :
      let later : Focus Keyed := ⟨{ r with order := order' }, { w with document }⟩
      Served frame busy hand id (key :: seen) later ∧ later.held.order[seen.length]? = some key ∧
        later.held.instances = r.instances ∧ w.Leaves later.world i ∧
        Keeps seen.length ⟨r, w⟩ later := by
    have length : (r.order.take seen.length).length = seen.length := by
      rw [served.front, List.length_reverse]
    have place (position : Nat) (hp : position < seen.length + 1) :
        order'[position]? = (r.order.take seen.length ++ [key])[position]? := by
      rw [← front, List.getElem?_take, if_pos hp]
    refine ⟨⟨World.stocks_keyed.mpr ⟨hlt, nodup, rows.congr rfl rfl rfl⟩, ?_⟩, ?_, rfl,
      ⟨rfl, fun _ _ _ => rfl⟩, rfl, rfl, fun position hp key' j hk hj => ⟨?_, hj, rfl, fun _ _ _ => rfl⟩⟩
    · show order'.take (key :: seen).length = _
      rw [List.length_cons, front, served.front, List.reverse_cons]
    · show order'[seen.length]? = some key
      rw [place _ (Nat.lt_succ_self _), List.getElem?_append_right (Nat.le_of_eq length), length]
      simp
    · show order'[position]? = some key'
      rw [place _ (Nat.lt_succ_of_lt hp), List.getElem?_append_left (length.symm ▸ hp),
        List.getElem?_take, if_pos hp]
      exact hk
  unfold settle
  refine .held_at ?_
  have looked {j : InstanceId} : Ends (fun f => f.held = r ∧ w = f.world)
      (Holding.outside (Run.rootOf j)) (fun _ f => f.held = r ∧ w = f.world)
      (Failing fun f => f.world.Stocks frame busy hand id [.keyed f.held]) :=
    .outside fun r => (Ends.rootOf (fun _ _ => .of_abort) fun _ _ => .of_abort).post
      fun _ _ h => h.2.2
  refine looked.bind fun root => ?_
  split
  · next hnone =>
    refine Ends.bind (Q := fun _ f => f.held = r ∧ ∃ document, { w with document } = f.world)
      (.outside fun r => .modify fun v hv => ?_) fun _ => .change fun r v hv => ?_
    · obtain ⟨rfl, rfl⟩ := hv
      exact ⟨rfl, _, rfl⟩
    · obtain ⟨rfl, document, rfl⟩ := hv
      have all : r.order.take seen.length = r.order :=
        List.take_of_length_le (List.getElem?_eq_none_iff.mp hnone)
      refine done document ?_ ?_
      · rw [all] at fresh
        exact List.nodup_append.mpr ⟨order, by simp, fun k hk k' hk' he =>
          fresh (by rw [List.mem_singleton.mp hk'] at he; exact he ▸ hk)⟩
      · have length := congrArg List.length served.front
        rw [all, List.length_reverse] at length
        rw [all, List.take_of_length_le (by simp [length])]
  · next there hthere =>
    have hlt : seen.length < r.order.length := (List.getElem?_eq_some_iff.mp hthere).1
    split
    · split
      · exact .outside fun r => .throw fun _ _ => .of_abort
      · refine looked.bind fun before => Ends.bind
          (Q := fun _ f => f.held = r ∧ ∃ document, { w with document } = f.world)
          (.outside fun r => .modify fun v hv => ?_) fun _ => .change fun r v hv => ?_
        · obtain ⟨rfl, rfl⟩ := hv
          exact ⟨rfl, _, rfl⟩
        · obtain ⟨rfl, document, rfl⟩ := hv
          exact done document (nodup_pullForward order fresh) (take_pullForward (Nat.le_of_lt hlt))
    · next hk =>
      refine .pure fun f hf => ?_
      obtain ⟨rfl, rfl⟩ := hf
      obtain rfl : there = key := not_not.mp hk
      refine done f.world.document order ?_
      rw [List.take_add_one, hthere, Option.toList_some]

include steady hl

/-- Showing the items one after another puts each at its place. -/
theorem showItems_steady (container : NodeId) (anchor : Option NodeId) (items : List Value)
    (served : Served frame busy hand id seen f) :
    Ends (f = ·) (showItems engine container anchor controller seen seen.length items)
      (fun n later => later.world.Stocks frame busy hand id [.keyed later.held] ∧
        n ≤ later.held.order.length ∧ Keeps seen.length f later ∧
        later.held.Rests (engine.Idle later.world controller) engine.library n seen seen.length
          items)
      (Failing fun f => f.world.Stocks frame busy hand id [.keyed f.held]) := by
  induction items generalizing seen f with
  | nil =>
    refine .pure ?_
    rintro _ rfl
    exact ⟨served.stocks, served.length_le, .refl _ _, rfl⟩
  | cons item items ih =>
    obtain ⟨r, w⟩ := f
    refine .held_at ?_
    have keyed : Ends (w = ·) (r.itemKey item)
        (fun key v => ItemKey.ofValue? (item.get r.key) = some key ∧ w = v) (Failing (w = ·)) := by
      unfold itemKey
      dsimp only
      split
      · next key hk => exact .pure fun _ h => ⟨hk, h⟩
      · exact .fail
    refine ((Ends.outside_at keyed).mono (fun _ h => h) (fun _ _ h => h) fun stop f h =>
      h.2.mono fun hw => ?_).bind fun key => ?_
    · obtain ⟨held, -⟩ := h
      rw [held, ← hw]
      exact served.stocks
    split
    · next hs =>
      rintro ⟨r, v⟩ ⟨rfl, hkey, rfl⟩
      have logged : Ends (w = ·)
          (do
            let d ← engine.library.definition r.definition
            Run.log .warn (d.name ++ ": duplicate repeat key `" ++ key.text ++ "`, item skipped"))
          (fun _ v => (engine.library[r.definition]?).isSome ∧
            ∃ journal, { w with journal } = v)
          (Failing (w = ·)) := by
        refine (Ends.definition fun _ _ => .of_abort).bind fun d => .modify fun v hv => ?_
        obtain ⟨known, rfl⟩ := hv
        exact ⟨by rw [known]; rfl, _, rfl⟩
      refine (?_ : Ends (fun f => f.held = r ∧ w = f.world) _ _ _) _ ⟨rfl, rfl⟩
      refine ((Ends.outside_at logged).mono (fun _ h => h) (fun _ _ h => h) fun stop f h =>
        h.2.mono fun hw => ?_).bind fun _ => ?_
      · obtain ⟨held, -⟩ := h
        rw [held, ← hw]
        exact served.stocks
      rintro ⟨r, v⟩ ⟨rfl, known, journal, rfl⟩
      have served' : Served frame busy hand id seen ⟨r, { w with journal }⟩ :=
        ⟨served.stocks.congr rfl rfl rfl, served.front⟩
      refine ((ih served').post fun n later h => ?_) _ rfl
      obtain ⟨stocks, le, keeps, rests⟩ := h
      have before : Keeps seen.length ⟨r, w⟩ ⟨r, { w with journal }⟩ :=
        ⟨rfl, rfl, fun _ _ _ i hk hi => ⟨hk, hi, rfl, fun _ _ _ => rfl⟩⟩
      refine ⟨stocks, le, before.trans keeps, key, keeps.path ▸ hkey, ?_⟩
      rw [if_pos hs]
      exact ⟨keeps.definition ▸ known, rests⟩
    · next hs =>
      rintro ⟨r, v⟩ ⟨rfl, hkey, rfl⟩
      refine ((instanceFor_steady steady hl served hs).bind fun i => ?_) ⟨r, w⟩ rfl
      rintro f₁ ⟨served₁, hi, idle, keeps₁⟩
      refine ((settle_steady served₁ hs (i := i)).bind fun _ => ?_) f₁ rfl
      rintro f₂ ⟨served₂, place, instances, leaves, keeps₂⟩
      have hi₂ : f₂.held.instance? key = some i := by
        rw [Keyed.instance?, instances]
        exact hi
      refine ((ih served₂).post fun n later h => ?_) f₂ rfl
      obtain ⟨stocks, le, keeps, rests⟩ := h
      obtain ⟨place', hi', leaves'⟩ := keeps.places seen.length (Nat.lt_succ_self _) key i place hi₂
      have all := keeps₁.trans (keeps₂.trans (keeps.mono (Nat.le_succ _)))
      refine ⟨stocks, le, all, key, all.path ▸ hkey, ?_⟩
      rw [if_neg hs]
      exact ⟨place', ⟨i, hi', (idle.leaves leaves).leaves leaves'⟩, rests⟩

omit steady hl

/-- Dropping a key that has none of the first places leaves them alone. -/
theorem dropKey_steady (stocks : f.world.Stocks frame busy hand id [.keyed f.held])
    (hn : key ∉ f.held.order.take n) :
    Ends (f = ·) (dropKey container key)
      (fun _ later => later.world.Stocks frame busy hand id [.keyed later.held] ∧
        later.held.order = f.held.order ∧ Keeps n f later)
      fun stop _ => stop.GivenUp := by
  obtain ⟨r, w⟩ := f
  obtain ⟨hlt, order, rows⟩ := World.stocks_keyed.mp stocks
  unfold dropKey
  refine .held_at ?_
  split
  · refine .pure fun f hf => ?_
    obtain ⟨rfl, rfl⟩ := hf
    exact ⟨stocks, rfl, .refl _ _⟩
  · next i hi =>
    let others := (r.instances.filter (·.1 ≠ key)).map (·.2)
    have hm := mem_of_instance? hi
    have smaller : others ⊆ r.instances.map (·.2) :=
      List.map_subset _ List.filter_sublist.subset
    have fresh : i ∉ others := fun ho => by
      obtain ⟨x, hx, he⟩ := List.mem_map.mp ho
      obtain ⟨hx, hne⟩ := List.mem_filter.mp hx
      obtain rfl := List.inj_on_of_nodup_map rows.nodup hx hm he
      simp at hne
    have before : w.Orderly frame busy (i :: (others ++ hand)) := by
      refine rows.orderly.shrink ?_
      have subperm : (i :: others).Subperm (r.instances.map (·.2)) := List.subperm_of_subset
        (List.nodup_cons.mpr ⟨fresh, rows.nodup.sublist (List.filter_sublist.map _)⟩)
        (List.cons_subset.mpr ⟨List.mem_map_of_mem hm, smaller⟩)
      exact (List.subperm_append_right hand).mpr subperm
    have beside : others ⊆ i :: (others ++ hand) :=
      List.subset_cons_of_subset _ (List.subset_append_left _ _)
    have apart : ¬ (frame.widen w others).still i :=
      before.not_widen beside (List.mem_cons_self ..) fresh (rows.aside i (List.mem_map_of_mem hm))
    have removed : Ends (World.Orderly (frame.widen w others) busy (i :: (others ++ hand)))
        (do
          let root ← Run.rootOf i
          Run.onDocument (·.remove container root)
          Retire.drop Run.retire r.definition r.share i)
        (fun _ => World.Orderly (frame.widen w others) busy (others ++ hand))
        fun stop _ => stop.GivenUp := by
      refine (Ends.rootOf (fun _ _ => ⟨_, rfl⟩) fun _ _ => ⟨_, rfl⟩).bind fun root => ?_
      refine Ends.bind (Q := fun _ => World.Orderly (frame.widen w others) busy
        (i :: (others ++ hand))) (.modify fun v hv => hv.2.2.congr rfl rfl rfl) fun _ => ?_
      exact Retire.drop_orderly Run.retire_orderly r.share
        (rows.definition i (List.mem_map_of_mem hm)) apart
    refine (Ends.outside_eq (P := (w = ·)) (Q := fun _ later =>
      later.Orderly frame busy (others ++ hand) ∧ World.Since others w later) ?_).bind fun _ =>
        .change fun r v hv => ?_
    · rintro _ rfl
      exact (removed.post fun _ _ h => before.narrow h) w (before.widen beside)
    obtain ⟨rfl, orderly, since⟩ := hv
    refine ⟨World.stocks_keyed.mpr ⟨hlt, order, orderly, fun j hj =>
      since.grown (rows.definition j (smaller hj)), fun j hj => rows.aside j (smaller hj)⟩, rfl,
      rfl, rfl, fun position hp key' j hk hj => ?_⟩
    have hne : key' ≠ key := by
      rintro rfl
      exact hn (List.mem_of_getElem? (i := position) (by rw [List.getElem?_take, if_pos hp, hk]))
    have hj' : (r.instances.filter (·.1 ≠ key)).lookup key' = some j := by
      rw [lookup_filter_ne hne]
      exact hj
    refine ⟨hk, hj', since.leaves j ?_⟩
    have hm' := mem_of_instance? hj
    exact List.mem_map_of_mem (List.mem_filter.mpr ⟨hm', by simpa using hne⟩)

/-- Dropping what stands from a position on leaves the places before it alone. -/
theorem dropFrom_steady (stocks : f.world.Stocks frame busy hand id [.keyed f.held])
    (hn : n ≤ f.held.order.length) :
    Ends (f = ·) (dropFrom container n)
      (fun _ later => later.world.Stocks frame busy hand id [.keyed later.held] ∧
        later.held.order.length = n ∧ Keeps n f later)
      fun stop _ => stop.GivenUp := by
  obtain ⟨-, order, -⟩ := World.stocks_keyed.mp stocks
  unfold dropFrom
  refine Ends.held.bind fun r => ?_
  rintro _ ⟨rfl, rfl⟩
  refine Ends.bind (P := fun later => later.world.Stocks frame busy hand id [.keyed later.held] ∧
      later.held.order = f.held.order ∧ Keeps n f later)
    (Q := fun _ later => later.world.Stocks frame busy hand id [.keyed later.held] ∧
      later.held.order = f.held.order ∧ Keeps n f later)
    (.forM fun key hkey => ?_) (fun _ => .change fun r w h => ?_) f ⟨stocks, rfl, .refl _ _⟩
  · rintro g ⟨stocks', same, keeps⟩
    refine ((dropKey_steady stocks' (n := n) ?_).post fun _ later h => ?_) g rfl
    · rw [same]
      rw [← List.take_append_drop n f.held.order, List.nodup_append] at order
      exact fun hk => order.2.2 key hk key hkey rfl
    · exact ⟨h.1, h.2.1.trans same, keeps.trans h.2.2⟩
  · obtain ⟨stocks', same, keeps⟩ := h
    obtain ⟨hlt, order', rows⟩ := World.stocks_keyed.mp stocks'
    dsimp only at same order'
    refine ⟨World.stocks_keyed.mpr ⟨hlt, order'.sublist (List.take_sublist _ _), rows⟩, ?_,
      keeps.definition, keeps.path, fun position hp key i hk hi => ?_⟩
    · show (r.order.take n).length = n
      rw [same, List.length_take, Nat.min_eq_left hn]
    · obtain ⟨hk', hi', leaves⟩ := keeps.places position hp key i hk hi
      exact ⟨by rw [List.getElem?_take, if_pos hp]; exact hk', hi', leaves⟩

include steady hl

/-- After a patch the repeater has nothing left to do. -/
theorem patch_steady (container : NodeId) (anchor : Option NodeId) (items : List Value) :
    Ends (fun f => f.world.Stocks frame busy hand id [.keyed f.held])
      (patch engine container anchor items controller)
      (fun _ f => f.world.Stocks frame busy hand id [.keyed f.held] ∧
        f.held.Rests (engine.Idle f.world controller) engine.library f.held.order.length [] 0 items)
      (Failing fun f => f.world.Stocks frame busy hand id [.keyed f.held]) := by
  refine .welcoming fun f stocks => ?_
  have shown : Ends (f = ·)
      (showItems engine container anchor controller [] ([] : List ItemKey).length items) _ _ :=
    showItems_steady steady hl container anchor items ⟨stocks, by simp⟩
  have patched : Ends (f = ·) (do
      let n ← showItems engine container anchor controller [] 0 items
      dropFrom container n)
      (fun _ later => later.world.Stocks frame busy hand id [.keyed later.held] ∧
        later.held.Rests (engine.Idle later.world controller) engine.library
          later.held.order.length [] 0 items)
      (Failing fun f => f.world.Stocks frame busy hand id [.keyed f.held]) := by
    refine shown.bind fun n => ?_
    rintro g ⟨stocks', le, -, rests⟩
    refine ((dropFrom_steady stocks' le).mono (fun _ h => h) (fun _ later h => ?_)
      fun _ _ h => .of_givenUp h) g rfl
    obtain ⟨stocks'', rfl, keeps⟩ := h
    exact ⟨stocks'', keeps.rests rests⟩
  refine (patched.mono (fun _ h => h) (fun _ later h newcomers => ?_)
    fun stop later h newcomers => ?_) f rfl
  · exact ⟨h.1.congr rfl rfl rfl,
      h.2.imp fun i _ item idle => idle.leaves ⟨rfl, fun _ _ _ => rfl⟩⟩
  · exact h.mono fun h => h.congr rfl rfl rfl

end

end Keyed

end ComponentView
