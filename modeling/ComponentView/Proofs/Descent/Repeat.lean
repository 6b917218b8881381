import ComponentView.Proofs.Descent.Runs

/-! # Repeaters go down

Putting an instance out of use goes down through what it holds, and so does the patch of a repeater,
of which the rows rank below the instance that holds it (`Run.retire_sinks`, `Sequential.patch_sinks`,
`Keyed.patch_sinks`). -/

namespace ComponentView

variable {rank : DefinitionId → ℕ} {lib : Library} {st : Stage rank}

/-- Whatever is asked of the engine sinks: it may enter instances that a stage admits, and send to
instances that do not rank above the bound. -/
structure Engine.Sinks (lib : Library) (rank : DefinitionId → ℕ) (engine : Engine) : Prop where
  library : engine.library = lib
  render : ∀ (st : Stage rank) i props controller, st.Admits i →
    Run.Sinks lib st (engine.render i props controller)
  acquire : ∀ (st : Stage rank) id share props controller, (rank id : ℕ∞) < st.bound →
    Run.Gives lib st (.isA id) (engine.acquire id share props controller)
  dispatch : ∀ (st : Stage rank) target name value,
    (∀ k handler, lib.Hears k name handler → (rank k : ℕ∞) ≤ st.bound) →
      Run.Sinks lib st (engine.dispatch target name value)
  publish : ∀ (st : Stage rank) name value,
    (∃ k ∈ lib.publishers name, (rank k : ℕ∞) ≤ st.bound) →
      Run.Sinks lib st (engine.publish name value)

/-- Rows of a definition that ranks below the bound rank below it. -/
theorem Claim.below_of_sequential {id : DefinitionId} {known : Knowledge} {r : Sequential} {bound : ℕ∞}
    (h : (Claim.sequential id).holds known r) (low : (rank id : ℕ∞) < bound) :
    (StashItem.sequential r).Below rank known bound := by
  obtain ⟨rfl, rows⟩ := h
  exact ⟨low, rows⟩

/-- The rows of a repeater by key lie below a bound that its definition lies below. -/
theorem Claim.below_of_keyed {id : DefinitionId} {known : Knowledge} {r : Keyed} {bound : ℕ∞}
    (h : (Claim.keyed id).holds known r) (low : (rank id : ℕ∞) < bound) :
    (StashItem.keyed r).Below rank known bound := by
  obtain ⟨rfl, rows⟩ := h
  exact ⟨low, rows⟩

/-! ## Retirement -/

namespace Retire

variable {retire : Retire} (sinks : ∀ (st : Stage rank) mode i, st.Admits i →
  Run.Sinks lib st (retire mode i))

include sinks

/-- Giving an instance back sinks where the instance is admitted. -/
theorem giveBack_sinks {id : DefinitionId} {i : InstanceId} (known : st.known i = some id)
    (admits : st.Admits i) : Run.Sinks lib st (giveBack retire id i) :=
  (Run.Gives.rootOf admits.free).bind fun root =>
    (Run.Gives.onDocument fun d => .detach d root).bind fun _ =>
      (sinks st .dismount i admits).bind fun _ => .pushPool known

/-- Dropping a row sinks where the row is admitted. -/
theorem drop_sinks {id : DefinitionId} {i : InstanceId} (known : st.known i = some id)
    (admits : st.Admits i) (share : Bool) : Run.Sinks lib st (drop retire id share i) := by
  unfold drop
  split
  · exact giveBack_sinks sinks known admits
  · exact sinks st .destroy i admits

/-- Clearing rows of a low definition sinks. -/
theorem clear_sinks {id : DefinitionId} {is : List InstanceId} (low : (rank id : ℕ∞) < st.bound)
    (known : ∀ i ∈ is, st.known i = some id) (share : Bool) :
    Run.Sinks lib st (clear retire id share is) := .forM fun i hi => by
  have admits : st.Admits i := Knowledge.Below.admits ⟨id, known i hi, low⟩
  exact (Run.Gives.rootOf admits.free).bind fun root =>
    (Run.Gives.onDocument fun d => .detach d root).bind fun _ =>
      drop_sinks sinks (known i hi) admits share

/-- An entry whose instances rank below the bound is put out of use, and holds no others afterwards. -/
theorem entry_sinks (mode : Retirement) {item : StashItem}
    (below : item.Below rank st.known st.bound) :
    Run.Gives lib st (.entry rank st.bound) (entry retire mode item) := by
  cases item with
  | tracker t => exact .pure trivial
  | child i => exact (sinks st mode i below.admits).bind fun _ => .pure below
  | sequential r =>
    obtain ⟨low, rows⟩ := below
    refine Run.Gives.bind_known (?_ : Run.Gives lib st (.sequential r.definition) _)
      fun _ _ leads h => .pure (Claim.below_of_sequential h low)
    unfold sequential
    split
    · exact (clear_sinks sinks low rows r.share).bind fun _ => .pure ⟨rfl, List.forall_mem_nil _⟩
    · refine (Run.Gives.forM fun i hi => sinks st .dismount i ?_).bind fun _ => .pure ⟨rfl, rows⟩
      exact Knowledge.Below.admits ⟨_, rows i hi, low⟩
  | keyed r =>
    obtain ⟨low, rows⟩ := below
    refine Run.Gives.bind_known (?_ : Run.Gives lib st (.keyed r.definition) _)
      fun _ _ leads h => .pure (Claim.below_of_keyed h low)
    unfold keyed
    split
    · have listed : ∀ i ∈ r.inOrder, st.known i = some r.definition := fun i hi => by
        obtain ⟨key, -, hk⟩ := List.mem_filterMap.mp hi
        exact rows _ (Keyed.mem_of_instance? hk)
      exact (clear_sinks sinks low listed r.share).bind fun _ =>
        .pure ⟨rfl, fun x hx => rows x (List.mem_of_mem_filter hx)⟩
    · refine (Run.Gives.forM fun i hi => sinks st .dismount i ?_).bind fun _ => .pure ⟨rfl, rows⟩
      obtain ⟨x, hx, rfl⟩ := List.mem_map.mp hi
      exact Knowledge.Below.admits ⟨_, rows x hx, low⟩

/-- An instance that is put out of use stays of its definition, and what it holds stays below it. -/
theorem inPlace_sinks (mode : Retirement) {k : DefinitionId} (bound : st.bound = rank k) :
    Holding.Sinks lib st (.ranked rank k) (inPlace retire mode) := by
  refine Holding.Gives.held.bind_known fun st' inst leads ⟨_, below⟩ => ?_
  have entries : Run.Gives lib st' (Claim.entry rank (rank k)).all
      (inst.stash.mapM (entry retire mode)) := .mapM fun item hm => by
    have own : st'.bound = rank k := leads.bound.trans bound
    exact own ▸ entry_sinks sinks mode (own.symm ▸ below item hm)
  refine (Holding.Gives.outside entries).bind_known fun st'' stash leads' hs => ?_
  have done : Holding.Sinks lib st'' (.ranked rank k)
      (Holding.change fun inst => { inst with stash, mounted := false }) :=
    .change fun _ _ grows h => ⟨h.1, (Claim.all _).steady grows hs⟩
  split
  · exact (Holding.Gives.outside (.onDocument fun d => .release d inst.root)).bind fun _ => done
  · exact done

end Retire

namespace Run

/-- However deep a retirement goes, it sinks where the instance is admitted. -/
theorem retireWithin_sinks (depth : Nat) (st : Stage rank) (mode : Retirement) (i : InstanceId)
    (admits : st.Admits i) : Sinks lib st (retireWithin depth mode i) := by
  induction depth generalizing st mode i with
  | zero => exact .giveUp nofun
  | succ depth ih => exact .hold admits fun st' k _ bound _ => Retire.inPlace_sinks ih mode bound

/-- Putting an instance out of use goes down. -/
theorem retire_sinks (st : Stage rank) (mode : Retirement) (i : InstanceId) (admits : st.Admits i) :
    Sinks lib st (retire mode i) :=
  .get_bind fun st' _ leads _ _ => retireWithin_sinks _ st' mode i (admits.leads leads)

end Run

/-! ## Repeaters by position -/

namespace Sequential

variable {engine : Engine} (sinks : engine.Sinks lib rank) (controller : Controller)
  {id : DefinitionId} (low : (rank id : ℕ∞) < st.bound)

include low in
/-- The rows of a repeater are admitted. -/
theorem admits_row {i : InstanceId} (known : st.known i = some id) : st.Admits i :=
  Knowledge.Below.admits ⟨id, known, low⟩

include sinks low

/-- The row at a position is of the repeated definition. -/
theorem instanceFor_sinks (position : Nat) (item : Value) :
    Holding.Gives lib st (.sequential id) (.isA id) (instanceFor engine controller position item) := by
  refine Holding.Gives.held.bind_known fun st' r leads ⟨definition, rows⟩ => ?_
  have low : (rank id : ℕ∞) < st'.bound := leads.bound ▸ low
  split
  · next i hi =>
    have known := rows i (List.mem_of_getElem? hi)
    exact (Holding.Gives.outside (sinks.render st' i item controller (admits_row low known))).bind
      fun _ => .pure known
  · rw [definition]
    refine (Holding.Gives.outside (sinks.acquire st' id r.share item controller low)).bind_known
      fun st'' i _ hi => ?_
    refine (Holding.Gives.outside (.welcome i)).bind fun _ => Holding.Gives.bind
      (.change fun known r grows h => ⟨h.1, fun j hj => ?_⟩) fun _ => .pure hi
    rcases List.mem_append.mp hj with hj | hj
    · exact h.2 j hj
    · exact List.mem_singleton.mp hj ▸ grows _ _ hi

/-- Showing an item sinks. -/
theorem showItem_sinks (container : NodeId) (anchor : Option NodeId) (position : Nat) (item : Value) :
    Holding.Sinks lib st (.sequential id)
      (showItem engine container anchor controller position item) := by
  refine (instanceFor_sinks sinks controller low position item).bind_known fun st' i leads hi =>
    Holding.Gives.held.bind fun r => ?_
  have free := (admits_row (leads.bound ▸ low) hi).free
  split
  · have shown : Run.Sinks lib st' (do
        let root ← Run.rootOf i
        Run.onDocument (·.insertBefore container root anchor)) :=
      (Run.Gives.rootOf free).bind fun root => .onDocument fun d => .insertBefore d container root anchor
    exact (Holding.Gives.outside shown).bind fun _ => .change fun _ _ _ h => h
  · exact .pure trivial

/-- Showing the items from a position on sinks. -/
theorem showItems_sinks (container : NodeId) (anchor : Option NodeId) (position : Nat)
    (items : List Value) : Holding.Sinks lib st (.sequential id)
      (showItems engine container anchor controller position items) := by
  induction items generalizing position with
  | nil => exact .pure trivial
  | cons item items ih =>
    exact (showItem_sinks sinks controller low container anchor position item).bind fun _ => ih _

omit sinks

/-- Withdrawing the row at a position sinks. -/
theorem withdraw_sinks (container : NodeId) (position : Nat) :
    Holding.Sinks lib st (.sequential id) (withdraw container position) := by
  refine Holding.Gives.held.bind_known fun st' r leads ⟨_, rows⟩ => Holding.Gives.bind
    (.forM fun i hi => .outside ?_) fun _ => .change fun _ _ _ h => h
  have known := rows i (List.mem_of_mem_take (List.mem_of_mem_drop hi))
  exact (Run.Gives.rootOf (admits_row (leads.bound ▸ low) known).free).bind fun root =>
    .onDocument fun d => .remove d container root

/-- Giving back the rows from a position on sinks. -/
theorem giveBackFrom_sinks (position : Nat) :
    Holding.Sinks lib st (.sequential id) (giveBackFrom position) := by
  refine Holding.Gives.held.bind_known fun st' r leads ⟨definition, rows⟩ => ?_
  split
  · refine Holding.Gives.bind (.forM fun i hi => .outside ?_) fun _ =>
      .change fun _ _ _ h => ⟨h.1, fun j hj => h.2 j (List.mem_of_mem_take hj)⟩
    have known := rows i (List.mem_of_mem_drop hi)
    exact Retire.giveBack_sinks Run.retire_sinks (definition ▸ known)
      (admits_row (leads.bound ▸ low) known)
  · exact .pure trivial

include sinks

/-- A patch of rows that rank below the bound goes down. -/
theorem patch_sinks (container : NodeId) (anchor : Option NodeId) (items : List Value) :
    Holding.Sinks lib st (.sequential id) (patch engine container anchor items controller) :=
  .welcoming <| (showItems_sinks sinks controller low container anchor 0 items).bind fun _ =>
    (withdraw_sinks low container items.length).bind fun _ => giveBackFrom_sinks low items.length

end Sequential

/-! ## Repeaters by key -/

namespace Keyed

variable {engine : Engine} (sinks : engine.Sinks lib rank) (controller : Controller)
  {id : DefinitionId} (low : (rank id : ℕ∞) < st.bound)

include sinks low

/-- The row of a key is of the repeated definition. -/
theorem instanceFor_sinks (key : ItemKey) (item : Value) :
    Holding.Gives lib st (.keyed id) (.isA id) (instanceFor engine controller key item) := by
  refine Holding.Gives.held.bind_known fun st' r leads ⟨definition, rows⟩ => ?_
  have low : (rank id : ℕ∞) < st'.bound := leads.bound ▸ low
  split
  · next i hi =>
    have known := rows _ (mem_of_instance? hi)
    exact (Holding.Gives.outside (sinks.render st' i item controller
      (Sequential.admits_row low known))).bind fun _ => .pure known
  · rw [definition]
    refine (Holding.Gives.outside (sinks.acquire st' id r.share item controller low)).bind_known
      fun st'' i _ hi => ?_
    refine (Holding.Gives.outside (.welcome i)).bind fun _ => Holding.Gives.bind
      (.change fun known r grows h => ⟨h.1, fun x hx => ?_⟩) fun _ => .pure hi
    rcases List.mem_append.mp hx with hx | hx
    · exact h.2 x hx
    · exact List.mem_singleton.mp hx ▸ grows _ _ hi

omit sinks

/-- Settling a row at its position sinks. -/
theorem settle_sinks (container : NodeId) (anchor : Option NodeId) (key : ItemKey) {i : InstanceId}
    (known : st.known i = some id) (position : Nat) :
    Holding.Sinks lib st (.keyed id) (settle container anchor key i position) := by
  refine Holding.Gives.held.bind_known fun st' r leads ⟨_, rows⟩ => ?_
  have low : (rank id : ℕ∞) < st'.bound := leads.bound ▸ low
  refine (Holding.Gives.outside (.rootOf
    (Sequential.admits_row low (leads.known _ _ known)).free)).bind fun root => ?_
  split
  · exact (Holding.Gives.outside (.onDocument fun d => .insertBefore d container root anchor)).bind
      fun _ => .change fun _ _ _ h => h
  · split
    · split
      · exact .outside (.giveUp nofun)
      · next occupant ho =>
        refine (Holding.Gives.outside (.rootOf (Sequential.admits_row low
          (rows _ (mem_of_instance? ho))).free)).bind fun before => ?_
        exact (Holding.Gives.outside (.onDocument fun d =>
          .insertBefore d container root (some before))).bind fun _ => .change fun _ _ _ h => h
    · exact .pure trivial

omit low in
/-- Finding the key of an item sinks. -/
theorem itemKey_sinks (r : Keyed) (item : Value) : Run.Sinks lib st (r.itemKey item) := by
  unfold itemKey
  dsimp only
  split
  · exact .pure trivial
  · exact .fail

include sinks

/-- Showing the items after those seen sinks. -/
theorem showItems_sinks (container : NodeId) (anchor : Option NodeId) (seen : List ItemKey)
    (position : Nat) (items : List Value) : Holding.Sinks lib st (.keyed id)
      (showItems engine container anchor controller seen position items) := by
  induction items generalizing seen position st with
  | nil => exact .pure trivial
  | cons item items ih =>
    refine Holding.Gives.held.bind fun r => (Holding.Gives.outside (itemKey_sinks r item)).bind
      fun key => ?_
    split
    · have told : Run.Sinks lib st (do
          let d ← engine.library.definition r.definition
          Run.log .warn (d.name ++ ": duplicate repeat key `" ++ key.text ++ "`, item skipped")) :=
        (Run.Gives.definition _ _).bind fun _ => .log _ _
      exact (Holding.Gives.outside told).bind fun _ => ih low seen position
    · refine (instanceFor_sinks sinks controller low key item).bind_known fun st' i leads hi => ?_
      have low : (rank id : ℕ∞) < st'.bound := leads.bound ▸ low
      exact (settle_sinks low container anchor key hi position).bind fun _ => ih low _ _

omit sinks

/-- Dropping the row of a key sinks. -/
theorem dropKey_sinks (container : NodeId) (key : ItemKey) :
    Holding.Sinks lib st (.keyed id) (dropKey container key) := by
  refine Holding.Gives.held.bind_known fun st' r leads ⟨definition, rows⟩ => ?_
  split
  · exact .pure trivial
  · next i hi =>
    have known := rows _ (mem_of_instance? hi)
    have admits := Sequential.admits_row (leads.bound ▸ low) known
    have dropped : Run.Sinks lib st' (do
        let root ← Run.rootOf i
        Run.onDocument (·.remove container root)
        Retire.drop Run.retire r.definition r.share i) :=
      (Run.Gives.rootOf admits.free).bind fun root =>
        (Run.Gives.onDocument fun d => .remove d container root).bind fun _ =>
          Retire.drop_sinks Run.retire_sinks (definition ▸ known) admits r.share
    exact (Holding.Gives.outside dropped).bind fun _ =>
      .change fun _ _ _ h => ⟨h.1, fun x hx => h.2 x (List.mem_of_mem_filter hx)⟩

/-- Dropping the rows from a position on sinks. -/
theorem dropFrom_sinks (container : NodeId) (position : Nat) :
    Holding.Sinks lib st (.keyed id) (dropFrom container position) :=
  Holding.Gives.held.bind fun _ => Holding.Gives.bind
    (.forM fun key _ => dropKey_sinks low container key) fun _ => .change fun _ _ _ h => h

include sinks

/-- A patch of rows that rank below the bound goes down. -/
theorem patch_sinks (container : NodeId) (anchor : Option NodeId) (items : List Value) :
    Holding.Sinks lib st (.keyed id) (patch engine container anchor items controller) :=
  .welcoming <| (showItems_sinks sinks controller low container anchor [] 0 items).bind fun position =>
    dropFrom_sinks low container position

end Keyed

end ComponentView
