import ComponentView.Proofs.Descent.Update

/-! # All that an engine does goes down

Building an instance goes down from its definition, and so does what a handler does from its instance.
A handler or a mount that comes upon an instance that is held leaves it alone. So whatever is asked of
the engine of a library goes down, at every depth (`Engine.nested_sinks`). -/

namespace ComponentView

variable {rank : DefinitionId → ℕ} {lib : Library} {st : Stage rank} {id : DefinitionId}
  {d : Definition}

/-! ## New instances -/

/-- A listener is added, which is one of its definition if it is that of an instance. -/
theorem World.Graded.listen {w : World} (h : w.Graded lib st) {event : String} {l : Listener}
    (hl : ∀ i handler, l = .bound i handler → ∃ k, st.known i = some k ∧ lib.Hears k event handler)
    (node : NodeId) :
    World.Graded lib st { w with document := w.document.listen node event l } :=
  { h with
    heard := fun {other event' owner handler} hm => by
      have hm : (event', .bound owner handler) ∈
        ((w.document.listen node event l).node other).listeners := hm
      unfold Document.listen at hm
      rw [Document.node_update] at hm
      split at hm
      · rcases List.mem_append.mp hm with hm | hm
        · exact h.heard hm
        · obtain ⟨rfl, rfl⟩ := Prod.mk.inj (List.mem_singleton.mp hm)
          exact (hl owner handler rfl).imp fun k hk => ⟨h.known _ _ hk.1, hk.2⟩
      · exact h.heard hm }

/-- The library is asked for a definition that is there. -/
theorem Run.Gives.found (id : DefinitionId) :
    Run.Gives lib st ⟨fun _ d => lib[id]? = some d, fun _ h => h⟩ (lib.definition id) := fun _ _ =>
  Ends.definition fun _ _ => .of_abort nofun

namespace Build

/-- A child takes the place of a slot. -/
theorem takePlace_sinks {child : InstanceId} (free : child ∉ st.busy) (slot : Nat)
    (startsDetached : Bool) (elements : List NodeId) :
    Run.Sinks lib st (takePlace slot startsDetached child elements) := by
  refine (Run.Gives.rootOf free).bind fun root => ?_
  split
  · exact .giveUp nofun
  · next placeholder _ =>
    have kept : Run.Sinks lib st (do
        Run.onDocument (·.release placeholder)
        return elements.set slot root) :=
      (Run.Gives.onDocument fun d => .release d placeholder).bind fun _ => .pure trivial
    dsimp only
    split
    · exact kept
    · exact (Run.Gives.onDocument fun d => .replace d placeholder root).bind fun _ => kept

section

variable {build : DefinitionId → Run InstanceId} (descends : lib.Descends rank)
  (hd : lib[id]? = some d) (low : (rank id : ℕ∞) < st.bound)
  (builds : ∀ (st' : Stage rank) k, (rank k : ℕ∞) < st'.bound → Run.Gives lib st' (.isA k) (build k))

include descends hd low builds

/-- What is made for a plan ranks below the definition. -/
theorem entry_sinks (elements : List NodeId) {plan : StashPlan} (hp : plan ∈ d.template.stash) :
    Run.Gives lib st
      ⟨fun known r => r.1.Below rank known (rank id), fun grows h => h.grows grows⟩
      (entry build d elements plan) := by
  have below {k : DefinitionId} (hk : plan.refers d = some k) : (rank k : ℕ∞) < rank id := by
    exact_mod_cast descends.lt_of_refers hd hp hk
  cases plan with
  | tracker detached => exact .pure trivial
  | sequential definition share anchors => exact .pure ⟨below rfl, List.forall_mem_nil _⟩
  | keyed definition key share anchors => exact .pure ⟨below rfl, List.forall_mem_nil _⟩
  | child slot source startsDetached =>
    have sourced : Run.Gives lib st ⟨fun _ k => (rank k : ℕ∞) < rank id, fun _ h => h⟩
        (sourceOf d source) := by
      cases source with
      | definition k => exact .pure (below rfl)
      | stub name =>
        simp only [sourceOf]
        split
        · next k hk => exact .pure (below hk)
        · exact .fail
    refine sourced.bind_known fun st' k leads hk => ?_
    have low : (rank id : ℕ∞) < st'.bound := leads.bound ▸ low
    refine (builds st' k (hk.trans low)).bind_known fun st'' child leads' hc => ?_
    have admits : st''.Admits child :=
      Knowledge.Below.admits ⟨k, hc, leads'.bound ▸ hk.trans low⟩
    exact (takePlace_sinks admits.free slot startsDetached elements).bind fun _ => .pure ⟨k, hc, hk⟩

/-- The stash that is made ranks below the definition. -/
theorem entries_sinks (root : NodeId) {made : List StashItem} (elements : List NodeId)
    {plans : List StashPlan} (hp : plans ⊆ d.template.stash)
    (below : (Claim.entry rank (rank id)).all.holds st.known made) :
    Run.Gives lib st ⟨fun known r => ∀ item ∈ r.1, item.Below rank known (rank id),
      fun grows h item hm => (h item hm).grows grows⟩ (entries build d root made elements plans) := by
  induction plans generalizing st made elements with
  | nil => exact .pure below
  | cons plan plans ih =>
    rw [List.cons_subset] at hp
    refine (entry_sinks descends hd low builds elements hp.1).attempt.bind_known
      fun st' r leads hr => ?_
    have low : (rank id : ℕ∞) < st'.bound := leads.bound ▸ low
    have below := (Claim.all _).steady leads.known below
    cases r with
    | ok r =>
      refine ih low r.2 hp.2 fun item hm => ?_
      rcases List.mem_append.mp hm with hm | hm
      · exact below item hm
      · exact List.mem_singleton.mp hm ▸ hr r rfl
    | error fault =>
      refine Run.Gives.bind (Run.Gives.forM fun i hi => Run.retire_sinks st' .destroy i ?_) fun _ =>
        (Run.Gives.onDocument fun d => .release d root).bind fun _ => .fail
      obtain ⟨item, hm, hi⟩ := List.mem_filterMap.mp hi
      obtain ⟨k, hk, hlt⟩ := (below item hm).of_mem_held (i := i) (by
        cases item with
        | child j => exact List.mem_singleton.mpr (Option.some.inj hi).symm
        | _ => cases hi)
      exact Knowledge.Below.admits ⟨k, hk, hlt.trans low⟩

omit builds descends low

/-- A new instance is taken up, and listens as its definition says. -/
theorem register_sinks {inst : Instance} (own : inst.definition = id)
    (below : (Claim.entry rank (rank id)).all.holds st.known inst.stash) :
    Run.Gives lib st (.isA id) (register d.template inst) := by
  have taken : Run.Gives lib st (.isA id)
      (modifyGet fun w => (w.instances.size, { w with instances := w.instances.push inst })) :=
    .modifyGet fun st' w leads hw => by
      refine ⟨?_, hw.push ?_⟩
      · exact (World.definition?_of_get Array.getElem?_push_size).trans (congrArg some own)
      · rw [own]
        exact (Claim.all _).steady hw.known ((Claim.all _).steady leads.known below)
  refine taken.bind_known fun st' i leads hi => ?_
  refine (Run.Gives.forM fun l hl => ?_).bind fun _ => .pure hi
  split
  · next node _ =>
    have hears : lib.Hears id l.event l.handler := ⟨d, hd, l, hl, rfl, rfl⟩
    refine .modify fun st'' w leads' hw => hw.listen (fun j handler hj => ?_) node
    cases hj
    exact ⟨id, leads'.known _ _ hi, hears⟩
  · exact .pure trivial

end

/-- A new instance goes down to its children. -/
theorem assemble_sinks {build : DefinitionId → Run InstanceId} (descends : lib.Descends rank)
    (low : (rank id : ℕ∞) < st.bound) (builds : ∀ (st' : Stage rank) k,
      (rank k : ℕ∞) < st'.bound → Run.Gives lib st' (.isA k) (build k))
    (props : Value) (controller : Controller) :
    Run.Gives lib st (.isA id) (assemble lib build id props controller) := by
  refine (Run.Gives.found id).bind_known fun st' d leads hd => ?_
  have made : Run.Sinks lib st' (Run.newNode (·.instantiate d.template.markup)) :=
    .modifyGet fun _ w _ hw => ⟨trivial, hw.quiet rfl rfl rfl rfl (.instantiate _ w.document)⟩
  refine made.bind fun root => .get_bind fun st'' w leads' _ _ => ?_
  have low : (rank id : ℕ∞) < st''.bound := leads'.bound ▸ leads.bound ▸ low
  split
  · exact (Run.Gives.onDocument fun d => .release d root).bind fun _ => .fail
  · next elements _ =>
    refine (entries_sinks descends hd low builds root elements (List.Subset.refl _)
      (List.forall_mem_nil _)).bind_known fun _ r _ hr => ?_
    exact register_sinks hd rfl hr

end Build

namespace Run

/-- However deep a build goes, it gives an instance of its definition. -/
theorem buildWithin_sinks (descends : lib.Descends rank) (depth : Nat) (st : Stage rank)
    (id : DefinitionId) (low : (rank id : ℕ∞) < st.bound) (props : Value) (controller : Controller) :
    Gives lib st (.isA id) (buildWithin lib depth id props controller) := by
  induction depth generalizing st id props controller with
  | zero => exact .giveUp nofun
  | succ depth ih =>
    exact Build.assemble_sinks descends low (fun st' k hk => ih st' k hk .null none) props controller

variable {engine : Engine} (sinks : engine.Sinks lib rank) (descends : lib.Descends rank)

include sinks descends

/-- Constructing gives an instance of the definition. -/
theorem construct_sinks (low : (rank id : ℕ∞) < st.bound) (props : Value) (controller : Controller) :
    Gives lib st (.isA id) (construct engine id props controller) := by
  have built : Gives lib st (.isA id) (Run.build engine.library id props controller) :=
    sinks.library.symm ▸ buildWithin_sinks descends (id + 1) st id low props controller
  refine built.bind_known fun st' i leads hi => ?_
  have admits : st'.Admits i := Knowledge.Below.admits ⟨id, hi, leads.bound ▸ low⟩
  have updated : Sinks lib st' (Run.hold i (Instance.update engine)) :=
    .hold admits fun _ _ _ bound _ => Instance.update_sinks sinks descends bound
  refine updated.attempt.bind fun r => ?_
  cases r with
  | ok stats =>
    have mounted : Sinks lib st'
        (Run.hold i (Holding.change fun inst => { inst with mounted := true })) :=
      .hold admits fun _ _ _ _ _ => .change fun _ _ _ h => h
    exact mounted.bind fun _ => .pure hi
  | error fault => exact (retire_sinks st' .destroy i admits).bind fun _ => .fail

/-- Acquiring gives an instance of the definition. -/
theorem acquire_sinks (low : (rank id : ℕ∞) < st.bound) (share : Bool) (props : Value)
    (controller : Controller) :
    Gives lib st (.isA id) (acquire engine id share props controller) := by
  unfold Run.acquire
  refine (Gives.definition _ id).bind fun d => ?_
  have fresh (line : String) : Gives lib st (.isA id) (do
      Run.log .debug line
      Run.construct engine id props controller) :=
    (Gives.log _ _).bind fun _ => construct_sinks sinks descends low props controller
  dsimp only
  split
  · refine (Gives.popPool id).bind_known fun st' spare leads hs => ?_
    cases spare with
    | some i =>
      have hi := hs i rfl
      have rendered : Sinks lib st' (Run.hold i (Instance.render engine props controller)) :=
        .hold (Knowledge.Below.admits ⟨id, hi, leads.bound ▸ low⟩) fun _ _ _ bound _ =>
          Instance.render_sinks sinks descends bound props controller
      exact (Gives.log _ _).bind fun _ => rendered.bind fun _ => .pure hi
    | none => exact (fresh _).leads leads
  · exact fresh _

end Run

end ComponentView
