import ComponentView.Proofs.Descent.Events
import ComponentView.Proofs.SecondUpdate

/-! # Sessions go down

Between two steps nobody is held, and a step may enter any instance (`Stage.Open`). A session is graded if
it stands at such a stage, with the rows of its repeaters of the definitions that these say. The rules
follow the ways in which computations over a session are put together (`Work.Sinks`). -/

namespace ComponentView

variable {rank : DefinitionId → ℕ} {lib : Library} {st : Stage rank} {α β γ : Type}

/-! ## Between two steps -/

/-- The rows of a repeater that has none rank below everything. -/
theorem Repeater.Empty.below {r : Repeater} (h : r.Empty) (rank : DefinitionId → ℕ)
    (known : Knowledge) : r.entry.Below rank known ⊤ := by
  cases r with
  | sequential r =>
    have none : r.instances = [] := h
    exact ⟨ENat.natCast_lt_top _, none ▸ List.forall_mem_nil _⟩
  | keyed r =>
    have none : r.instances = [] := h.1
    exact ⟨ENat.natCast_lt_top _, none ▸ List.forall_mem_nil _⟩

/-- Nobody is held, everything may be entered, and no mounts are being run. -/
structure Stage.Open (st : Stage rank) : Prop where
  busy : st.busy = []
  bound : st.bound = ⊤
  running : st.running = false

namespace Stage.Open

/-- While nobody is held every instance is admitted. -/
theorem admits (h : st.Open) (i : InstanceId) : st.Admits i :=
  ⟨h.busy ▸ List.not_mem_nil, .inl h.bound⟩

/-- While nobody is held every definition ranks low. -/
theorem low (h : st.Open) (id : DefinitionId) : (rank id : ℕ∞) < st.bound :=
  h.bound ▸ ENat.natCast_lt_top _

/-- Of an instance that is held its own rank is the bound. -/
theorem hold (h : st.Open) {i : InstanceId} {x : Holding Instance α} {claim : Claim α}
    (hx : ∀ (st' : Stage rank) (k : DefinitionId), st'.bound = rank k →
      Holding.Gives lib st' (.ranked rank k) claim x) : Run.Gives lib st claim (Run.hold i x) :=
  .hold (h.admits i) fun st' k _ own _ => hx st' k own

end Stage.Open

/-- The same stage with other mounts. -/
def Stage.follow (st : Stage rank) (mounted : MountId → Option (InstanceId × Observable)) :
    Stage rank := { st with mounted }

/-- The session stands at a stage, between two steps. -/
structure Session.At (lib : Library) (st : Stage rank) (s : Session) : Prop where
  library : s.library = lib
  idle : st.Open
  world : s.world.Graded lib st
  repeaters : ∀ e ∈ s.repeaters, e.2.entry.Below rank st.known ⊤

/-- The session stands at some stage. -/
def Session.Graded (lib : Library) (rank : DefinitionId → ℕ) (s : Session) : Prop :=
  ∃ st : Stage rank, s.At lib st

namespace Session

/-- A session at its start. -/
theorem graded_start (library : Traced Library) : (start library).Graded library.value rank :=
  ⟨{ known := fun _ => none
     mounted := fun _ => none
     busy := []
     bound := ⊤
     running := false
     rounds := ⊤
     above := List.forall_mem_nil _
     within := nofun },
    { library := rfl
      idle := ⟨rfl, rfl, rfl⟩
      repeaters := List.forall_mem_nil _
      world :=
        { mounted_eq := fun _ => rfl
          heard := fun hl => nomatch hl
          follows := fun hc _ => nomatch hc
          cells := nofun
          told := fun he => nomatch he
          running_eq := rfl
          idle := fun _ => rfl
          waits := fun hid => nomatch hid
          busy_eq := rfl
          known := nofun
          ranked := fun hi => nomatch hi
          pooled := fun {id i} hi => by
            unfold World.pool start World.empty at hi
            by_cases h : id < library.value.length <;> simp [h] at hi } }⟩

variable {s later : Session}

/-- A session at a stage is graded. -/
theorem At.graded (h : s.At lib st) : s.Graded lib rank := ⟨st, h⟩

/-- Observables, mounts, instances and pools, the list of held instances, the repeaters and new
listeners matter. -/
theorem At.quiet (h : s.At lib st) (library : later.library = s.library)
    (instances : later.world.instances = s.world.instances)
    (pools : later.world.pools = s.world.pools) (busy : later.world.busy = s.world.busy)
    (reactive : later.world.reactive = s.world.reactive)
    (hushed : Document.Hushed s.world.document later.world.document)
    (repeaters : later.repeaters = s.repeaters) : later.At lib st :=
  ⟨library.trans h.library, h.idle, h.world.quiet instances pools busy reactive hushed,
    repeaters ▸ h.repeaters⟩

end Session

/-! ## Computations over a session -/

/-- Somebody asked for an instance that was held. -/
def Obstacle.Clash (o : Obstacle) : Prop := ∃ i, o = .abort (.alreadyHeld i)

/-- Nobody asked for an instance that was held, and the session is graded unless it was given up. -/
def Session.Cleared (lib : Library) (rank : DefinitionId → ℕ) (o : Obstacle) (s : Session) : Prop :=
  ¬ o.Clash ∧ ((∀ cause, o ≠ .abort cause) → s.Graded lib rank)

/-- The computation keeps the session graded, and asks for no instance that is held. -/
def Work.Sinks (lib : Library) (rank : DefinitionId → ℕ) (x : Work α) : Prop :=
  Preserves (fun _ : Unit => Session.Graded lib rank) (fun _ => Session.Cleared lib rank) x

namespace Work

/-- What a run stops with is an obstacle. -/
theorem cleared_of_sinking {P : World → Prop} {stop : Stop} {w : World} {s : Session}
    (h : Sinking P stop w) (graded : P w → s.Graded lib rank) :
    s.Cleared lib rank (obstacle stop) := by
  obtain ⟨clash, failing⟩ := h
  cases stop with
  | fault cause => exact ⟨fun ⟨_, h⟩ => (nomatch h), fun _ => graded (failing cause rfl)⟩
  | abort cause =>
    exact ⟨fun ⟨i, h⟩ => clash ⟨i, congrArg Stop.abort (Obstacle.abort.inj h)⟩,
      fun given => absurd rfl (given cause)⟩

/-- What a run makes of the world, which may come to have other mounts. -/
theorem onWorld_graded {x : Run α} (good : World → Prop) (claim : α → World → Prop)
    (h : ∀ st : Stage rank, st.Open → Ends (fun w => w.Graded lib st ∧ good w) x
      (fun a w => (∃ mounted, w.Graded lib (st.follow mounted)) ∧ claim a w)
      (Sinking fun w => ∃ mounted, w.Graded lib (st.follow mounted))) :
    Ends (fun s => s.Graded lib rank ∧ good s.world) (onWorld x)
      (fun a s => s.Graded lib rank ∧ claim a s.world) (Session.Cleared lib rank) := by
  rintro s ⟨⟨st, at_⟩, pre⟩
  have run := h st at_.idle s.world ⟨at_.world, pre⟩
  have back {w : World} (hw : ∃ mounted, w.Graded lib (st.follow mounted)) :
      Session.Graded lib rank { s with world := w } := by
    obtain ⟨mounted, hw⟩ := hw
    exact ⟨st.follow mounted, at_.library, ⟨at_.idle.busy, at_.idle.bound, at_.idle.running⟩, hw,
      at_.repeaters⟩
  unfold onWorld
  cases hx : x s.world with
  | ok a w =>
    rw [hx] at run
    exact ⟨back run.1, run.2⟩
  | error stop w =>
    rw [hx] at run
    exact cleared_of_sinking run back

/-- What goes by a name is in the table, and the session stays as it is. -/
theorem named_graded {table : Session → NameTable α} {name : String} {P : Session → Prop}
    (graded : ∀ s, P s → s.Graded lib rank) :
    Ends P (named table name) (fun a s => (table s).get? name = some a ∧ P s)
      (Session.Cleared lib rank) := by
  intro s hs
  cases ha : (table s).get? name with
  | none =>
    rw [named_none table ha]
    exact ⟨fun ⟨_, ho⟩ => (nomatch ho), fun _ => graded s hs⟩
  | some a =>
    rw [named_eq table ha]
    exact ⟨ha, hs⟩

namespace Sinks

/-- What sinks over the world sinks over a session. -/
theorem onWorld {x : Run α} (h : ∀ st : Stage rank, st.Open → Run.Sinks lib st x) :
    Sinks lib rank (onWorld x) := fun _ =>
  (onWorld_graded (fun _ => True) (fun _ _ => True) fun st idle =>
    (h st idle st (.refl _)).mono (fun _ hw => hw.1) (fun _ _ hw => ⟨⟨st.mounted, hw.2⟩, trivial⟩)
      fun _ _ hw => hw.mono fun hw => ⟨st.mounted, hw⟩).mono (fun _ hs => ⟨hs, trivial⟩)
    (fun _ _ hs => hs.1) fun _ _ hs => hs

/-- Work on an instance sinks if it sinks below the rank of the instance. -/
theorem hold {i : InstanceId} {x : Holding Instance α} (h : ∀ (st : Stage rank) (k : DefinitionId),
    st.bound = rank k → Holding.Sinks lib st (.ranked rank k) x) :
    Sinks lib rank (Work.onWorld (Run.hold i x)) := onWorld fun _ idle => idle.hold h

/-- A graded session permits what every step does. -/
theorem permits : Permits (fun _ : Unit => Session.Graded lib rank)
    (fun _ => Session.Cleared lib rank) where
  unknown _ hs := ⟨fun ⟨_, ho⟩ => (nomatch ho), fun _ => hs⟩
  noNode hs := ⟨fun ⟨_, ho⟩ => (nomatch ho), fun _ => hs⟩
  look i := onWorld fun _ idle => .look (idle.admits i).free
  definition other id := onWorld fun _ _ => .definition other id
  names hs library world repeaters := by
    obtain ⟨st, hs⟩ := hs
    exact (hs.quiet library (by rw [world]) (by rw [world]) (by rw [world]) (by rw [world])
      (by rw [world]; exact .refl _) repeaters).graded
  edit hs hushed := by
    obtain ⟨st, hs⟩ := hs
    exact ⟨st, hs.quiet rfl rfl rfl rfl rfl hushed rfl⟩
  probe i event tag hs := by
    obtain ⟨st, hs⟩ := hs
    exact ⟨st, hs.library, hs.idle, hs.world.listen (l := .probe tag) nofun i, hs.repeaters⟩

/-- A mount that has ended is not due, and its cell has one follower less. -/
theorem close (h : HeldMount) : Sinks lib rank h.close := by
  unfold HeldMount.close
  split
  · refine onWorld fun _ _ => .modify fun _ w _ hw => ?_
    split
    · exact (hw.setDue false _).changeCell fun _ _ id hid => .inl (List.mem_of_mem_erase hid)
    · exact hw
  · exact .pure _

end Sinks

end Work

end ComponentView
