import ComponentView.Proofs.Document.Reached
import ComponentView.Proofs.Lasting
import ComponentView.Proofs.Ownership.Build
import Mathlib.Data.ENat.Basic

/-! # Runs that only go down

Whoever asks for an instance that is held stops the run. This cannot happen in a library whose
definitions have ranks such that a definition only refers to definitions of a smaller rank, and what an
instance raises or publishes reaches no instance of a greater rank (`Library.Descends`,
`World.Beneath`). For then all instances that are held rank at least as high as the one that works
(`Stage.above`), and those that it enters by itself rank below it. Only handlers and mounts enter
instances of the same rank, and they ask first whether the instance is held.

A computation sinks (`Run.Gives`) if it keeps to this order, and never asks for an instance that is
held. What is known of the definitions of instances grows in the course of a run, and a `Claim` is what
stays true while it does. -/

namespace ComponentView

/-! ## What a template sends -/

namespace Effect

/-- The event that the effect raises. -/
def raised? : Effect → Option String
  | dispatch event => some event
  | _ => none

/-- The name under which the effect publishes. -/
def published? : Effect → Option String
  | publish name => some name
  | _ => none

end Effect

namespace Handler

/-- The event that the handler raises. -/
def raised? : Handler → Option String
  | dispatch event => some event
  | _ => none

/-- The name under which the handler publishes. -/
def published? : Handler → Option String
  | publish name _ => some name
  | _ => none

end Handler

namespace Template

/-- The effects of all watches. -/
def effects (t : Template) : List Effect :=
  t.watches.flatMap fun w => w.callbacks.flatMap (·.effects)

/-- The events that effects and handlers raise. -/
def raises (t : Template) : List String :=
  t.effects.filterMap Effect.raised? ++ t.listeners.filterMap (·.handler.raised?)

/-- The names under which effects and handlers publish. -/
def publishes (t : Template) : List String :=
  t.effects.filterMap Effect.published? ++ t.listeners.filterMap (·.handler.published?)

end Template

namespace Library

/-- The definitions of which instances publish under a name. -/
def publishers (lib : Library) (name : String) : List DefinitionId :=
  (List.range lib.length).filter fun k => lib[k]?.any fun d => d.template.publishes.contains name

/-- A definition that publishes an event is among its publishers. -/
theorem mem_publishers {lib : Library} {name : String} {k : DefinitionId} {d : Definition}
    (hd : lib[k]? = some d) (h : name ∈ d.template.publishes) : k ∈ lib.publishers name :=
  List.mem_filter.mpr ⟨List.mem_range.mpr (List.getElem?_eq_some_iff.mp hd).1, by simp [hd, h]⟩

/-- The ranks of definitions go down from each definition to those that it refers to, and do not go up
from who raises an event to who listens for it. -/
structure Descends (lib : Library) (rank : DefinitionId → ℕ) : Prop where
  refers : ∀ e ∈ lib.zipIdx, ∀ plan ∈ e.1.template.stash, ∀ k ∈ plan.refers e.1, rank k < rank e.2
  raises : ∀ e ∈ lib.zipIdx, ∀ e' ∈ lib.zipIdx, ∀ l ∈ e'.1.template.listeners,
    l.event ∈ e.1.template.raises → rank e'.2 ≤ rank e.2

/-- The handler is one of the definition, for the event. -/
def Hears (lib : Library) (k : DefinitionId) (event : String) (handler : Handler) : Prop :=
  ∃ d, lib[k]? = some d ∧ ∃ l ∈ d.template.listeners, l.event = event ∧ l.handler = handler

end Library

/-! ## What is known -/

/-- What is known of the definitions of instances. -/
abbrev Knowledge := InstanceId → Option DefinitionId

/-- What is known is not forgotten. -/
def Knowledge.Grows (known later : Knowledge) : Prop :=
  ∀ i k, known i = some k → later i = some k

/-- What is claimed as far as definitions are known, and goes on being true when more is known. -/
structure Claim (α : Type) where
  holds : Knowledge → α → Prop
  steady : ∀ {known later : Knowledge} {a}, known.Grows later → holds known a → holds later a

namespace Claim

variable {α : Type}

/-- Nothing is claimed. -/
def nothing : Claim α := ⟨fun _ _ => True, fun _ h => h⟩

/-- The same is claimed of all members of a list. -/
def all (claim : Claim α) : Claim (List α) :=
  ⟨fun known as => ∀ a ∈ as, claim.holds known a, fun grows h a ha => claim.steady grows (h a ha)⟩

/-- Something is claimed of a result, if there is one. -/
def ifOk (claim : Claim α) : Claim (Except Fault α) :=
  ⟨fun known r => ∀ a, r = .ok a → claim.holds known a, fun grows h a ha => claim.steady grows (h a ha)⟩

/-- The instance is of a definition. -/
def isA (id : DefinitionId) : Claim InstanceId :=
  ⟨fun known i => known i = some id, fun grows h => grows _ _ h⟩

/-- The rows of a repeater by position are of a definition, as it says. -/
def sequential (id : DefinitionId) : Claim Sequential :=
  ⟨fun known r => r.definition = id ∧ ∀ i ∈ r.instances, known i = some id,
    fun grows h => ⟨h.1, fun i hi => grows _ _ (h.2 i hi)⟩⟩

/-- The rows of a repeater by key are of a definition, as it says. -/
def keyed (id : DefinitionId) : Claim Keyed :=
  ⟨fun known r => r.definition = id ∧ ∀ x ∈ r.instances, known x.2 = some id,
    fun grows h => ⟨h.1, fun x hx => grows _ _ (h.2 x hx)⟩⟩

end Claim

section Rank

variable (rank : DefinitionId → ℕ)

/-- The instance has a rank below the bound. -/
def Knowledge.Below (known : Knowledge) (bound : ℕ∞) (i : InstanceId) : Prop :=
  ∃ k, known i = some k ∧ (rank k : ℕ∞) < bound

/-- What an entry holds ranks below the bound, and the rows of a repeater are of its definition. -/
def StashItem.Below (known : Knowledge) (bound : ℕ∞) : StashItem → Prop
  | .tracker _ => True
  | .child i => known.Below rank bound i
  | .sequential r => (rank r.definition : ℕ∞) < bound ∧ ∀ i ∈ r.instances, known i = some r.definition
  | .keyed r =>
    (rank r.definition : ℕ∞) < bound ∧ ∀ x ∈ r.instances, known x.2 = some r.definition

variable {rank} {known later : Knowledge} {bound : ℕ∞}

/-- What is known to lie below a bound stays so when more is known. -/
theorem Knowledge.Below.grows (grows : known.Grows later) {i : InstanceId}
    (h : known.Below rank bound i) : later.Below rank bound i := by
  obtain ⟨k, hk, hlt⟩ := h
  exact ⟨k, grows _ _ hk, hlt⟩

/-- An entry known to lie below a bound stays so when more is known. -/
theorem StashItem.Below.grows (grows : known.Grows later) {item : StashItem}
    (h : item.Below rank known bound) : item.Below rank later bound := by
  cases item with
  | tracker t => trivial
  | child i => exact Knowledge.Below.grows grows h
  | sequential r => exact ⟨h.1, fun i hi => grows _ _ (h.2 i hi)⟩
  | keyed r => exact ⟨h.1, fun x hx => grows _ _ (h.2 x hx)⟩

/-- What an entry holds ranks below the bound. -/
theorem StashItem.Below.of_mem_held {item : StashItem} (h : item.Below rank known bound)
    {i : InstanceId} (hi : i ∈ item.held) : known.Below rank bound i := by
  cases item with
  | tracker t => cases hi
  | child j => rwa [List.mem_singleton.mp hi]
  | sequential r => exact ⟨_, h.2 i hi, h.1⟩
  | keyed r =>
    obtain ⟨x, hx, rfl⟩ := List.mem_map.mp hi
    exact ⟨_, h.2 x hx, h.1⟩

variable (rank bound)

namespace Claim

/-- The instance ranks below the bound. -/
def below : Claim InstanceId := ⟨fun known i => known.Below rank bound i, fun grows h => h.grows grows⟩

/-- What the entry holds ranks below the bound, and the rows of a repeater are of its definition. -/
def entry : Claim StashItem :=
  ⟨fun known item => item.Below rank known bound, fun grows h => h.grows grows⟩

/-- The same for the stash of a pass. -/
def pass : Claim Pass :=
  ⟨fun known p => (entry rank bound).all.holds known p.stash, (entry rank bound).all.steady⟩

/-- The instance is of a definition, and what it holds ranks below it. -/
def ranked (k : DefinitionId) : Claim Instance :=
  ⟨fun known inst => inst.definition = k ∧ (entry rank (rank k)).all.holds known inst.stash,
    fun grows h => ⟨h.1, (entry rank (rank k)).all.steady grows h.2⟩⟩

end Claim

end Rank

/-! ## Where a run stands -/

/-- The instance of a mount and what it follows, which never change. -/
def Mount.link (m : Mount) : InstanceId × Observable := (m.component, m.source)

/-- Where a run stands: what is known, which mounts there are, who is held, the bound on what it enters,
and whether mounts are being run, with the bound on these. -/
structure Stage (rank : DefinitionId → ℕ) where
  known : Knowledge
  mounted : MountId → Option (InstanceId × Observable)
  busy : List InstanceId
  bound : ℕ∞
  running : Bool
  rounds : ℕ∞
  above : ∀ i ∈ busy, ∃ k, known i = some k ∧ bound ≤ rank k
  within : running = true → bound ≤ rounds

/-- The instance does not rank above a bound. -/
def Knowledge.UpTo (rank : DefinitionId → ℕ) (known : Knowledge) (bound : ℕ∞) (i : InstanceId) : Prop :=
  bound = ⊤ ∨ ∃ k, known i = some k ∧ (rank k : ℕ∞) ≤ bound

/-- What is known to rank up to a bound stays so when more is known. -/
theorem Knowledge.UpTo.grows {rank : DefinitionId → ℕ} {known later : Knowledge} {bound : ℕ∞}
    (grows : known.Grows later) {i : InstanceId} (h : known.UpTo rank bound i) :
    later.UpTo rank bound i := h.imp id fun ⟨k, hk, hle⟩ => ⟨k, grows _ _ hk, hle⟩

/-- What ranks up to a bound ranks up to higher ones. -/
theorem Knowledge.UpTo.upTo {rank : DefinitionId → ℕ} {known : Knowledge} {bound higher : ℕ∞}
    {i : InstanceId} (h : known.UpTo rank bound i) (le : bound ≤ higher) :
    known.UpTo rank higher i := by
  obtain top | ⟨k, hk, hle⟩ := h
  · exact .inl (top_le_iff.mp (top ▸ le))
  · exact .inr ⟨k, hk, hle.trans le⟩

namespace World

variable {rank : DefinitionId → ℕ}

/-- The instance does not rank above those that publish under a name. -/
def Beneath (lib : Library) (rank : DefinitionId → ℕ) (w : World) (name : String) (i : InstanceId) :
    Prop :=
  ∃ k ∈ w.definition? i, ∀ k' ∈ lib.publishers name, rank k ≤ rank k'

/-- Listeners are those of definitions, mounts follow the cells that they are mounted on, and not above
those that publish, and the mounts that wait are within the bound. -/
structure Wired (lib : Library) (st : Stage rank) (w : World) : Prop where
  mounted_eq : ∀ id, w.mounts[id]?.map Mount.link = st.mounted id
  heard : ∀ {node : NodeId} {event : String} {owner : InstanceId} {handler : Handler},
    (event, .bound owner handler) ∈ (w.document.node node).listeners →
      ∃ k, w.definition? owner = some k ∧ lib.Hears k event handler
  follows : ∀ {c : Nat} {cell : Cell} {id : MountId},
    w.cells[c]? = some cell → id ∈ cell.followers → ∃ x, st.mounted id = some x ∧ x.2.cell = c
  cells : ∀ {id : MountId} {x : InstanceId × Observable}, st.mounted id = some x →
    x.2.cell < w.cells.size
  told : ∀ {e : String × Observable} {id : MountId} {x : InstanceId × Observable},
    e ∈ w.published → st.mounted id = some x → x.2.cell = e.2.cell → w.Beneath lib rank e.1 x.1
  running_eq : w.running = st.running
  idle : st.running = false → w.waiting = []
  waits : ∀ {id : MountId} {x : InstanceId × Observable}, id ∈ w.waiting → st.mounted id = some x →
    Knowledge.UpTo rank w.definition? st.rounds x.1

/-- The world is as the stage says, and what instances hold ranks below them. -/
structure Graded (lib : Library) (st : Stage rank) (w : World) : Prop extends Wired lib st w where
  busy_eq : w.busy = st.busy
  known : Knowledge.Grows st.known w.definition?
  ranked : ∀ {i : InstanceId} {inst : Instance}, w.instances[i]? = some inst → i ∉ st.busy →
    (Claim.entry rank (rank inst.definition)).all.holds w.definition? inst.stash
  pooled : ∀ {id : DefinitionId} {i : InstanceId}, i ∈ w.pool id → w.definition? i = some id

variable {lib : Library} {w later : World}

/-- An instance stays beneath an event when more is known. -/
theorem Beneath.grows (grows : Knowledge.Grows w.definition? later.definition?) {name : String}
    {i : InstanceId} (h : w.Beneath lib rank name i) : later.Beneath lib rank name i := by
  obtain ⟨k, hk, hle⟩ := h
  exact ⟨k, grows _ _ hk, hle⟩

end World

end ComponentView
