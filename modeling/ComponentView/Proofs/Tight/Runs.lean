import ComponentView.Proofs.Containers.Blueprint
import ComponentView.Proofs.Tight.Template

/-! # Runs over tight instances

An instance follows its template if it has a node for each slot, an entry of the stash for each plan
and a place in the cache for each callback (`Instance.Follows`). A computation is safe if it leaves
the instances that nobody holds so, and does not stop because something that its template promises is
not there (`Safe`). Its rules follow the ways in which computations are put together, over the world
(`Run.Safe`) and over something that is held (`Holding.Safe`). -/

namespace ComponentView

/-! ## Instances that follow their templates -/

/-- The entry of a stash is what the plan says, and even. -/
structure StashItem.Suits (item : StashItem) (plan : StashPlan) : Prop where
  kind : item.kind = plan.kind
  anchors : item.anchors = plan.anchors
  even : item.Even

/-- A cache has the shape of the callbacks, and a stash suits its plans. -/
structure Template.Backs (t : Template) (cache : Cache) (stash : List StashItem) : Prop where
  cache : cache.map List.length = t.watches.map (·.callbacks.length)
  stash : List.Forall₂ StashItem.Suits stash t.stash

/-- The instance has what the template of its definition asks for. -/
def Instance.Follows (lib : Library) (inst : Instance) : Prop :=
  ∃ d, lib[inst.definition]? = some d ∧ inst.elements.length = d.template.slots.length ∧
    d.template.Backs inst.cache inst.stash

/-- All templates are tight. -/
def Library.Tight (lib : Library) : Prop :=
  ∀ {id : DefinitionId} {d : Definition}, lib[id]? = some d → d.template.Tight

/-- Every definition has its pool, and the instances that nobody holds follow their templates. -/
structure World.Tight (lib : Library) (busy : List InstanceId) (w : World) : Prop where
  busy_eq : w.busy = busy
  pools : w.pools.size = lib.length
  follows : ∀ {i inst}, w.instances[i]? = some inst → i ∉ busy → inst.Follows lib

/-- A plan finds its entry of the stash. -/
theorem Template.Backs.stash_at {t : Template} {cache : Cache} {stash : List StashItem}
    (h : t.Backs cache stash) {key : StashIndex} {kind : StashKind} (hk : t.Stashes key kind) :
    ∃ plan item, t.stash[key]? = some plan ∧ stash[key]? = some item ∧ item.Suits plan ∧
      plan.kind = kind := by
  rw [Stashes, List.getElem?_map, Option.map_eq_some_iff] at hk
  obtain ⟨plan, hp, rfl⟩ := hk
  obtain ⟨hlt, rfl⟩ := List.getElem?_eq_some_iff.mp hp
  have hlt' : key < stash.length := h.stash.length_eq ▸ hlt
  exact ⟨_, _, hp, List.getElem?_eq_getElem hlt', h.stash.get hlt' hlt, rfl⟩

/-- The second entry suits what the first one suits. -/
structure StashItem.Succeeds (item item' : StashItem) : Prop where
  kind : item'.kind = item.kind
  anchors : item'.anchors = item.anchors
  even : item.Even → item'.Even

/-- Entries that others succeed go on suiting their plans. -/
theorem StashItem.Suits.replaced {stash stash' : List StashItem} {plans : List StashPlan}
    (h : List.Forall₂ Suits stash plans) (same : List.Forall₂ Succeeds stash stash') :
    List.Forall₂ Suits stash' plans := by
  induction h generalizing stash' with
  | nil => cases same; exact .nil
  | cons suits _ ih =>
    obtain _ | ⟨like, rest⟩ := same
    exact .cons ⟨like.kind.trans suits.kind, like.anchors.trans suits.anchors, like.even suits.even⟩
      (ih rest)

/-- One entry is replaced. -/
theorem StashItem.Suits.set {stash : List StashItem} {plans : List StashPlan}
    (h : List.Forall₂ Suits stash plans) {key : StashIndex} {item : StashItem} {plan : StashPlan}
    (hp : plans[key]? = some plan) (suits : item.Suits plan) :
    List.Forall₂ Suits (stash.set key item) plans := by
  rw [List.forall₂_iff_get] at h ⊢
  refine ⟨by rw [List.length_set]; exact h.1, fun n hn hn' => ?_⟩
  simp only [List.get_eq_getElem, List.getElem_set]
  split
  · next he =>
    subst he
    rw [List.getElem?_eq_getElem hn'] at hp
    exact Option.some.inj hp ▸ suits
  · exact h.2 n (by simpa using hn) hn'

/-! ## Safe computations -/

/-- Something that a template promises was not there: an entry of the stash of the kind that was
asked for, or a slot. -/
def Stop.Misfit : Stop → Prop
  | .fault (.stashMismatch ..) | .abort (.noSlot _) => True
  | _ => False

/-- Where a safe computation stops: not over a misfit, and what holds before holds after a failure. -/
def Safely {σ : Type} (P : σ → Prop) (stop : Stop) (s : σ) : Prop := ¬ stop.Misfit ∧ Failing P stop s

/-- Less may be said of where a safe computation stops. -/
theorem Safely.mono {σ τ : Type} {P : σ → Prop} {Q : τ → Prop} {stop : Stop} {s : σ} {t : τ}
    (h : Safely P stop s) (hpq : P s → Q t) : Safely Q stop t := ⟨h.1, h.2.mono hpq⟩

/-! ## Over the world -/

/-- The run was given up, and not over a misfit. -/
def Stop.Waived (stop : Stop) : Prop := stop.GivenUp ∧ ¬ stop.Misfit

/-- A run that was waived stopped safely. -/
theorem Safely.of_waived {σ : Type} {P : σ → Prop} {stop : Stop} {s : σ} (h : stop.Waived) :
    Safely P stop s := ⟨h.2, .of_givenUp h.1⟩

/-- The computation leaves the world tight, whoever is held. -/
def Run.Safe {α : Type} (lib : Library) (x : Run α) : Prop :=
  Preserves (World.Tight lib) (fun busy => Safely (World.Tight lib busy)) x

/-- The computation is safe and cannot fail. -/
def Run.Sure {α : Type} (lib : Library) (x : Run α) : Prop :=
  Preserves (World.Tight lib) (fun _ stop _ => stop.Waived) x

/-- What is held is good before and after, and the world is tight. -/
def Focus.Tight {α : Type} (good : α → Prop) (lib : Library) (busy : List InstanceId)
    (f : Focus α) : Prop := good f.held ∧ f.world.Tight lib busy

/-- The computation leaves what is held good and the world tight, whoever else is held. -/
def Holding.Safe {α β : Type} (lib : Library) (good : α → Prop) (x : Holding α β) : Prop :=
  Preserves (Focus.Tight good lib) (fun busy => Safely (Focus.Tight good lib busy)) x

namespace World.Tight

variable {lib : Library} {busy : List InstanceId} {w later : World}

/-- Only the instances, the number of pools and the list of held instances matter. -/
theorem congr (h : w.Tight lib busy) (instances : later.instances = w.instances)
    (pools : later.pools.size = w.pools.size) (held : later.busy = w.busy) :
    later.Tight lib busy where
  busy_eq := held.trans h.busy_eq
  pools := pools.trans h.pools
  follows hi := h.follows (instances ▸ hi)

/-- The list of spare instances of a definition changes. -/
theorem setPool (h : w.Tight lib busy) (id : DefinitionId) (spare : List InstanceId) :
    (w.setPool id spare).Tight lib busy := h.congr rfl Array.size_modify rfl

/-- A new instance joins. -/
theorem push (h : w.Tight lib busy) {inst : Instance} (follows : inst.Follows lib) :
    World.Tight lib busy { w with instances := w.instances.push inst } where
  busy_eq := h.busy_eq
  pools := h.pools
  follows {i inst'} hi hb := by
    have hi : (w.instances.push inst)[i]? = some inst' := hi
    rw [Array.getElem?_push] at hi
    split at hi
    · exact Option.some.inj hi ▸ follows
    · exact h.follows hi hb

/-- An instance is held. -/
theorem take (h : w.Tight lib busy) (i : InstanceId) :
    World.Tight lib (i :: busy) { w with busy := i :: busy } where
  busy_eq := rfl
  pools := h.pools
  follows hi hb := h.follows hi fun hm => hb (List.mem_cons_of_mem _ hm)

/-- A held instance comes back. -/
theorem back {i : InstanceId} {f : Focus Instance} (h : f.world.Tight lib (i :: busy))
    (follows : f.held.Follows lib) : (Run.hold.back i busy f).Tight lib busy where
  busy_eq := rfl
  pools := h.pools
  follows {j inst} hj hb := by
    rcases eq_or_get_of_put hj with ⟨rfl, rfl⟩ | ⟨hne, hj⟩
    · exact follows
    · exact h.follows hj (List.not_mem_cons_of_ne_of_not_mem hne hb)

end World.Tight

namespace Run.Safe

variable {α β γ : Type} {lib : Library}

/-- Only the instances, the number of pools and the list of held instances matter. -/
theorem modifyGet {f : World → α × World} (h : ∀ w, (f w).2.instances = w.instances ∧
    (f w).2.pools.size = w.pools.size ∧ (f w).2.busy = w.busy) : Safe lib (modifyGet f) :=
  fun _ => .modifyGet fun w hw => hw.congr (h w).1 (h w).2.1 (h w).2.2

/-- Only the instances, the number of pools and the list of held instances matter. -/
theorem modify {f : World → World} (h : ∀ w, (f w).instances = w.instances ∧
    (f w).pools.size = w.pools.size ∧ (f w).busy = w.busy) : Safe lib (modify f) :=
  fun _ => .modify fun w hw => hw.congr (h w).1 (h w).2.1 (h w).2.2

/-- Changing the document is safe. -/
theorem onDocument (f : Document Listener → Document Listener) : Safe lib (onDocument f) :=
  modify fun _ => ⟨rfl, rfl, rfl⟩

/-- Writing into the log is safe. -/
theorem log (level : Level) (line : String) : Safe lib (log level line) :=
  modify fun _ => ⟨rfl, rfl, rfl⟩

/-- Recording a value is safe. -/
theorem record (value : Value) : Safe lib (record value) := modify fun _ => ⟨rfl, rfl, rfl⟩

/-- Noting a newcomer is safe. -/
theorem welcome (i : InstanceId) : Safe lib (welcome i) := modify fun _ => ⟨rfl, rfl, rfl⟩

/-- A computation that speaks is safe. -/
theorem traced (r : Traced α) : Safe lib (traced r) :=
  Preserves.bind (modify fun _ => ⟨rfl, rfl, rfl⟩) fun _ => .pure _

/-- A failure over no misfit is safe. -/
theorem fail {cause : Fault} (h : ¬ Stop.Misfit (.fault cause)) : Safe lib (fail cause : Run α) :=
  Preserves.throw fun _ _ hw => ⟨h, fun _ _ => hw⟩

/-- Giving up over no misfit is safe. -/
theorem giveUp {cause : Abort} (h : ¬ Stop.Misfit (.abort cause)) :
    Safe lib (giveUp cause : Run α) := Preserves.throw fun _ _ hw => ⟨h, fun _ _ => hw⟩

/-- Looking at an instance is safe. -/
theorem look (i : InstanceId) : Safe lib (look i) := fun _ =>
  (Ends.look (fun _ _ => ⟨id, .of_abort⟩) fun _ _ => ⟨id, .of_abort⟩).post fun _ _ h => h.2.2

/-- Asking for the root of an instance is safe. -/
theorem rootOf (i : InstanceId) : Safe lib (rootOf i) := (look i).bind fun _ => .pure _

/-- Asking for a definition is safe. -/
theorem definition (other : Library) (id : DefinitionId) : Safe lib (other.definition id) :=
  fun _ => (Ends.definition fun _ _ => ⟨fun h => h, .of_abort⟩).post fun _ _ h => h.2

/-- Taking a spare instance is safe. -/
theorem popPool (id : DefinitionId) : Safe lib (popPool id) := by
  refine fun _ => .modifyGet fun w hw => ?_
  split
  · exact hw.setPool id _
  · exact hw

/-- An attempt goes on after a failure, which is none over a misfit. -/
theorem attempt {x : Run α} (h : Safe lib x) (busy : List InstanceId) :
    Ends (World.Tight lib busy) (attempt x)
      (fun r w => (∀ fault, r = .error fault → ¬ Stop.Misfit (.fault fault)) ∧ w.Tight lib busy)
      (Safely (World.Tight lib busy)) :=
  (Ends.attempt (h busy)).post fun r w hw => by
    cases r with
    | ok a => exact ⟨nofun, hw.1 a rfl⟩
    | error fault =>
      have failed := hw.2 fault rfl
      exact ⟨fun _ he => Except.error.inj he ▸ failed.1, failed.2 fault rfl⟩

/-- Going on after an attempt is safe if it is so after a result and after a failure. -/
theorem attempt_bind {x : Run α} {f : Except Fault α → Run β} (h : Safe lib x)
    (ok : ∀ a, Safe lib (f (.ok a)))
    (error : ∀ fault, ¬ Stop.Misfit (.fault fault) → Safe lib (f (.error fault))) :
    Safe lib (Run.attempt x >>= f) := fun busy =>
  (h.attempt busy).bind fun r => .assume fun hr => by
    cases r with
    | ok a => exact ok a busy
    | error fault => exact error fault (hr fault rfl) busy

/-- A held instance that goes on following its template may be worked on. -/
theorem hold {i : InstanceId} {x : Holding Instance α}
    (h : Holding.Safe lib (Instance.Follows lib) x) : Safe lib (hold i x) := fun busy => by
  refine Ends.hold (fun _ _ => ⟨fun h => h, .of_abort⟩) (fun _ _ => ⟨fun h => h, .of_abort⟩)
    fun w inst hw hi hb => ?_
  obtain rfl := hw.busy_eq
  -- It comes back whether the work on it ends or stops, and follows its template either way.
  refine (h (i :: w.busy)).mono ?_ (fun _ _ hf => hf.2.back hf.1) fun _ _ hf => hf.mono fun hf =>
    hf.2.back hf.1
  rintro _ rfl
  exact ⟨hw.follows hi hb, hw.take i⟩

/-- Showing the stash of a held instance changes no instance that is not held. -/
theorem showStash (stash : List StashItem) : Safe lib (showStash stash) := by
  refine fun busy => .modify fun w hw => ?_
  split
  · next i rest hb =>
    -- The instance whose stash is shown is held, and of that one the world promises nothing.
    refine ⟨hw.busy_eq, hw.pools, fun {j inst} hj hn => ?_⟩
    have hj : (w.instances.modify i fun inst => { inst with stash })[j]? = some inst := hj
    have hne : i ≠ j := fun he => hn (by rw [← hw.busy_eq, hb, he]; exact List.mem_cons_self ..)
    rw [Array.getElem?_modify, if_neg hne] at hj
    exact hw.follows hj hn
  · exact hw

end Run.Safe

namespace Run.Sure

variable {α β γ : Type} {lib : Library}

/-- What cannot fail is safe. -/
theorem safe {x : Run α} (h : Sure lib x) : Safe lib x := fun busy =>
  (h busy).mono (fun _ h => h) (fun _ _ h => h) fun _ _ => Safely.of_waived

/-- Changing the document cannot fail. -/
theorem onDocument (f : Document Listener → Document Listener) : Sure lib (onDocument f) :=
  fun _ => .modify fun _ hw => hw.congr rfl rfl rfl

/-- Asking for the root of an instance cannot fail. -/
theorem rootOf (i : InstanceId) : Sure lib (rootOf i) := fun _ =>
  (Ends.rootOf (fun _ _ => ⟨⟨_, rfl⟩, id⟩) fun _ _ => ⟨⟨_, rfl⟩, id⟩).post fun _ _ h => h.2.2

/-- Putting an instance into a pool cannot fail. -/
theorem pushPool (id : DefinitionId) (i : InstanceId) : Sure lib (pushPool id i) :=
  fun _ => .modify fun _ hw => hw.setPool id _

end Run.Sure

/-! ## Over what is held -/

namespace Holding.Safe

variable {α β γ δ : Type} {lib : Library} {good : α → Prop}

/-- Looking at what is held is safe. -/
theorem held : Safe lib good (held : Holding α α) := fun _ _ h => h

/-- A run that looks at what is held may rely on its being good. -/
theorem held_bind {f : α → Holding α β} (h : ∀ a, good a → Safe lib good (f a)) :
    Safe lib good (Holding.held >>= f) := fun busy =>
  Ends.held.bind fun a => fun g hg => h a (hg.1 ▸ hg.2.1) busy g hg.2

/-- A change that keeps what is held good is safe. -/
theorem change {g : α → α} (h : ∀ a, good a → good (g a)) : Safe lib good (change g) := fun _ =>
  Ends.change fun a _ hf => ⟨h a hf.1, hf.2⟩

/-- What is safe over the world is safe over what is held. -/
theorem outside {x : Run β} (h : Run.Safe lib x) : Safe lib good (outside x) := fun busy =>
  Ends.outside fun _ w hw => by
    have := h busy w hw.2
    cases hx : x w with
    | ok b later =>
      rw [hx] at this
      exact ⟨hw.1, this⟩
    | error stop later =>
      rw [hx] at this
      exact this.mono fun tight => ⟨hw.1, tight⟩

/-- A part of what is held is worked on. -/
theorem within {good' : γ → Prop} {part : α → γ} {put : γ → α → α} {x : Holding γ β}
    (hpart : ∀ a, good a → good' (part a)) (hput : ∀ c a, good' c → good a → good (put c a))
    (h : Safe lib good' x) : Safe lib good (within part put x) := by
  intro busy f hf
  have := h busy ⟨part f.held, f.world⟩ ⟨hpart _ hf.1, hf.2⟩
  unfold Holding.within
  cases hx : x ⟨part f.held, f.world⟩ with
  | ok b g =>
    rw [hx] at this
    exact ⟨hput _ _ this.1 hf.1, this.2⟩
  | error stop g =>
    rw [hx] at this
    exact this.mono fun hg => ⟨hput _ _ hg.1 hf.1, hg.2⟩

/-- Welcoming newcomers is safe if the patch is. -/
theorem welcoming {x : Holding α β} (h : Safe lib good x) : Safe lib good (welcoming x) := fun busy =>
  .welcoming ((h busy).mono (fun _ h => h) (fun _ _ h _ => ⟨h.1, h.2.congr rfl rfl rfl⟩)
    fun _ _ h _ => h.mono fun h => ⟨h.1, h.2.congr rfl rfl rfl⟩)

end Holding.Safe

end ComponentView
