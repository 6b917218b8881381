import ComponentView.Proofs.Libraries
import ComponentView.Proofs.Visits
import Mathlib.Order.Defs.Unbundled

/-! # What lasts

An instance gets its definition, its root, the nodes of its slots and its nested children when it is
made, and keeps them whatever is done to it and to others. Components whose effects raise no events and
publish nothing (`Template.Silent`) leave the observables and the mounts alone as well. `World.Lasts`
says both of two worlds of which the second comes of the first; what an engine renders and acquires
leads from a world to one in which it lasts, at every depth, also where the run stops
(`Engine.nested_lasts`). -/

namespace ComponentView

/-! ## What an instance is made with -/

/-- The nested children, at their places in the stash. -/
def StashItem.seats (stash : List StashItem) : List (Option InstanceId) := stash.map child?

/-- What an instance gets when it is made and keeps. -/
structure Instance.Make where
  definition : DefinitionId
  root : NodeId
  elements : List NodeId
  children : List (Option InstanceId)

/-- What the instance was made with. -/
def Instance.make (i : Instance) : Make := ⟨i.definition, i.root, i.elements, StashItem.seats i.stash⟩

namespace World

/-- The observables, the mounts, and which of these are to run. -/
def reactive (w : World) : Array Cell × Array Mount × List MountId × Bool × NameTable Observable :=
  (w.cells, w.mounts, w.waiting, w.running, w.published)

/-- Who is in use, spare and held instances aside: those that are kept from outside, and newcomers. -/
def guests (w : World) : List InstanceId × List InstanceId := (w.kept, w.newcomers)

/-- Every instance that nobody holds is what it was made as; observables and mounts are the same, and
so is who is held and who is in use besides. Of those that are held only the last is worked on. -/
structure Lasts (w later : World) : Prop where
  size : w.instances.size ≤ later.instances.size
  made : ∀ {i inst}, w.instances[i]? = some inst → i ∉ w.busy →
    ∃ inst', later.instances[i]? = some inst' ∧ inst'.make = inst.make
  aside : ∀ {i inst}, w.instances[i]? = some inst → i ∈ w.busy → w.busy.head? ≠ some i →
    later.instances[i]? = some inst
  reactive : later.reactive = w.reactive
  busy : later.busy = w.busy
  guests : later.guests = w.guests

/-- The world lasts, and all instances that are held are as they were. -/
structure Abides (w later : World) : Prop extends Lasts w later where
  held : ∀ {i inst}, w.instances[i]? = some inst → i ∈ w.busy → later.instances[i]? = some inst

variable {w later : World}

/-- A world that lasts and lasts again has lasted. -/
theorem Lasts.trans {latest : World} (h : w.Lasts later) (h' : later.Lasts latest) :
    w.Lasts latest where
  size := Nat.le_trans h.size h'.size
  made hi hb := by
    obtain ⟨inst', hi', same⟩ := h.made hi hb
    obtain ⟨inst'', hi'', same'⟩ := h'.made hi' (h.busy ▸ hb)
    exact ⟨inst'', hi'', same'.trans same⟩
  aside hi hb last := h'.aside (h.aside hi hb last) (h.busy ▸ hb) (h.busy ▸ last)
  reactive := h'.reactive.trans h.reactive
  busy := h'.busy.trans h.busy
  guests := h'.guests.trans h.guests

/-- Only the instances, the observables, the mounts, who is held and who is in use matter. -/
theorem Lasts.of_eq (instances : later.instances = w.instances)
    (reactive : later.reactive = w.reactive) (busy : later.busy = w.busy)
    (guests : later.guests = w.guests) : w.Lasts later where
  size := Nat.le_of_eq (congrArg Array.size instances.symm)
  made hi _ := ⟨_, instances ▸ hi, rfl⟩
  aside hi _ _ := instances ▸ hi
  reactive := reactive
  busy := busy
  guests := guests

instance : IsPreorder World Lasts where
  refl _ := .of_eq rfl rfl rfl rfl
  trans _ _ _ := Lasts.trans

/-- Who is kept from outside does not matter if it is the same. -/
theorem Lasts.keep (h : w.Lasts later) (kept : List InstanceId) :
    World.Lasts { w with kept } { later with kept } :=
  { h with guests := congrArg (Prod.mk kept) (congrArg Prod.snd h.guests) }

/-- A new instance takes nobody's place. -/
theorem Lasts.push (inst : Instance) : w.Lasts { w with instances := w.instances.push inst } where
  size := by simp
  made hi _ := ⟨_, getElem?_push_of_get hi inst, rfl⟩
  aside hi _ _ := getElem?_push_of_get hi inst
  reactive := rfl
  busy := rfl
  guests := rfl

/-- What is shown of the instance that was held last is not what it is. -/
theorem Lasts.modify {i : InstanceId} (hi : w.busy.head? = some i) (g : Instance → Instance) :
    w.Lasts { w with instances := w.instances.modify i g } where
  size := by simp
  made {j inst} hj hb := by
    refine ⟨inst, ?_, rfl⟩
    rw [Array.getElem?_modify, if_neg (by rintro rfl; exact hb (List.mem_of_mem_head? hi))]
    exact hj
  aside {j inst} hj _ last := by
    rw [Array.getElem?_modify, if_neg (by rintro rfl; exact last hi)]
    exact hj
  reactive := rfl
  busy := rfl
  guests := rfl

end World

/-! ## Computations -/

section Lasting

variable {ε σ α β γ : Type} {R : σ → σ → Prop}

/-- Wherever the computation ends or stops, what it leaves is related to where it began. -/
def Lasting (R : σ → σ → Prop) (x : EStateM ε σ α) : Prop :=
  ∀ s, Ends (s = ·) x (fun _ => R s) fun _ => R s

namespace Lasting

variable {x : EStateM ε σ α}

/-- A change with a result lasts if the states are related. -/
theorem modifyGet {f : σ → α × σ} (h : ∀ s, R s (f s).2) :
    Lasting R (modifyGet f : EStateM ε σ α) := fun s => .modifyGet (by rintro _ rfl; exact h s)

/-- A change lasts if the states are related. -/
theorem modify {f : σ → σ} (h : ∀ s, R s (f s)) : Lasting R (modify f : EStateM ε σ _) :=
  fun s => .modify (by rintro _ rfl; exact h s)

variable [IsPreorder σ R]

/-- What is related to a state before the computation is related to what the computation leaves. -/
theorem since (h : Lasting R x) (s : σ) : Ends (R s) x (fun _ => R s) fun _ => R s :=
  .pointwise fun t ht => (h t).mono (fun _ h => h) (fun _ _ h => IsTrans.trans s t _ ht h)
    fun _ _ h => IsTrans.trans s t _ ht h

/-- A result leaves everything as it is. -/
theorem pure (a : α) : Lasting R (pure a : EStateM ε σ α) := fun s => .pure (by rintro _ rfl; exact refl s)

/-- Looking at the state leaves it as it is. -/
theorem get : Lasting R (get : EStateM ε σ σ) := by
  rintro s _ rfl
  exact refl s

/-- A computation that stops at once leaves everything as it is. -/
theorem throw (stop : ε) : Lasting R (throw stop : EStateM ε σ α) :=
  fun s => .throw (by rintro _ rfl; exact refl s)

/-- What both parts of a computation leave related the whole does. -/
theorem bind {f : α → EStateM ε σ β} (hx : Lasting R x) (hf : ∀ a, Lasting R (f a)) :
    Lasting R (x >>= f) := fun s => (hx s).bind fun a => (hf a).since s

/-- What every step of a loop leaves related the loop does. -/
theorem forM {f : γ → EStateM ε σ PUnit} {cs : List γ} (h : ∀ c ∈ cs, Lasting R (f c)) :
    Lasting R (cs.forM f) := fun s =>
  (Ends.forM fun c hc => (h c hc).since s).pre (by rintro _ rfl; exact refl s)

/-- What a computation leaves related an attempt at it does. -/
theorem attempt {R : World → World → Prop} {x : Run α} (h : Lasting R x) :
    Lasting R (Run.attempt x) := fun w =>
  (h w).attempt.post fun r v hv => by
    cases r with
    | ok a => exact hv.1 a rfl
    | error fault => exact hv.2 fault rfl

end Lasting

end Lasting

/-! ## Over the world -/

/-- The world lasts. -/
def Run.Lasts {α : Type} (x : Run α) : Prop := Lasting World.Lasts x

namespace Run.Lasts

variable {α β γ : Type}

/-- Only the instances, the observables, the mounts, who is held and who is in use matter. -/
theorem modifyGet {f : World → α × World} (h : ∀ w, (f w).2.instances = w.instances ∧
    (f w).2.reactive = w.reactive ∧ (f w).2.busy = w.busy ∧ (f w).2.guests = w.guests) :
    Lasts (modifyGet f) :=
  Lasting.modifyGet fun w => .of_eq (h w).1 (h w).2.1 (h w).2.2.1 (h w).2.2.2

/-- Only the instances, the observables, the mounts, who is held and who is in use matter. -/
theorem modify {f : World → World} (h : ∀ w, (f w).instances = w.instances ∧
    (f w).reactive = w.reactive ∧ (f w).busy = w.busy ∧ (f w).guests = w.guests) :
    Lasts (modify f) :=
  Lasting.modify fun w => .of_eq (h w).1 (h w).2.1 (h w).2.2.1 (h w).2.2.2

/-- A world lasts when its document changes. -/
theorem onDocument (f : Document Listener → Document Listener) : Lasts (onDocument f) :=
  modify fun _ => ⟨rfl, rfl, rfl, rfl⟩

/-- A world lasts when something is said. -/
theorem say (entries : List Entry) : Lasts (say entries) := modify fun _ => ⟨rfl, rfl, rfl, rfl⟩

/-- A world lasts while a computation speaks. -/
theorem traced (r : Traced α) : Lasts (traced r) := (say _).bind fun _ => .pure _

/-- A world lasts through a failure. -/
theorem fail (cause : Fault) : Lasts (fail cause : Run α) := Lasting.throw _

/-- A world lasts when a run is given up. -/
theorem giveUp (cause : Abort) : Lasts (giveUp cause : Run α) := Lasting.throw _

/-- A world lasts while an instance is looked at. -/
theorem look (i : InstanceId) : Lasts (look i) := fun w =>
  (Ends.look (by rintro _ rfl; exact refl w) (by rintro _ rfl; exact refl w)).post
    (by rintro _ _ ⟨-, -, rfl⟩; exact refl w)

/-- A world lasts while the root of an instance is asked for. -/
theorem rootOf (i : InstanceId) : Lasts (rootOf i) := (look i).bind fun _ => .pure _

/-- A world lasts while a definition is asked for. -/
theorem definition (library : Library) (id : DefinitionId) : Lasts (library.definition id) := by
  unfold Library.definition
  split
  · exact .pure _
  · exact giveUp _

/-- A world lasts when a spare instance is taken. -/
theorem popPool (id : DefinitionId) : Lasts (popPool id) :=
  modifyGet fun w => by split <;> exact ⟨rfl, rfl, rfl, rfl⟩

/-- A world lasts when an instance becomes a spare one. -/
theorem pushPool (id : DefinitionId) (i : InstanceId) : Lasts (pushPool id i) :=
  modify fun _ => ⟨rfl, rfl, rfl, rfl⟩

/-- A world lasts when it is shown the stash of a held instance. -/
theorem showStash (stash : List StashItem) : Lasts (showStash stash) :=
  Lasting.modify fun w => by
    split
    · next i _ hb => exact .modify (by rw [hb]; rfl) _
    · exact refl w

/-- A world lasts through an attempt. -/
theorem attempt {x : Run α} (h : Lasts x) : Lasts (Run.attempt x) := Lasting.attempt h

end Run.Lasts

/-! ## Over what is held -/

/-- The world lasts, and so does a part of what is held. -/
structure Focus.Lasts {α κ : Type} (keep : α → κ) (f g : Focus α) : Prop where
  held : keep g.held = keep f.held
  world : f.world.Lasts g.world

instance {α κ : Type} (keep : α → κ) : IsPreorder (Focus α) (Focus.Lasts keep) where
  refl f := ⟨rfl, refl f.world⟩
  trans _ _ _ h h' := ⟨h'.held.trans h.held, h.world.trans h'.world⟩

/-- The world lasts, and so does a part of what is held. -/
def Holding.Lasts {α β κ : Type} (keep : α → κ) (x : Holding α β) : Prop :=
  Lasting (Focus.Lasts keep) x

namespace Holding.Lasts

variable {α β γ κ : Type} {keep : α → κ}

/-- What is held stays as it is while the world lasts. -/
theorem outside {x : Run β} (h : Run.Lasts x) : Holding.Lasts keep (outside x) := by
  rintro ⟨a, w⟩
  refine Ends.outside fun b => .pointwise ?_
  rintro v hv
  obtain ⟨rfl, rfl⟩ := Focus.mk.inj hv
  exact (h _).mono (fun _ h => h) (fun _ _ h => ⟨rfl, h⟩) fun _ _ h => ⟨rfl, h⟩

/-- Looking at what is held leaves everything as it is. -/
theorem held : Holding.Lasts keep (held : Holding α α) := Lasting.get.bind fun _ => .pure _

/-- A change to what is held may keep a part of it. -/
theorem change {g : α → α} (h : ∀ a, keep (g a) = keep a) : Holding.Lasts keep (change g) :=
  Lasting.modify fun _ => ⟨h _, refl _⟩

/-- If something lasts, so does a part of it. -/
theorem part {κ' : Type} {x : Holding α β} (h : Holding.Lasts keep x) (g : κ → κ') :
    Holding.Lasts (fun a => g (keep a)) x := fun f =>
  (h f).mono (fun _ h => h) (fun _ _ h => ⟨congrArg g h.held, h.world⟩)
    fun _ _ h => ⟨congrArg g h.held, h.world⟩

/-- A computation goes on with the definition of a number. -/
theorem definition_bind {library : Library} {id : DefinitionId} {f : Definition → Holding α β}
    (h : ∀ d, library[id]? = some d → Holding.Lasts keep (f d)) :
    Holding.Lasts keep (Holding.outside (library.definition id) >>= f) := by
  unfold Library.definition
  split
  · next d hd => exact h d hd
  · rintro f _ rfl
    exact refl f

/-- Work on a part of what is held. -/
theorem within_at {κ' : Type} {keep' : γ → κ'} {part : α → γ} {put : γ → α → α} {x : Holding γ β}
    {f : Focus α} (hput : ∀ c, keep' c = keep' (part f.held) → keep (put c f.held) = keep f.held)
    (h : Holding.Lasts keep' x) :
    Ends (f = ·) (within part put x) (fun _ => Focus.Lasts keep f) fun _ => Focus.Lasts keep f := by
  rintro _ rfl
  have := h ⟨part f.held, f.world⟩ _ rfl
  unfold Holding.within
  cases hx : x ⟨part f.held, f.world⟩ with
  | ok b g =>
    rw [hx] at this
    exact ⟨hput _ this.held, this.world⟩
  | error stop g =>
    rw [hx] at this
    exact ⟨hput _ this.held, this.world⟩

/-- What leaves the held value as it is goes on with that value. -/
theorem bind_at {x : Holding α β} {k : β → Holding α γ} {Q : β → Prop} {f : Focus α}
    (hx : Ends (f = ·) x (fun b g => Q b ∧ Focus.Lasts id f g) fun _ => Focus.Lasts id f)
    (hk : ∀ b, Q b → ∀ w, Ends (⟨f.held, w⟩ = ·) (k b) (fun _ => Focus.Lasts keep ⟨f.held, w⟩)
      fun _ => Focus.Lasts keep ⟨f.held, w⟩) :
    Ends (f = ·) (x >>= k) (fun _ => Focus.Lasts keep f) fun _ => Focus.Lasts keep f := by
  refine Ends.bind (hx.mono (fun _ h => h) (fun _ _ h => h) fun _ _ h => ?_) fun b =>
    .assume fun hb => .pointwise ?_
  · exact ⟨congrArg keep h.held, h.world⟩
  · rintro ⟨a, w⟩ ⟨rfl, hw⟩
    exact (hk b hb w).mono (fun _ h => h) (fun _ _ h => ⟨h.held, hw.trans h.world⟩)
      fun _ _ h => ⟨h.held, hw.trans h.world⟩

/-- What goes on outside leaves the held value as it is. -/
theorem outside_at {x : Run β} {Q : β → Prop} {f : Focus α}
    (h : Ends (f.world = ·) x (fun b v => Q b ∧ f.world.Lasts v) fun _ => f.world.Lasts) :
    Ends (f = ·) (Holding.outside x) (fun b g => Q b ∧ Focus.Lasts id f g)
      fun _ => Focus.Lasts id f := by
  refine .outside fun a => .pointwise ?_
  rintro w rfl
  exact h.mono (by rintro _ rfl; rfl) (fun _ _ h => ⟨h.1, rfl, h.2⟩) fun _ _ h => ⟨rfl, h⟩

end Holding.Lasts

/-! ## While newcomers are welcomed -/

/-- All lasts but who the newcomers are. -/
def Focus.Hosts {α : Type} (f g : Focus α) : Prop :=
  f.world.Lasts { g.world with newcomers := f.world.newcomers }

instance {α : Type} : IsPreorder (Focus α) Focus.Hosts where
  refl f := refl f.world
  trans _ _ _ hosts hosts' := hosts.trans
    { hosts' with guests := congrArg (fun kept => (kept, _)) (congrArg Prod.fst hosts'.guests) }

/-- All lasts but who the newcomers are. -/
def Holding.Hosts {α β : Type} (x : Holding α β) : Prop := Lasting Focus.Hosts x

namespace Holding.Hosts

variable {α β : Type}

/-- What lasts does so whoever the newcomers are. -/
theorem of_lasts {κ : Type} (keep : α → κ) {x : Holding α β} (h : Holding.Lasts keep x) :
    Holding.Hosts x := by
  have hosts {f g : Focus α} (h : Focus.Lasts keep f g) : f.Hosts g :=
    { h.world with guests := congrArg (fun kept => (kept, _)) (congrArg Prod.fst h.world.guests) }
  exact fun f => (h f).mono (fun _ h => h) (fun _ _ h => hosts h) fun _ _ h => hosts h

/-- Runs outside that last do so whoever the newcomers are. -/
theorem outside {x : Run β} (h : Run.Lasts x) : Holding.Hosts (Holding.outside x : Holding α β) :=
  of_lasts (fun _ => ()) (.outside h)

/-- What is held may be looked at. -/
theorem held : Holding.Hosts (Holding.held : Holding α α) := of_lasts id .held

/-- What is held may change. -/
theorem change (g : α → α) : Holding.Hosts (Holding.change g) :=
  of_lasts (fun _ => ()) (.change fun _ => rfl)

/-- A newcomer may be noted. -/
theorem welcome (i : InstanceId) : Holding.Hosts (Holding.outside (Run.welcome i) : Holding α Unit) :=
  fun f => .outside fun _ => .modify (by rintro _ rfl; exact refl (r := World.Lasts) _)

/-- When the patch has ended the newcomers are who they were. -/
theorem welcoming {x : Holding α β} (h : Holding.Hosts x) :
    Holding.Lasts (fun _ => ()) (Holding.welcoming x) := fun f => by
  rintro _ rfl
  have ends := h f f rfl
  unfold Holding.welcoming
  cases hx : x f <;> rw [hx] at ends <;> exact ⟨rfl, ends⟩

end Holding.Hosts

/-- While a held instance that stays as it was made is worked on, all others that are held stay as they
are. -/
theorem Ends.hold_abides {α : Type} {i : InstanceId} {x : Holding Instance α} {w : World}
    (h : ∀ inst, Ends ((⟨inst, { w with busy := i :: w.busy }⟩ : Focus Instance) = ·) x
      (fun _ => Focus.Lasts Instance.make ⟨inst, { w with busy := i :: w.busy }⟩)
      fun _ => Focus.Lasts Instance.make ⟨inst, { w with busy := i :: w.busy }⟩) :
    Ends (w = ·) (Run.hold i x) (fun _ => w.Abides) fun _ => w.Abides := by
  have same : w.Abides w := ⟨refl w, fun hi _ => hi⟩
  refine Ends.hold (by rintro _ rfl; exact same) (by rintro _ rfl; exact same)
    fun v inst hv hi hb => ?_
  obtain rfl := hv
  -- It is put back as it was made, whether the work on it ends or stops.
  have back {f : Focus Instance}
      (hf : Focus.Lasts Instance.make ⟨inst, { w with busy := i :: w.busy }⟩ f) :
      w.Abides (Run.hold.back i w.busy f) := by
    have held {j : InstanceId} {inst' : Instance} (hj : w.instances[j]? = some inst')
        (hjb : j ∈ w.busy) : (f.world.instances.setIfInBounds i f.held)[j]? = some inst' := by
      have ne : i ≠ j := fun he => hb (he ▸ hjb)
      rw [Array.getElem?_setIfInBounds, if_neg ne]
      exact hf.world.aside hj (List.mem_cons_of_mem _ hjb) fun he => ne (Option.some.inj he)
    refine ⟨⟨?_, fun {j inst'} hj hjb => ?_, fun hj hjb _ => held hj hjb, hf.world.reactive, rfl,
      hf.world.guests⟩, held⟩
    · show _ ≤ (f.world.instances.setIfInBounds i f.held).size
      rw [Array.size_setIfInBounds]
      exact hf.world.size
    · show ∃ inst'', (f.world.instances.setIfInBounds i f.held)[j]? = some inst'' ∧ _
      rw [Array.getElem?_setIfInBounds]
      split
      · next he =>
        subst he
        obtain rfl := Option.some.inj (hi.symm.trans hj)
        have there := Nat.lt_of_lt_of_le (Array.getElem?_eq_some_iff.mp hi).1 hf.world.size
        exact ⟨f.held, if_pos there, hf.held⟩
      · next hne => exact hf.world.made (i := j) hj fun hm =>
          (List.mem_cons.mp hm).elim (fun he => hne he.symm) hjb
  exact (h inst).mono (by rintro _ rfl; rfl) (fun _ _ hf => back hf) fun _ _ hf => back hf

/-- A held instance that stays as it was made may be worked on. -/
theorem Run.Lasts.hold {α : Type} {i : InstanceId} {x : Holding Instance α}
    (h : Holding.Lasts Instance.make x) : Lasts (hold i x) := fun _ =>
  (Ends.hold_abides fun _ => h _).mono (fun _ h => h) (fun _ _ h => h.toLasts) fun _ _ h => h.toLasts

/-! ## Retirement -/

namespace Retire

variable {retire : Retire} (lasts : ∀ mode i, Run.Lasts (retire mode i))

include lasts

/-- A world lasts when an instance is given back. -/
theorem giveBack_lasts (id : DefinitionId) (i : InstanceId) : Run.Lasts (giveBack retire id i) :=
  (Run.Lasts.rootOf i).bind fun _ => (Run.Lasts.onDocument _).bind fun _ =>
    (lasts .dismount i).bind fun _ => Run.Lasts.pushPool id i

/-- A world lasts when a row is dropped. -/
theorem drop_lasts (id : DefinitionId) (share : Bool) (i : InstanceId) :
    Run.Lasts (drop retire id share i) := by
  unfold drop
  split
  · exact giveBack_lasts lasts id i
  · exact lasts .destroy i

/-- A world lasts when rows are cleared. -/
theorem clear_lasts (id : DefinitionId) (share : Bool) (instances : List InstanceId) :
    Run.Lasts (clear retire id share instances) :=
  .forM fun i _ => (Run.Lasts.rootOf i).bind fun _ => (Run.Lasts.onDocument _).bind fun _ =>
    drop_lasts lasts id share i

/-- A nested child stays at its place in the stash. -/
theorem entry_lasts (mode : Retirement) (item : StashItem) (w : World) :
    Ends w.Lasts (entry retire mode item) (fun item' v => item'.child? = item.child? ∧ w.Lasts v)
      fun _ => w.Lasts := by
  cases item with
  | tracker t => exact .pure fun _ h => ⟨rfl, h⟩
  | child i => exact (Lasting.since (lasts mode i) w).bind fun _ => .pure fun _ h => ⟨rfl, h⟩
  | sequential r =>
    refine Ends.bind (Q := fun _ => w.Lasts) (Lasting.since ?_ w) fun _ => .pure fun _ h => ⟨rfl, h⟩
    unfold sequential
    split
    · exact (clear_lasts lasts _ _ _).bind fun _ => .pure _
    · exact Lasting.bind (.forM fun i _ => lasts .dismount i) fun _ => .pure _
  | keyed r =>
    refine Ends.bind (Q := fun _ => w.Lasts) (Lasting.since ?_ w) fun _ => .pure fun _ h => ⟨rfl, h⟩
    unfold keyed
    split
    · exact (clear_lasts lasts _ _ _).bind fun _ => .pure _
    · exact Lasting.bind (.forM fun i _ => lasts .dismount i) fun _ => .pure _

/-- A held instance stays as it was made when it is put out of use. -/
theorem inPlace_lasts (mode : Retirement) : Holding.Lasts Instance.make (inPlace retire mode) := by
  rintro ⟨inst, w⟩
  have emptied : Ends (w = ·) (inst.stash.mapM (entry retire mode))
      (fun stash v => StashItem.seats stash = StashItem.seats inst.stash ∧ w.Lasts v)
      fun _ => w.Lasts := by
    refine ((Ends.mapM fun item _ => entry_lasts lasts mode item w).pre ?_).post fun stash v h =>
      ⟨(List.forall₂_eq_eq_eq ▸ List.forall₂_map_left_iff.mpr (List.forall₂_map_right_iff.mpr
        (h.1.imp fun _ _ he => he.symm)) : _ = _).symm, h.2⟩
    rintro _ rfl
    exact refl w
  have noted {stash : List StashItem} (same : StashItem.seats stash = StashItem.seats inst.stash)
      (v : World) : Ends (⟨inst, v⟩ = ·) (Holding.change fun i => { i with stash, mounted := false })
        (fun _ => Focus.Lasts Instance.make ⟨inst, v⟩) fun _ => Focus.Lasts Instance.make ⟨inst, v⟩ :=
    .change (by rintro _ _ ⟨rfl, rfl⟩; exact ⟨congrArg (Instance.Make.mk _ _ _) same, refl v⟩)
  refine .held_at (Ends.pre
    (Holding.Lasts.bind_at (Holding.Lasts.outside_at emptied) fun stash same v => ?_) ?_)
  · dsimp only
    split
    · exact Holding.Lasts.bind_at (Q := fun _ => True)
        (Holding.Lasts.outside_at ((Run.Lasts.onDocument _ v).post fun _ _ h => ⟨trivial, h⟩))
        fun _ _ v => noted same v
    · exact noted same v
  · rintro ⟨_, v⟩ ⟨rfl, rfl⟩
    rfl

end Retire

namespace Run.Lasts

/-- A world lasts when an instance is put out of use. -/
theorem retire (mode : Retirement) (i : InstanceId) : Lasts (retire mode i) := by
  have within (depth : Nat) : ∀ mode i, Lasts (retireWithin depth mode i) := by
    induction depth with
    | zero => exact fun _ _ => giveUp _
    | succ depth ih => exact fun mode i => hold (Retire.inPlace_lasts ih mode)
  exact Lasting.get.bind fun _ => within _ mode i

end Run.Lasts

/-! ## Silent templates -/

/-- The effect raises no event and publishes nothing. -/
def Effect.Silent : Effect → Prop
  | dispatch _ | publish _ => False
  | _ => True

instance : DecidablePred Effect.Silent := fun f => by
  cases f <;> first | exact isTrue trivial | exact isFalse id

/-- No effect of the template raises an event or publishes anything. -/
def Template.Silent (t : Template) : Prop :=
  ∀ w ∈ t.watches, ∀ c ∈ w.callbacks, ∀ f ∈ c.effects, f.Silent

/-- All templates are silent. -/
def Library.Silent (lib : Library) : Prop :=
  ∀ {id : DefinitionId} {d : Definition}, lib[id]? = some d → d.template.Silent

/-- No effect that the component declares raises an event or publishes anything. -/
def Node.Silent (root : Node) : Prop :=
  ∀ e ∈ Outline.ofRoot root, ∀ d ∈ e.node.head.watches, d.effect.Silent

instance (root : Node) : Decidable root.Silent :=
  inferInstanceAs (Decidable (∀ e ∈ Outline.ofRoot root, ∀ d ∈ e.node.head.watches, d.effect.Silent))

/-- A silent component compiles to a silent template. -/
theorem Template.silent_of_compile {options : CompileSettings} {name : String} {root : Node}
    {t : Template} (h : compile options name root = .ok t) (silent : root.Silent) : t.Silent := by
  obtain ⟨accepts, -⟩ := accepts_of_compile h
  have covers := Lay.walked_covers accepts.sound options
  rw [Silent, watches_of_compile h]
  intro w hw c hc f hf
  obtain ⟨k, hk⟩ := List.getElem?_of_mem hw
  rw [Watch.withSkips_eq, Option.map_eq_some_iff] at hk
  obtain ⟨v, hv, rfl⟩ := hk
  obtain ⟨i, -, e, he, watched⟩ := covers.watches v (List.mem_of_getElem? hv)
  have served := watched.effects c hc f hf
  generalize c.trigger = trigger at served
  cases served with
  | watch mem => exact silent e (List.mem_of_getElem? he) _ mem
  | _ => trivial

/-- The definitions of silent components are silent, those that extend others included. -/
theorem Library.silent_of_define {declarations : List Declaration} {library : Traced Library}
    (h : define declarations = .ok library) (silent : ∀ d ∈ declarations, d.Roots Node.Silent) :
    library.value.Silent :=
  templates_of_define (P := Template.Silent) nofun Template.silent_of_compile h silent

/-! ## Patches -/

/-- What the engine renders and acquires leaves the world lasting. -/
structure Engine.Lasts (lib : Library) (engine : Engine) : Prop where
  library : engine.library = lib
  render : ∀ i props controller, Run.Lasts (engine.render i props controller)
  acquire : ∀ id share props controller, Run.Lasts (engine.acquire id share props controller)

section Repeaters

variable {lib : Library} {engine : Engine} (lasts : engine.Lasts lib) {κ : Type}

namespace Sequential

include lasts

/-- Only newcomers come when an item is shown. -/
theorem showItem_hosts (container : NodeId) (anchor : Option NodeId) (controller : Controller)
    (position : Nat) (item : Value) : Holding.Hosts
      (showItem engine container anchor controller position item) := by
  unfold showItem
  refine Lasting.bind ?_ fun i => Holding.Hosts.held.bind fun r => ?_
  · unfold instanceFor
    refine Holding.Hosts.held.bind fun r => ?_
    split
    · next i _ => exact (Holding.Hosts.outside (lasts.render i item controller)).bind fun _ => .pure _
    · exact (Holding.Hosts.outside (lasts.acquire _ _ item controller)).bind fun i =>
        (Holding.Hosts.welcome i).bind fun _ => (Holding.Hosts.change _).bind fun _ => .pure _
  · split
    · exact (Holding.Hosts.outside ((Run.Lasts.rootOf i).bind fun _ => Run.Lasts.onDocument _)).bind
        fun _ => Holding.Hosts.change _
    · exact .pure _

/-- Only newcomers come when items are shown. -/
theorem showItems_hosts (container : NodeId) (anchor : Option NodeId) (controller : Controller)
    (position : Nat) (items : List Value) : Holding.Hosts
      (showItems engine container anchor controller position items) := by
  induction items generalizing position with
  | nil => exact .pure _
  | cons item rest ih =>
    exact (showItem_hosts lasts container anchor controller position item).bind fun _ => ih _

/-- A world lasts through a patch by position. -/
theorem patch_lasts (container : NodeId) (anchor : Option NodeId) (items : List Value)
    (controller : Controller) :
    Holding.Lasts (fun _ => ()) (patch engine container anchor items controller) := by
  refine Holding.Hosts.welcoming ((showItems_hosts lasts container anchor controller 0 items).bind fun _ =>
    Lasting.bind ?_ fun _ => ?_)
  · refine Holding.Hosts.held.bind fun r => Lasting.bind (.forM fun i _ => ?_) fun _ => Holding.Hosts.change _
    exact Holding.Hosts.outside ((Run.Lasts.rootOf i).bind fun _ => Run.Lasts.onDocument _)
  · refine Holding.Hosts.held.bind fun r => ?_
    split
    · exact Lasting.bind
        (.forM fun i _ => Holding.Hosts.outside (Retire.giveBack_lasts .retire _ i))
        fun _ => Holding.Hosts.change _
    · exact .pure _

end Sequential

namespace Keyed

omit lasts in
/-- Nobody comes when a row settles at its position. -/
theorem settle_hosts (container : NodeId) (anchor : Option NodeId) (key : ItemKey) (i : InstanceId)
    (position : Nat) :
    Holding.Hosts (settle container anchor key i position) := by
  unfold settle
  refine Holding.Hosts.held.bind fun r => (Holding.Hosts.outside (.rootOf i)).bind fun root => ?_
  split
  · exact (Holding.Hosts.outside (.onDocument _)).bind fun _ => Holding.Hosts.change _
  · split
    · split
      · exact Holding.Hosts.outside (.giveUp _)
      · exact (Holding.Hosts.outside (.rootOf _)).bind fun _ =>
          (Holding.Hosts.outside (.onDocument _)).bind fun _ => Holding.Hosts.change _
    · exact .pure _

omit lasts in
/-- Nobody comes when the rows from a position on are dropped. -/
theorem dropFrom_hosts (container : NodeId) (position : Nat) :
    Holding.Hosts (dropFrom container position) := by
  refine Holding.Hosts.held.bind fun r => Lasting.bind (.forM fun key _ => ?_) fun _ => Holding.Hosts.change _
  refine Holding.Hosts.held.bind fun r => ?_
  split
  · exact .pure _
  · exact (Holding.Hosts.outside ((Run.Lasts.rootOf _).bind fun _ =>
      (Run.Lasts.onDocument _).bind fun _ => Retire.drop_lasts .retire _ _ _)).bind fun _ =>
        Holding.Hosts.change _

include lasts

/-- Only a newcomer comes when the row of a key is found or made. -/
theorem instanceFor_hosts (controller : Controller) (key : ItemKey) (item : Value) :
    Holding.Hosts (instanceFor engine controller key item) := by
  unfold instanceFor
  refine Holding.Hosts.held.bind fun r => ?_
  split
  · next i _ => exact (Holding.Hosts.outside (lasts.render i item controller)).bind fun _ => .pure _
  · exact (Holding.Hosts.outside (lasts.acquire _ _ item controller)).bind fun i =>
      (Holding.Hosts.welcome i).bind fun _ => (Holding.Hosts.change _).bind fun _ => .pure _

/-- Only newcomers come when items are shown by their keys. -/
theorem showItems_hosts (container : NodeId) (anchor : Option NodeId) (controller : Controller)
    (seen : List ItemKey) (position : Nat) (items : List Value) : Holding.Hosts
      (showItems engine container anchor controller seen position items) := by
  induction items generalizing seen position with
  | nil => exact .pure _
  | cons item rest ih =>
    unfold showItems
    refine Holding.Hosts.held.bind fun r => Lasting.bind (Holding.Hosts.outside ?_) fun key => ?_
    · unfold itemKey
      dsimp only
      split
      · exact .pure _
      · exact .fail _
    · split
      · exact (Holding.Hosts.outside ((Run.Lasts.definition _ _).bind fun _ => Run.Lasts.say _)).bind
          fun _ => ih _ _
      · exact (instanceFor_hosts lasts controller key item).bind fun i =>
          (settle_hosts container anchor key i position).bind fun _ => ih _ _

/-- A world lasts through a patch by key. -/
theorem patch_lasts (container : NodeId) (anchor : Option NodeId) (items : List Value)
    (controller : Controller) :
    Holding.Lasts (fun _ => ()) (patch engine container anchor items controller) :=
  Holding.Hosts.welcoming ((showItems_hosts lasts container anchor controller [] 0 items).bind fun _ =>
    dropFrom_hosts container _)

end Keyed

end Repeaters

/-! ## Updates -/

namespace Pass

variable {lib : Library} {s : Setting} {α β : Type}

/-- The nested children at their places in the stash. -/
abbrev seats (p : Pass) : List (Option InstanceId) := StashItem.seats p.stash

/-- Evaluating an expression leaves the seats as they are. -/
theorem evaluate_lasts (key : LookupKey) : Holding.Lasts seats (evaluate s key) :=
  Holding.Lasts.held.bind fun _ => (Holding.Lasts.outside (.traced _)).bind fun _ =>
    Lasting.bind (Holding.Lasts.change fun _ => rfl) fun _ => .pure _

/-- Fetching changes nothing, and finds what is there. -/
theorem fetch_at (key : StashIndex) (expected : StashKind) (pick : StashItem → Option α)
    (f : Focus Pass) : Ends (f = ·) (fetch s key expected pick)
      (fun a g => f.held.stash[key]?.bind pick = some a ∧ Focus.Lasts id f g)
      fun _ => Focus.Lasts id f := by
  refine .held_at (Ends.pre (Holding.Lasts.outside_at (f := f) ?_) ?_)
  · unfold Run.fetch
    dsimp only
    split
    · next a ha => exact .pure (by rintro _ rfl; exact ⟨ha, refl _⟩)
    · exact Ends.bind (Run.Lasts.say _ f.world) fun _ => .throw fun _ h => h
  · rintro ⟨_, v⟩ ⟨rfl, rfl⟩
    rfl

/-- What is no nested child takes the place of something that is none. -/
theorem seats_store {p : Pass} {key : StashIndex} {pick : StashItem → Option α} {a : α}
    (found : p.stash[key]?.bind pick = some a)
    (hpick : ∀ item, (pick item).isSome → item.child? = none) {entry : StashItem}
    (he : entry.child? = none) : (p.store key entry).seats = p.seats := by
  obtain ⟨item, hi, ha⟩ := Option.bind_eq_some_iff.mp found
  refine List.ext_getElem? fun n => ?_
  simp only [seats, StashItem.seats, store, List.map_set, List.getElem?_set, he]
  split
  · next hn =>
    subst hn
    rw [List.getElem?_map, hi, Option.map_some, hpick item (by rw [ha]; rfl)]
    simp [(List.getElem?_eq_some_iff.mp hi).1]
  · rfl

/-- A world lasts while the node of a slot is asked for. -/
theorem node_lasts (slot : Nat) : Run.Lasts (s.node slot) := by
  unfold Setting.node
  split
  · exact .pure _
  · exact .giveUp _

/-- A world lasts while the items of a value are asked for. -/
theorem itemsOf_lasts (v : Value) : Run.Lasts (Effect.itemsOf v) := by
  unfold Effect.itemsOf
  split
  · exact .pure _
  · exact .pure _
  · exact .fail _

/-- A world lasts while an anchor is looked for. -/
theorem anchorIn_lasts (stash : List StashItem) (container : NodeId) (anchors : List Anchor) :
    Run.Lasts (Effect.anchorIn s stash container anchors) := by
  induction anchors with
  | nil => exact .pure _
  | cons anchor rest ih =>
    cases anchor with
    | slot slot =>
      refine Lasting.get.bind fun w => ?_
      dsimp only
      split
      · exact .pure _
      · exact ih
    | repeater key =>
      unfold Effect.anchorIn
      split
      · exact (Run.Lasts.rootOf _).bind fun _ => .pure _
      · exact ih

/-- A repeater is found and worked on. -/
theorem repeat_lasts {kind : StashKind} {pick : StashItem → Option α} {entry : α → StashItem}
    (hpick : ∀ item, (pick item).isSome → item.child? = none) (he : ∀ a, (entry a).child? = none)
    {anchors : α → List Anchor} {patch : Option NodeId → List Value → Holding α Unit}
    (h : ∀ anchor list, Holding.Lasts (fun _ => ()) (patch anchor list)) (container : NodeId)
    (key : StashIndex) (items : LookupKey) :
    Holding.Lasts seats (do
      let items ← Holding.outside (Effect.itemsOf (← evaluate s items))
      let r ← fetch s key kind pick
      let anchor ← Holding.outside
        (Effect.anchorIn s (← Holding.held).stash container (anchors r))
      revise key entry r (patch anchor items)) := by
  refine (evaluate_lasts items).bind fun v => (Holding.Lasts.outside (itemsOf_lasts v)).bind
    fun list f => Holding.Lasts.bind_at (fetch_at key kind pick f) fun r found w => ?_
  refine .held_at (Ends.pre (Holding.Lasts.bind_at (Q := fun _ => True) (Holding.Lasts.outside_at
    (((anchorIn_lasts _ _ _) w).post fun _ _ h => ⟨trivial, h⟩)) fun anchor _ w => ?_) ?_)
  · have stored (a : α) (_ : () = ()) : ((⟨f.held, w⟩ : Focus Pass).held.store key (entry a)).seats =
        f.held.seats := seats_store found hpick (he a)
    refine Ends.bind (Holding.Lasts.within_at stored (h anchor list)) fun _ => ?_
    exact Lasting.since (Holding.Lasts.held.bind fun _ => Holding.Lasts.outside (.showStash _)) _
  · rintro ⟨_, v⟩ ⟨rfl, rfl⟩
    rfl

variable (lasts : s.engine.Lasts lib)

include lasts

/-- A silent effect leaves the world lasting. -/
theorem effect_lasts (node : NodeId) (value : Value) {f : Effect} (silent : f.Silent) :
    Holding.Lasts seats (f.run s node value) := by
  cases f with
  | setText | setAttribute | switchClass | setStyle =>
    unfold Effect.run
    exact Holding.Lasts.outside (.onDocument _)
  | switchClasses names => exact .forM fun _ _ => Holding.Lasts.outside (.onDocument _)
  | renderChild key props =>
    refine (evaluate_lasts props).bind fun v f => Holding.Lasts.bind_at (fetch_at key _ _ f)
      fun child _ w => ?_
    exact ((Holding.Lasts.outside (lasts.render child v s.controller)).bind fun _ => .pure _) _
  | renderSequence key items =>
    refine repeat_lasts (fun item hi => ?_) (fun _ => rfl)
      (fun anchor list => Sequential.patch_lasts lasts node anchor list s.controller) node key items
    cases item <;> first | rfl | cases hi
  | renderKeyed key items =>
    refine repeat_lasts (fun item hi => ?_) (fun _ => rfl)
      (fun anchor list => Keyed.patch_lasts lasts node anchor list s.controller) node key items
    cases item <;> first | rfl | cases hi
  | record | recordScope =>
    unfold Effect.run
    exact Holding.Lasts.outside (.say _)
  | failWhen message =>
    show Holding.Lasts _ (if value.isTruthy then _ else _)
    split
    · exact Holding.Lasts.outside (.fail _)
    · exact .pure _
  | recordLookup key => exact (evaluate_lasts key).bind fun _ => Holding.Lasts.outside (.say _)
  | dispatch | publish => cases silent

/-- Callbacks whose effects are silent leave the seats as they are. -/
theorem runCallbacks_lasts (node : NodeId) (k : Nat) {w : Watch}
    (silent : ∀ c ∈ w.callbacks, ∀ f ∈ c.effects, f.Silent) :
    Holding.Lasts seats (runCallbacks s node k w) := by
  refine .forM fun x hx => ?_
  obtain ⟨c, position⟩ := x
  have hc := List.mem_of_getElem? (List.mem_zipIdx_iff_getElem?.mp hx)
  have effects (value : Value) :
      Holding.Lasts seats (c.effects.forM (Effect.run s node value)) :=
    .forM fun f hf => effect_lasts lasts node value (silent c hc f hf)
  show Holding.Lasts _ (runCallback s node k position c)
  unfold runCallback
  split
  · exact (effects .null).bind fun _ => Holding.Lasts.change fun _ => rfl
  · refine (evaluate_lasts _).bind fun value => Holding.Lasts.held.bind fun p => ?_
    split
    · exact .pure _
    · exact (effects value).bind fun _ => Holding.Lasts.change fun _ => rfl

omit lasts in
/-- Applying a shield leaves the seats as they are. -/
theorem applyShield_lasts (shield : Shield) (node : NodeId) :
    Holding.Lasts seats (applyShield s shield node) := by
  unfold applyShield
  refine Lasting.bind ((evaluate_lasts _).bind fun _ => .pure _) fun visible => ?_
  split
  · next plan _ =>
    refine Lasting.bind ?_ fun _ => .pure _
    refine (Holding.Lasts.outside (node_lasts plan.parent)).bind fun parent f =>
      Holding.Lasts.bind_at (fetch_at plan.tracker .tracker StashItem.tracker? f) fun t found w => ?_
    refine Holding.Lasts.bind_at (Q := fun _ => True) (Holding.Lasts.outside_at
      ((Run.Lasts.modifyGet (fun _ => ⟨rfl, rfl, rfl, rfl⟩) w).post fun _ _ h => ⟨trivial, h⟩))
        fun t' _ w => .change ?_
    rintro _ _ ⟨rfl, rfl⟩
    refine ⟨seats_store found (fun item hi => ?_) rfl, refl w⟩
    cases item <;> first | rfl | cases hi
  · exact (Holding.Lasts.outside (.onDocument _)).bind fun _ => .pure _

/-- A visit to a watch whose effects are silent leaves the seats as they are. -/
theorem visit_lasts (k : Nat) {w : Watch} (silent : ∀ c ∈ w.callbacks, ∀ f ∈ c.effects, f.Silent)
    (rest : Nat) : Holding.Lasts seats (visit s k w rest) := by
  unfold visit
  refine (Holding.Lasts.outside (node_lasts w.slot)).bind fun node =>
    Lasting.bind (Holding.Lasts.change fun _ => rfl) fun _ => ?_
  have callbacks := runCallbacks_lasts lasts node k silent
  split
  · exact callbacks.bind fun _ => .pure _
  · refine (applyShield_lasts _ node).bind fun visible => ?_
    split
    · exact callbacks.bind fun _ => .pure _
    · exact (Holding.Lasts.outside (.say _)).bind fun _ =>
        Lasting.bind (Holding.Lasts.change fun _ => rfl) fun _ => .pure _

/-- A walk over silent watches leaves the seats as they are. -/
theorem walk_lasts (silent : s.template.Silent) (skip : Nat) {ws : List (Watch × Nat)}
    (known : ∀ x ∈ ws, x.1 ∈ s.template.watches) :
    Holding.Lasts seats (walk s skip ws) := by
  induction ws generalizing skip with
  | nil => exact .pure _
  | cons x ws ih =>
    rw [List.forall_mem_cons] at known
    cases skip with
    | zero => exact (visit_lasts lasts x.2 (silent _ known.1) ws.length).bind fun skip => ih skip known.2
    | succ skip => exact ih skip known.2

end Pass

namespace Instance

variable {lib : Library} {engine : Engine} (lasts : engine.Lasts lib) (silent : lib.Silent)

/-- All of an instance that a pass leaves alone. -/
def besidesPass (i : Instance) : Make × Value × Value × Controller × Bool :=
  (i.make, i.props, i.state, i.controller, i.mounted)

include lasts silent

/-- An update changes nothing of its instance but the cache and the stash. -/
theorem updateWindow_lasts (start stop : Nat) :
    Holding.Lasts besidesPass (updateWindow engine start stop) := by
  refine Holding.Lasts.held.bind fun inst => Holding.Lasts.definition_bind fun d hd => ?_
  have known : ∀ x ∈ d.template.window start stop, x.1 ∈ d.template.watches :=
    fun x hx => List.mem_of_getElem? (Setting.mem_window.mp hx).2.2
  have walked := Pass.walk_lasts (s := .ofInstance engine d inst) lasts
    (silent (lasts.library ▸ hd)) 0 known
  exact fun f => Holding.Lasts.within_at (fun p same => congrArg (fun seats => (Make.mk _ _ _ seats, _)) same)
    (walked.bind fun _ => Holding.Lasts.held.bind fun _ => .pure _)

/-- An update leaves of an instance all but its pass as it is. -/
theorem update_lasts : Holding.Lasts besidesPass (update engine) :=
  Holding.Lasts.held.bind fun _ => (Holding.Lasts.outside (.definition _ _)).bind fun _ =>
    updateWindow_lasts lasts silent _ _

/-- An update of a part leaves of an instance all but its pass as it is. -/
theorem updatePart_lasts (name : String) : Holding.Lasts besidesPass (updatePart engine name) := by
  refine Holding.Lasts.held.bind fun _ => (Holding.Lasts.outside (.definition _ _)).bind fun d => ?_
  split
  · exact updateWindow_lasts lasts silent _ _
  · exact Holding.Lasts.outside (.fail _)

/-- An instance stays as it was made when it is rendered. -/
theorem render_lasts (props : Value) (controller : Controller) :
    Holding.Lasts make (render engine props controller) :=
  Lasting.bind (Holding.Lasts.change fun _ => rfl) fun _ => (update_lasts lasts silent).part Prod.fst

end Instance

/-! ## New instances -/

namespace Build

variable {build : DefinitionId → Run InstanceId} (lasts : ∀ id, Run.Lasts (build id))

include lasts

/-- A world lasts while an entry of a stash is made. -/
theorem entry_lasts (d : Definition) (elements : List NodeId) (plan : StashPlan) :
    Run.Lasts (entry build d elements plan) := by
  cases plan with
  | child slot source startsDetached =>
    have found : Run.Lasts (sourceOf d source) := by
      cases source with
      | definition id => exact .pure id
      | stub name =>
        simp only [sourceOf]
        split
        · exact .pure _
        · exact .fail _
    have seated (child : InstanceId) :
        Run.Lasts (takePlace slot startsDetached child elements) := by
      refine (Run.Lasts.rootOf child).bind fun root => ?_
      split
      · exact Run.Lasts.giveUp _
      · split
        · exact (Run.Lasts.onDocument _).bind fun _ => .pure _
        · exact (Run.Lasts.onDocument _).bind fun _ => (Run.Lasts.onDocument _).bind fun _ => .pure _
    exact found.bind fun id => (lasts id).bind fun child => (seated child).bind fun _ => .pure _
  | _ => exact .pure _

/-- A world lasts while a stash is made. -/
theorem entries_lasts (d : Definition) (root : NodeId) (made : List StashItem)
    (elements : List NodeId) (plans : List StashPlan) :
    Run.Lasts (entries build d root made elements plans) := by
  induction plans generalizing made elements with
  | nil => exact .pure _
  | cons plan plans ih =>
    refine (entry_lasts lasts d elements plan).attempt.bind fun r => ?_
    cases r with
    | ok a => exact ih _ _
    | error fault =>
      exact Lasting.bind (.forM fun i _ => Run.Lasts.retire .destroy i) fun _ =>
        (Run.Lasts.onDocument _).bind fun _ => Run.Lasts.fail _

omit lasts in
/-- A world lasts when an instance is taken up. -/
theorem register_lasts (t : Template) (inst : Instance) : Run.Lasts (register t inst) := by
  refine Lasting.bind (Lasting.modifyGet fun w => .push inst) fun i =>
    Lasting.bind (.forM fun l _ => ?_) fun _ => .pure _
  split
  · exact Run.Lasts.onDocument _
  · exact .pure _

/-- A world lasts while an instance is assembled. -/
theorem assemble_lasts (lib : Library) (id : DefinitionId) (props : Value)
    (controller : Controller) : Run.Lasts (assemble lib build id props controller) := by
  refine (Run.Lasts.definition lib id).bind fun d =>
    Lasting.bind (Run.Lasts.modifyGet fun _ => ⟨rfl, rfl, rfl, rfl⟩) fun root => Lasting.get.bind fun w => ?_
  split
  · exact (Run.Lasts.onDocument _).bind fun _ => Run.Lasts.fail _
  · exact (entries_lasts lasts d root [] _ _).bind fun _ => register_lasts _ _

end Build

namespace Run.Lasts

/-- Building an instance leaves the others, whatever the depth. -/
theorem buildWithin (lib : Library) (depth : Nat) (id : DefinitionId) (props : Value)
    (controller : Controller) : Lasts (buildWithin lib depth id props controller) := by
  induction depth generalizing id props controller with
  | zero => exact giveUp _
  | succ depth ih => exact Build.assemble_lasts (fun child => ih child _ _) lib id props controller

variable {lib : Library} {engine : Engine} (lasts : engine.Lasts lib) (silent : lib.Silent)

include lasts silent

/-- A world lasts while an instance is constructed. -/
theorem construct (id : DefinitionId) (props : Value) (controller : Controller) :
    Lasts (construct engine id props controller) := by
  refine (buildWithin _ (id + 1) id props controller).bind fun i =>
    (hold ((Instance.update_lasts lasts silent).part Prod.fst)).attempt.bind fun r => ?_
  cases r with
  | ok a =>
    refine Lasting.bind (hold ?_) fun _ => .pure _
    exact Holding.Lasts.change fun _ => rfl
  | error fault => exact (retire .destroy i).bind fun _ => fail _

/-- A world lasts while an instance is acquired. -/
theorem acquire (id : DefinitionId) (share : Bool) (props : Value) (controller : Controller) :
    Lasts (acquire engine id share props controller) := by
  unfold Run.acquire
  refine (definition _ id).bind fun d => ?_
  have reused (line : String) (i : InstanceId) : Lasts (do
      Run.log .debug line
      let _ ← Run.hold i (Instance.render engine props controller)
      return i) :=
    (say _).bind fun _ => (hold (Instance.render_lasts lasts silent props controller)).bind
      fun _ => .pure _
  have fresh (line : String) : Lasts (do
      Run.log .debug line
      Run.construct engine id props controller) :=
    (say _).bind fun _ => construct lasts silent id props controller
  dsimp only
  split
  · refine (popPool id).bind fun spare => ?_
    cases spare with
    | some i => exact reused _ i
    | none => exact fresh _
  · exact fresh _

end Run.Lasts

/-! ## Engines -/

/-- What an engine of a silent library renders and acquires leaves the world lasting, at every
depth. -/
theorem Engine.nested_lasts {lib : Library} (silent : lib.Silent) (depth : Nat) :
    (nested lib depth).Lasts lib := by
  induction depth with
  | zero => exact ⟨rfl, fun _ _ _ => .giveUp _, fun _ _ _ _ => .giveUp _⟩
  | succ depth ih =>
    exact ⟨rfl, fun _ props controller => .hold (Instance.render_lasts ih silent props controller),
      Run.Lasts.acquire ih @silent⟩

end ComponentView
