import ComponentView.Proofs.Containers.Engine
import ComponentView.Proofs.Lasting
import Mathlib.Data.Finset.Card
import Mathlib.Data.Finset.Range

/-! # Events in a tidy world

An event reaches instances from outside, also while a handler of another instance runs. Whoever hears it
is in use, and in a tidy world that heeds who is in use nobody in use has been destroyed
(`World.Tidy.alive_of_inUse`). So the instance can be held wherever it stands, and what its handler does
leaves the world tidy, other events that it raises included (`Engine.nested_raises`). Instances that are
held stay as they are meanwhile (`Engine.nested_hears`). -/

namespace ComponentView

/-! ## Who is in use -/

namespace World

/-- Nothing is published, and the instances that are kept from outside, newcomers, and those that held
instances hold are in hand. -/
structure Heeds (hand : List InstanceId) (w : World) : Prop where
  published : w.published = []
  kept : ∀ i ∈ w.kept, i ∈ hand
  newcomers : ∀ i ∈ w.newcomers, i ∈ hand
  held : ∀ i ∈ w.busy, ∃ inst, w.instances[i]? = some inst ∧ ∀ k ∈ inst.held, k ∈ hand

/-- The number of instances of later definitions. -/
def countAfter (w : World) (id : DefinitionId) : Nat :=
  ((Finset.range w.instances.size).filter fun j => ∃ k ∈ w.definition? j, id < k).card

variable {L : Reserve} {δ : Deeds} {busy hand : List InstanceId} {w later : World} {i : InstanceId}
  {inst : Instance} {id k : DefinitionId}

/-- Fewer instances come after a later definition of which there is one. -/
theorem countAfter_lt_of_lt (hi : w.definition? i = some k) (lt : id < k) :
    w.countAfter k < w.countAfter id := by
  refine Finset.card_lt_card ((Finset.ssubset_iff_of_subset ?_).mpr ⟨i, ?_, ?_⟩)
  · refine Finset.monotone_filter_right _ fun j _ hj => ?_
    obtain ⟨k', hk', hlt⟩ := hj
    exact ⟨k', hk', lt.trans hlt⟩
  · rw [Finset.mem_filter, Finset.mem_range]
    exact ⟨isSome_definition?.mp (hi ▸ rfl), k, hi, lt⟩
  · rw [Finset.mem_filter]
    rintro ⟨-, k', hk', hlt⟩
    obtain rfl := Option.some.inj (hi.symm.trans hk')
    exact Nat.lt_irrefl _ hlt

/-- Not all instances come after the definition of one. -/
theorem countAfter_lt_size (hi : w.definition? i = some id) : w.countAfter id < w.instances.size := by
  refine Nat.lt_of_lt_of_eq (Finset.card_lt_card ((Finset.ssubset_iff_of_subset
    (Finset.filter_subset _ _)).mpr ⟨i, ?_, ?_⟩)) (Finset.card_range _)
  · exact Finset.mem_range.mpr (isSome_definition?.mp (hi ▸ rfl))
  · rw [Finset.mem_filter]
    rintro ⟨-, k, hk, hlt⟩
    obtain rfl := Option.some.inj (hi.symm.trans hk)
    exact Nat.lt_irrefl _ hlt

/-- Who is in use by holders up to some depth is not destroyed, unless it is held at the moment. Holders
are of later definitions, so they do not run in a ring. -/
theorem Tidy.alive_or_busy (h : w.Tidy L δ busy [] hand) (heeds : w.Heeds hand) {depth : Nat}
    (hi : w.definition? i = some id) (few : w.countAfter id < depth)
    (used : w.inUseWithin depth i = true) : δ.alive i ∨ i ∈ busy := by
  induction depth generalizing i id with
  | zero => exact absurd few (Nat.not_lt_zero _)
  | succ depth ih =>
    rw [inUseWithin, Bool.or_eq_true, List.contains_iff_mem] at used
    rcases used with direct | used
    · simp only [inUseDirectly, List.mem_append] at direct
      rcases direct with ((kept | spare) | held) | new
      · exact .inl (h.inHand i (heeds.kept i kept))
      · obtain ⟨pool, hp, hi⟩ := List.mem_flatten.mp spare
        obtain ⟨n, hn⟩ := List.getElem?_of_mem hp
        rw [Array.getElem?_toList] at hn
        exact .inl (h.pooled (show i ∈ w.pool n by rw [World.pool, hn]; exact hi))
      · exact .inr (h.orderly.busy_eq ▸ held)
      · exact .inl (h.inHand i (heeds.newcomers i new))
    · obtain ⟨j, hj, used⟩ := List.any_eq_true.mp used
      obtain ⟨inst, get, held⟩ : ∃ inst, w.instances[j]? = some inst ∧ i ∈ inst.held := by
        simpa [Option.any_eq_true] using (List.mem_filter.mp hj).2
      refine .inl ?_
      by_cases hb : j ∈ busy
      · obtain ⟨inst', get', all⟩ := heeds.held j (h.orderly.busy_eq ▸ hb)
        obtain rfl := Option.some.inj (get.symm.trans get')
        exact h.inHand i (all i held)
      · obtain ⟨item, hm, hk⟩ := List.mem_flatMap.mp held
        obtain ⟨k, lt, hk⟩ := ((h.orderly.sound get hb).ranks item hm).lt hk
        obtain rfl := Option.some.inj (hi.symm.trans hk)
        have fewer := countAfter_lt_of_lt (definition?_of_get get) lt
        have alive := (ih (definition?_of_get get) (by omega) used).resolve_right hb
        exact (h.shows alive hb get).2 i held

/-- Who is in use and not held at the moment is not destroyed. -/
theorem Tidy.alive_of_inUse (h : w.Tidy L δ busy [] hand) (heeds : w.Heeds hand)
    (used : w.inUse i = true) (get : w.instances[i]? = some inst) (free : i ∉ busy) : δ.alive i :=
  (h.alive_or_busy heeds (definition?_of_get get) (countAfter_lt_size (definition?_of_get get))
    used).resolve_right free

/-- What an instance holds comes into hand when it is held. -/
theorem Heeds.take (h : w.Heeds hand) (get : w.instances[i]? = some inst) :
    Heeds (inst.held ++ hand) { w with busy := i :: w.busy } where
  published := h.published
  kept j hj := List.mem_append_right _ (h.kept j hj)
  newcomers j hj := List.mem_append_right _ (h.newcomers j hj)
  held j hj := by
    rcases List.mem_cons.mp hj with rfl | hj
    · exact ⟨inst, get, fun k hk => List.mem_append_left _ hk⟩
    · obtain ⟨inst', get', all⟩ := h.held j hj
      exact ⟨inst', get', fun k hk => List.mem_append_right _ (all k hk)⟩

/-- A world that abides heeds whom it heeded. -/
theorem Heeds.abides (h : w.Heeds hand) (abides : w.Abides later) : later.Heeds hand := by
  have reactive := abides.reactive
  have guests := abides.guests
  simp only [World.reactive, World.guests, Prod.mk.injEq] at reactive guests
  exact
    { published := reactive.2.2.2.2.trans h.published
      kept := guests.1 ▸ h.kept
      newcomers := guests.2 ▸ h.newcomers
      held := fun j hj => by
        rw [abides.busy] at hj
        obtain ⟨inst, get, all⟩ := h.held j hj
        exact ⟨inst, abides.held get hj, all⟩ }

end World

/-! ## What lasts while an event is heard -/

namespace World

variable {w later latest : World}

/-- A world that abides and abides again has abided. -/
theorem Abides.trans (h : w.Abides later) (h' : later.Abides latest) : w.Abides latest where
  toLasts := h.toLasts.trans h'.toLasts
  held hi hb := h'.held (h.held hi hb) (h.busy ▸ hb)

/-- Where nothing is published, the world abides. -/
def Hears (w later : World) : Prop := w.published = [] → w.Abides later

instance : IsPreorder World Hears where
  refl w _ := ⟨refl w, fun hi _ => hi⟩
  trans _ _ _ h h' none := (h none).trans (h' (by
    have reactive := (h none).reactive
    simp only [World.reactive, Prod.mk.injEq] at reactive
    exact reactive.2.2.2.2.trans none))

end World

/-- Where nothing is published, the world lasts and what is held stays as it was made. -/
def Focus.Hears (f g : Focus Instance) : Prop := f.world.published = [] → f.Lasts Instance.make g

instance : IsPreorder (Focus Instance) Focus.Hears where
  refl f _ := refl f
  trans f _ _ h h' none := IsTrans.trans f _ _ (h none) (h' (by
    have reactive := (h none).world.reactive
    simp only [World.reactive, Prod.mk.injEq] at reactive
    exact reactive.2.2.2.2.trans none))

/-- Wherever the run ends or stops, it has heard. -/
def Run.Hears {α : Type} (x : Run α) : Prop := Lasting World.Hears x

/-- The same for a run that holds an instance. -/
def Holding.Hears {α : Type} (x : Holding Instance α) : Prop := Lasting Focus.Hears x

/-- What the engine does for those who raise events and publish something. -/
structure Engine.Hears (engine : Engine) : Prop where
  dispatch : ∀ target name value, Run.Hears (engine.dispatch target name value)
  publish : ∀ name value w, w.published = [] → Ends (w = ·) (engine.publish name value)
    (fun _ later => w = later) fun stop later => stop.GivenUp ∧ w = later

namespace Run.Hears

variable {α : Type}

/-- Only the instances, the observables, the mounts, who is held and who is in use matter. -/
theorem modify {f : World → World} (h : ∀ w, (f w).instances = w.instances ∧
    (f w).reactive = w.reactive ∧ (f w).busy = w.busy ∧ (f w).guests = w.guests) :
    Run.Hears (modify f) := Lasting.modify fun w _ =>
  ⟨.of_eq (h w).1 (h w).2.1 (h w).2.2.1 (h w).2.2.2, fun hi _ => (h w).1 ▸ hi⟩

/-- Something may be said. -/
theorem say (entries : List Entry) : Run.Hears (say entries) := modify fun _ => ⟨rfl, rfl, rfl, rfl⟩

/-- An instance may be looked at. -/
theorem look (i : InstanceId) : Run.Hears (look i) := fun w =>
  (Ends.look (by rintro _ rfl; exact refl w) (by rintro _ rfl; exact refl w)).post
    (by rintro _ _ ⟨-, -, rfl⟩; exact refl w)

/-- A definition may be asked for. -/
theorem definition (library : Library) (id : DefinitionId) : Run.Hears (library.definition id) := by
  unfold Library.definition
  split
  · exact Lasting.pure _
  · exact Lasting.throw _

/-- An instance may be held for what leaves it as it was made. -/
theorem hold {i : InstanceId} {x : Holding Instance α} (h : Holding.Hears x) : Run.Hears (hold i x) := by
  intro w
  by_cases none : w.published = []
  · refine (Ends.hold_abides fun inst => (h ⟨inst, { w with busy := i :: w.busy }⟩).mono
      (fun _ h => h) (fun _ _ h => h none) fun _ _ h => h none).mono (fun _ h => h)
        (fun _ _ h _ => h) fun _ _ h _ => h
  · exact (Ends.trivially _).mono (fun _ h => h) (fun _ _ _ h => absurd h none)
      fun _ _ _ h => absurd h none

end Run.Hears

namespace Holding.Hears

variable {α β : Type}

/-- What leaves the held instance as it was made may be done. -/
theorem of_lasts {x : Holding Instance α} (h : Holding.Lasts Instance.make x) : Holding.Hears x :=
  fun f => (h f).mono (fun _ h => h) (fun _ _ h _ => h) fun _ _ h _ => h

/-- Who hears an event does so whatever is held. -/
theorem outside {x : Run α} (h : Run.Hears x) : Holding.Hears (Holding.outside x) := by
  rintro ⟨a, w⟩
  refine Ends.outside fun b => .pointwise ?_
  rintro v hv
  obtain ⟨rfl, rfl⟩ := Focus.mk.inj hv
  exact (h _).mono (fun _ h => h) (fun _ _ h none => ⟨rfl, (h none).toLasts⟩)
    fun _ _ h none => ⟨rfl, (h none).toLasts⟩

end Holding.Hears

section Hears

variable {engine : Engine} {lib : Library} (lasts : engine.Lasts lib) (silent : lib.Silent)
  (hears : engine.Hears)

/-- Writing into the state leaves an instance as it was made. -/
theorem Handler.writeState_lasts (path : Path) (value : Value) :
    Holding.Lasts Instance.make (Handler.writeState path value) := by
  rintro ⟨inst, w⟩ _ rfl
  exact ⟨rfl, refl w⟩

include lasts silent hears

/-- A handler leaves its instance as it was made, and abides with what it raises. -/
theorem Handler.run_hears (event : Event) (h : Handler) : Holding.Hears (h.run engine event) := by
  have said (entries : List Entry) : Holding.Hears (Holding.outside (Run.say entries)) :=
    .outside (.say entries)
  have written (path : Path) (value : Value) : Holding.Hears (writeState path value) :=
    .of_lasts (writeState_lasts path value)
  have updated : Holding.Hears (do let _ ← Instance.update engine) :=
    .of_lasts (((Instance.update_lasts lasts silent).part Prod.fst).bind fun _ => .pure _)
  cases h with
  | record tag => exact said _
  | fail message => exact .outside (Lasting.throw _)
  | write path => exact (written path _).bind fun _ => said _
  | increment path =>
    exact Lasting.bind (Holding.Hears.of_lasts .held) fun _ => (written path _).bind fun _ => updated
  | setState =>
    unfold run
    exact .of_lasts (.change fun _ => rfl)
  | update => exact updated
  | render controller =>
    exact .of_lasts ((Instance.render_lasts lasts silent _ _).bind fun _ => .pure _)
  | updatePart name =>
    exact .of_lasts (((Instance.updatePart_lasts lasts silent _).part Prod.fst).bind fun _ => .pure _)
  | dispatch name => exact .outside ((hears.dispatch _ _ _).bind fun _ => Run.Hears.say _)
  | publish name value =>
    have published : Run.Hears (engine.publish name value) := fun w => by
      by_cases none : w.published = []
      · refine (hears.publish name value w none).mono (fun _ h => h) ?_ ?_
        · rintro _ _ rfl
          exact refl w
        · rintro _ _ ⟨-, rfl⟩
          exact refl w
      · exact (Ends.trivially _).mono (fun _ h => h) (fun _ _ _ h => absurd h none)
          fun _ _ _ h => absurd h none
    exact .outside (published.bind fun _ => Run.Hears.say _)
  | dismount => exact .of_lasts (Retire.inPlace_lasts .retire .dismount)
  | bind path => exact (written path _).bind fun _ => updated

/-- A listener hears an event. -/
theorem Listener.hear_hears (event : Event) (l : Listener) : Run.Hears (l.hear engine event) := by
  cases l with
  | probe tag => exact Run.Hears.say _
  | bound owner handler =>
    show Run.Hears (Run.handle engine event owner handler)
    unfold Run.handle
    refine Lasting.get.bind fun w => ?_
    split
    · split
      · exact Run.Hears.say _
      · refine Lasting.bind
          (.attempt (Run.Hears.hold (handler.run_hears lasts silent hears event))) fun r => ?_
        cases r with
        | ok _ => exact Lasting.pure _
        | error fault =>
          exact (Run.Hears.look owner).bind fun _ => (Run.Hears.definition _ _).bind fun _ =>
            Run.Hears.say _
    · exact Lasting.pure _

/-- All listeners of a node do. -/
theorem Run.dispatch_hears (target : NodeId) (name : String) (value : Value) :
    Run.Hears (Run.dispatch engine target name value) :=
  Lasting.get.bind fun _ => Lasting.bind
    (.forM fun l _ => l.hear_hears lasts silent hears _) fun _ => .pure _

end Hears

namespace Engine

/-- Every engine of a silent library hears. -/
theorem nested_hears {lib : Library} (silent : lib.Silent) (depth : Nat) : (nested lib depth).Hears := by
  induction depth with
  | zero =>
    exact ⟨fun _ _ _ => Lasting.throw _, fun _ _ _ _ => .throw (by rintro _ rfl; exact ⟨⟨_, rfl⟩, rfl⟩)⟩
  | succ depth ih =>
    refine ⟨Run.dispatch_hears (nested_lasts silent depth) silent ih, fun name value w none => ?_⟩
    show Ends _ (Run.publish (nested lib depth) name value) _ _
    unfold Run.publish
    refine Ends.get.bind fun v => .pointwise ?_
    rintro _ ⟨rfl, rfl⟩
    rw [none]
    exact .pure fun _ h => h

end Engine

/-! ## What is heard in a tidy world -/

/-- An event that is raised where it is heeded who is in use leaves the world tidy. -/
def Engine.Raises (engine : Engine) : Prop :=
  ∀ (L : Reserve) (busy hand : List InstanceId) (target : NodeId) (name : String) (value : Value),
    L.library = engine.library →
      Ends (fun w => w.Heeds hand ∧ w.Neat L busy [] hand) (engine.dispatch target name value)
        (fun _ => World.Neat L busy [] hand) (Failing (World.Neat L busy [] hand))

section Raises

variable {engine : Engine} {L : Reserve} {id : DefinitionId} {r : NodeId} {i : InstanceId}
  {busy hand : List InstanceId} {elements : List NodeId} {stash : List StashItem} {w : World}

/-- An event that the handler of a host raises leaves what the host shows as it is. -/
theorem World.Minds.raise (h : w.Minds L id r busy [] hand elements stash) (opens : L.Opens id r hand)
    (heeds : w.Heeds (stash.flatMap StashItem.held ++ hand)) (raises : engine.Raises)
    (hl : L.library = engine.library) (target : NodeId) (name : String) (value : Value) :
    Ends (w = ·) (engine.dispatch target name value)
      (fun _ later => later.Minds L id r busy [] hand elements stash)
      (Failing (World.Minds L id r busy [] hand elements stash)) := by
  obtain ⟨δ, tidy⟩ := h.neat
  -- The event is to respect all nodes of hosts, as what the host renders is.
  have calm {v : World} (hv : v.Neat (L.freeze w δ fun _ => True) busy []
      (stash.flatMap StashItem.held ++ hand)) : v.Minds L id r busy [] hand elements stash := by
    obtain ⟨neat, sweeps⟩ := tidy.calm hv
    exact h.calm opens neat sweeps
  refine (raises (L.freeze w δ fun _ => True) busy _ target name value hl).mono ?_
    (fun _ v hv => calm hv) fun _ _ hv => hv.mono calm
  rintro _ rfl
  exact ⟨heeds, δ, tidy.freeze _⟩

variable (orderly : engine.Orderly) (tidies : engine.Tidies) (hears : engine.Hears)
  (raises : engine.Raises) (hl : L.library = engine.library)

include tidies hears raises hl

/-- A handler goes on showing the stash of its instance, whatever it raises. -/
theorem Handler.run_tidy (opens : L.Opens id r hand)
    (plans : ∀ {id d}, L.library[id]? = some d → (L.plan id).Draws d.template) (event : Event)
    (h : Handler) :
    Ends (fun f => f.Enters (World.Heeds hand) i ∧ Instance.Tended L id r busy [] hand f)
      (h.run engine event) (fun _ => Instance.Tended L id r busy [] hand)
      (Failing (Instance.Tended L id r busy [] hand)) := by
  have said (entries : List Entry) {E : Stop → Focus Instance → Prop} :
      Ends (Instance.Tended L id r busy [] hand) (Holding.outside (Run.say entries))
        (fun _ => Instance.Tended L id r busy [] hand) E :=
    .outside fun _ => .modify fun _ h => ⟨h.root, h.definition, h.minds.congr rfl rfl rfl rfl⟩
  have updated : Ends (Instance.Tended L id r busy [] hand) (do let _ ← Instance.update engine)
      (fun _ => Instance.Tended L id r busy [] hand)
      (Failing (Instance.Tended L id r busy [] hand)) :=
    (Instance.update_tidy opens plans tidies hl).bind fun _ => .pure fun _ h => h
  have written (path : Path) (value : Value) {E : Stop → Focus Instance → Prop} :
      Ends (Instance.Tended L id r busy [] hand) (writeState path value)
        (fun _ => Instance.Tended L id r busy [] hand) E := Instance.writeState_tidy path value
  -- Only those who raise events have to know how their instance came to be held.
  have tended {x : Holding Instance Unit} (hx : Ends (Instance.Tended L id r busy [] hand) x
      (fun _ => Instance.Tended L id r busy [] hand) (Failing (Instance.Tended L id r busy [] hand))) :
      Ends (fun f => f.Enters (World.Heeds hand) i ∧ Instance.Tended L id r busy [] hand f) x
        (fun _ => Instance.Tended L id r busy [] hand)
        (Failing (Instance.Tended L id r busy [] hand)) := hx.pre fun _ h => h.2
  cases h with
  | record tag => exact tended (said _)
  | fail message => exact tended (x := Holding.outside (Run.fail _)) (.outside fun _ => .fail)
  | write path => exact tended ((written path _).bind fun _ => said _)
  | increment path =>
    exact tended ((Ends.held.post fun _ _ h => h.2).bind fun inst =>
      (written path _).bind fun _ => updated)
  | setState =>
    unfold run
    exact tended (Instance.change_tidy fun _ => ⟨rfl, rfl, rfl, rfl⟩)
  | update => exact tended updated
  | render controller =>
    exact tended ((Instance.render_tidy opens plans tidies hl _ controller).bind fun _ =>
      .pure fun _ h => h)
  | updatePart name =>
    exact tended ((Instance.updatePart_tidy opens plans tidies hl name).bind fun _ =>
      .pure fun _ h => h)
  | dispatch name =>
    refine .outside fun inst => Ends.bind (Q := fun _ w => Instance.Tended L id r busy [] hand ⟨inst, w⟩)
      (.pointwise fun w hw => ?_) fun _ => .modify fun _ h =>
        ⟨h.root, h.definition, h.minds.congr rfl rfl rfl rfl⟩
    obtain ⟨⟨before, heeds, get, rfl⟩, root, definition, minds⟩ := hw
    exact (minds.raise opens (heeds.take get) raises hl event.target name event.value).mono
      (fun _ h => h) (fun _ _ h => ⟨root, definition, h⟩)
      fun _ _ h => h.mono fun h => ⟨root, definition, h⟩
  | publish name value =>
    -- Nothing is published.
    refine .outside fun inst => Ends.bind (Q := fun _ w => Instance.Tended L id r busy [] hand ⟨inst, w⟩)
      (.pointwise fun w hw => ?_) fun _ => .modify fun _ h =>
        ⟨h.root, h.definition, h.minds.congr rfl rfl rfl rfl⟩
    obtain ⟨⟨before, heeds, -, rfl⟩, tended⟩ := hw
    refine (hears.publish name value { before with busy := i :: before.busy } heeds.published).mono
      (fun _ h => h) ?_ ?_
    · rintro _ _ rfl
      exact tended
    · rintro _ _ ⟨given, -⟩
      exact .of_givenUp given
  | dismount => exact tended (Retire.dismount_inPlace Run.retire_tidy opens).failing
  | bind path => exact tended ((written path _).bind fun _ => updated)

include orderly

/-- A listener leaves a tidy world tidy. -/
theorem Listener.hear_tidy (event : Event) (l : Listener) :
    Ends (fun w => w.Heeds hand ∧ w.Neat L busy [] hand) (l.hear engine event)
      (fun _ => World.Neat L busy [] hand) (Failing (World.Neat L busy [] hand)) := by
  have said (entries : List Entry) {E : Stop → World → Prop} :
      Ends (World.Neat L busy [] hand) (Run.say entries) (fun _ => World.Neat L busy [] hand) E :=
    .modify fun _ neat => neat.imp fun _ tidy => tidy.congr rfl rfl rfl rfl
  cases l with
  | probe tag => exact (said _).pre fun _ h => h.2
  | bound owner handler =>
    show Ends _ (Run.handle engine event owner handler) _ _
    unfold Run.handle
    refine Ends.get.bind fun v => .pointwise ?_
    rintro w ⟨rfl, heeds, neat⟩
    split
    · next used =>
      split
      · exact (said _).pre (by rintro _ rfl; exact neat)
      · have held : Ends (v = ·) (Run.hold owner (handler.run engine event))
            (fun _ => World.Neat L busy [] hand) (Failing (World.Neat L busy [] hand)) :=
          (Ends.hold_tidy (S := fun _ => True) (P := fun w => w.Heeds hand ∧ w.inUse owner = true)
            (fun _ => trivial) (fun pre tidy get free => tidy.alive_of_inUse pre.1 pre.2 get free)
            (handler.run_orderly orderly hl (fun _ h => h) event) fun M id r hM plans opens =>
              (handler.run_tidy tidies hears raises (hM.trans hl) opens plans event).mono
                (fun _ h => ⟨h.1.imp fun _ e => ⟨e.1.1, e.2⟩, h.2⟩) (fun _ _ h => h)
                fun _ _ h => ⟨trivial, h⟩).mono
            (by rintro _ rfl; exact ⟨⟨heeds, used⟩, neat⟩) (fun _ _ h => h) fun _ _ h => h.2
        refine Ends.bind held.attempt fun result => ?_
        cases result with
        | ok _ => exact .pure fun _ h => h.1 _ rfl
        | error fault =>
          -- A handler that fails is noted.
          refine Ends.pre (P := World.Neat L busy [] hand) ?_ fun _ h => h.2 fault rfl fault rfl
          refine Ends.bind ((Ends.look (fun _ _ => .of_abort) fun _ _ => .of_abort).post
            fun _ _ h => h.2.2) fun inst => ?_
          exact Ends.bind ((Ends.definition fun _ _ => .of_abort).post fun _ _ h => h.2) fun _ => said _
    · exact .pure (by rintro _ rfl; exact neat)

/-- All listeners of a node do. -/
theorem Run.dispatch_tidy {lib : Library} (lasts : engine.Lasts lib) (silent : lib.Silent)
    (target : NodeId) (name : String) (value : Value) :
    Ends (fun w => w.Heeds hand ∧ w.Neat L busy [] hand) (Run.dispatch engine target name value)
      (fun _ w => w.Heeds hand ∧ w.Neat L busy [] hand) (Failing (World.Neat L busy [] hand)) := by
  unfold Run.dispatch
  refine Ends.get.bind fun v => Ends.bind (Q := fun _ w => w.Heeds hand ∧ w.Neat L busy [] hand) ?_
    fun _ => .pure fun _ h => h
  refine Ends.pre (.forM fun l _ => .pointwise fun w hw => ?_) fun _ h => h.2
  exact ((l.hear_tidy orderly tidies hears raises hl _).and
    (l.hear_hears lasts silent hears _ w)).mono (by rintro _ rfl; exact ⟨hw, rfl⟩)
    (fun _ _ h => ⟨hw.1.abides (h.2 hw.1.published), h.1⟩) fun _ _ h => h.1

end Raises

/-- In a silent library whose definitions use earlier ones, every engine raises events in tidy
worlds. -/
theorem Engine.nested_raises {lib : Library} (ranked : lib.Ranked) (silent : lib.Silent) (depth : Nat) :
    (nested lib depth).Raises := by
  induction depth with
  | zero => exact fun _ _ _ _ _ _ _ => .giveUp
  | succ depth ih =>
    intro L busy hand target name value hl
    obtain ⟨orderly, library⟩ := nested_orderly ranked depth
    exact ((Run.dispatch_tidy orderly (nested_tidy ranked depth) (nested_hears silent depth) ih
      (hl.trans library.symm) (nested_lasts silent depth) silent target name value).post
        fun _ _ h => h.2)

end ComponentView
