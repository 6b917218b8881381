import ComponentView.Engine.Nested
import ComponentView.Proofs.Ownership.Walk
import ComponentView.Proofs.Stillness.Update

/-! # Updates keep the order

An instance that was updated has nothing left to do (`Instance.update_steady`), and that stays so
while it and what it holds are left as they are (`Engine.Updated.update_still`). So the engine above
one that keeps the order keeps it, too, and every engine of a library of sound templates does
(`Engine.nested_steady`). -/

namespace ComponentView

/-- Among instances of which one more is held, less is reached. -/
theorem World.Reaches.of_hold {w : World} {i j k : InstanceId}
    (h : World.Reaches { w with busy := i :: w.busy } j k) : w.Reaches j k := by
  refine Relation.ReflTransGen.mono (fun m n hn => ?_) _ _ h
  rw [placed] at hn ⊢
  split at hn
  · cases hn
  · next hm => rwa [if_neg fun hb => hm (List.mem_cons_of_mem _ hb)]

namespace Instance

variable {engine : Engine} {frame : Frame} {busy hand : List InstanceId} {i : InstanceId}
  {f : Focus Instance} {w v : World} {inst : Instance} {d : Definition}

/-- In the world around it nothing has come up for the instance to do. -/
def Done (engine : Engine) (w : World) (inst : Instance) : Prop :=
  ∀ d, engine.library[inst.definition]? = some d →
    inst.Rests engine (engine.Idle w inst.controller) d

/-! ## Updates -/

/-- What a pass over an instance left is an instance again. -/
theorem housed_of_stocked {others : List InstanceId} {later : Focus Pass}
    (hd : frame.library[inst.definition]? = some d)
    (elements : inst.elements.length = d.template.slots.length)
    (definition : w.definition? i = some inst.definition)
    (h : Pass.Stocked (.ofInstance engine d inst) (frame.widen w others) (i :: busy) hand
      inst.definition later) :
    Housed (frame.widen w others) busy hand i ⟨later.held.finish inst, later.world⟩ where
  stocks := h.stocks
  shaped := ⟨d, hd, ⟨elements, h.fits.stash⟩, h.cache⟩
  definition := h.stocks.orderly.grown definition

section Steady

variable (steady : engine.Steady) (hl : frame.library = engine.library)
  (sound : engine.library.Sound)

include steady hl sound

/-- An update of a window leaves nothing to do for the watches that are shown. -/
theorem updateWindow_steady (start stop : Nat) (housed : Housed frame busy hand i f) :
    Ends (f = ·) (updateWindow engine start stop)
      (fun _ later => Housed frame busy hand i later ∧ (∃ p : Pass, later.held = p.finish f.held) ∧
        ∀ d, engine.library[later.held.definition]? = some d →
          ∀ x ∈ (Setting.ofInstance engine d later.held).shown (d.template.window start stop),
            x.1.Rests (.ofInstance engine d later.held)
              (engine.Idle later.world later.held.controller)
              (Pass.start d.template later.held) x.2)
      (Failing (Housed frame busy hand i)) := by
  obtain ⟨inst, w⟩ := f
  obtain ⟨stocks, ⟨d, hd, fits, cache⟩, definition⟩ := housed.widen (List.nil_subset _)
  have known : engine.library[inst.definition]? = some d := hl ▸ hd
  have back {later : Focus Pass} (h : Pass.Stocked (.ofInstance engine d inst)
      (frame.widen w []) (i :: busy) hand inst.definition later) :
      Housed frame busy hand i ⟨later.held.finish inst, later.world⟩ :=
    (Housed.narrow housed.stocks.orderly (housed_of_stocked hd fits.elements definition h)).1
  refine (updateWindow_ends (P := (w = ·)) known ?_).pre (by rintro _ rfl; exact ⟨rfl, rfl⟩)
  refine (Pass.walk_steady (s := .ofInstance engine d inst) steady
    (show (frame.widen w []).library = _ from hl) (sound _ d known).apart
    (Template.exactWindow (sound _ d known).skips start stop)
    fun x hx => (Setting.mem_window.mp hx).2.2).mono ?_ (fun _ later h => ?_)
      fun _ later h => h.mono back
  · rintro ⟨_, _⟩ ⟨rfl, rfl⟩
    exact ⟨stocks, ⟨Memo.keeps_empty _ _, fits.stash⟩, cache⟩
  · refine ⟨back h.1, ⟨_, rfl⟩, fun d' hd' x hx => ?_⟩
    obtain rfl := Option.some.inj (known.symm.trans hd')
    have rests := h.2 x hx
    exact ⟨rests.moved, rests.seen, rests.rendered⟩

/-- An update leaves nothing to do. -/
theorem update_steady (housed : Housed frame busy hand i f) :
    Ends (f = ·) (update engine)
      (fun _ later => Housed frame busy hand i later ∧ (∃ p : Pass, later.held = p.finish f.held) ∧
        later.held.Done engine later.world)
      (Failing (Housed frame busy hand i)) := by
  obtain ⟨d, hd, -⟩ := housed.shaped
  have known : engine.library[f.held.definition]? = some d := hl ▸ hd
  refine (update_ends (P := (f.world = ·)) known ?_).pre (by rintro _ rfl; exact ⟨rfl, rfl⟩)
  refine (updateWindow_steady steady hl sound _ _ housed).mono ?_ (fun _ later h => ?_)
    fun _ _ h => h
  · rintro ⟨_, _⟩ ⟨rfl, rfl⟩
    rfl
  · obtain ⟨housed', ⟨p, hp⟩, rests⟩ := h
    refine ⟨housed', ⟨p, hp⟩, fun d' hd' => ?_⟩
    obtain rfl : d = d' := Option.some.inj (known.symm.trans (by rw [hp] at hd'; exact hd'))
    exact rests d hd'

end Steady

end Instance

/-! ## Instances that were updated -/

/-- The instance is there, and nothing has come up for it to do since it was updated. -/
structure Engine.Updated (engine : Engine) (w : World) (i : InstanceId) (inst : Instance) : Prop where
  there : w.instances[i]? = some inst
  done : inst.Done engine { w with busy := i :: w.busy }

namespace Engine

variable {engine : Engine} {frame : Frame} {busy hand : List InstanceId} {i : InstanceId}
  {f : Focus Instance} {w v : World} {inst : Instance}

/-- A held instance with nothing left to do is so when it is put back. -/
theorem Updated.of_housed (housed : Instance.Housed frame busy hand i f)
    (done : f.held.Done engine f.world) : engine.Updated (Run.hold.back i busy f) i f.held where
  there := by
    have := World.isSome_definition?.mp (housed.definition ▸ rfl : (f.world.definition? i).isSome)
    simp [Run.hold.back, this]
  done d hd := by
    refine (done d hd).imp fun j _ value idle => idle.leaves ⟨housed.stocks.orderly.busy_eq.symm,
      fun k _ hk => ?_⟩
    have : k ≠ i := fun he => hk (he ▸ housed.stocks.orderly.busy_eq ▸ List.mem_cons_self)
    exact Array.getElem?_setIfInBounds_ne (Ne.symm this)

/-- Wherever an updated instance and what it holds are as they were, it rests when it is held. -/
theorem Updated.settled (h : engine.Updated w i inst) (orderly : w.Orderly frame busy hand)
    (hl : frame.library = engine.library) (free : ∀ j, w.Reaches i j → j ∉ w.busy)
    (known : ∀ j, w.Reaches i j → v.instances[j]? = w.instances[j]? ∧ j ∉ v.busy) :
    ∃ d, engine.library[inst.definition]? = some d ∧ inst.Fits d.template ∧
      Pass.Settled (Pass.start d.template inst) { v with busy := i :: v.busy } ∧
      inst.Rests engine (engine.Still { v with busy := i :: v.busy } inst.controller) d := by
  have hb : i ∉ w.busy := free i .refl
  obtain ⟨d, hd, fits, -⟩ := (orderly.sound h.there (orderly.busy_eq ▸ hb)).shaped
  have holds {j : InstanceId} (hj : j ∈ inst.held) : j ∈ w.placed [] (.stash i) :=
    World.mem_placed_stash hb h.there ▸ hj
  -- What is reached from what the instance holds is another instance and is as it was.
  have reached {j k : InstanceId} (hj : j ∈ inst.held) (hk : w.Reaches j k) :
      k ≠ i ∧ w.Reaches i k :=
    ⟨orderly.ne_of_reaches (holds hj) hk, .head (holds hj) hk⟩
  refine ⟨d, hl ▸ hd, fits, ⟨fun j hj => ?_, i, v.busy, inst, rfl, ?_, rfl⟩,
    (h.done d (hl ▸ hd)).imp fun j hj value idle => idle (fun k hk => ?_) _ fun k hk => ?_⟩
  · obtain ⟨hne, hr⟩ := reached hj .refl
    obtain ⟨same, hbusy⟩ := known j hr
    obtain ⟨k, -, hk⟩ := orderly.lt_of_holds (holds hj) (World.definition?_of_get h.there)
    refine ⟨?_, List.not_mem_cons_of_ne_of_not_mem hne hbusy⟩
    show (v.instances[j]?).isSome
    rw [same]
    exact World.isSome_definition?.mp (hk ▸ rfl : (w.definition? j).isSome) |> fun hlt => by
      simp [hlt]
  · exact (known i .refl).1.trans h.there
  · obtain ⟨hne, hr⟩ := reached hj hk.of_hold
    exact List.not_mem_cons_of_ne_of_not_mem hne (free k hr)
  · obtain ⟨hne, hr⟩ := reached hj hk.of_hold
    exact ⟨(known k hr).1, List.not_mem_cons_of_ne_of_not_mem hne (known k hr).2⟩

/-- Updating an updated instance changes nothing. -/
theorem Updated.update_still (h : engine.Updated w i inst) (orderly : w.Orderly frame busy hand)
    (hl : frame.library = engine.library) (sound : engine.library.Sound)
    (free : ∀ j, w.Reaches i j → j ∉ w.busy)
    (known : ∀ j, w.Reaches i j → v.instances[j]? = w.instances[j]? ∧ j ∉ v.busy) :
    ∃ d, engine.library[inst.definition]? = some d ∧
      Ends v.Alike (Run.hold i (Instance.update engine))
        (fun stats later => stats = (Setting.ofInstance engine d inst).quiet
          (d.template.window 0 d.template.watches.length) ∧ v.Alike later) fun _ _ => False := by
  obtain ⟨d, hd, fits, settled, rests⟩ := h.settled orderly hl free known
  exact ⟨d, hd, Ends.hold_still ((known i .refl).1.trans h.there) (known i .refl).2
    (Instance.update_still hd (sound _ d hd) fits settled rests)⟩

/-- An instance that was rendered has nothing left to do for the engine above. -/
theorem Updated.idle {below : Unit → Engine} {lib : Library} (h : (below ()).Updated w i inst)
    (orderly : w.Orderly frame busy hand) (hl : frame.library = (below ()).library)
    (sound : (below ()).library.Sound) (mounted : inst.mounted = true) :
    (above below lib).Idle w inst.controller i inst.props := by
  intro free v known
  obtain ⟨d, hd, fits, settled, rests⟩ := h.settled orderly hl free known
  have there : v.instances[i]? = some inst := (known i .refl).1.trans h.there
  refine ⟨there ▸ rfl, (known i .refl).2, ?_⟩
  exact (Ends.hold_still (Q := fun _ => True) there (known i .refl).2
    ((Instance.render_still hd (sound _ d hd) fits settled rests mounted).post
      fun _ _ h => ⟨trivial, h⟩)).post fun _ _ h => h.2

end Engine

/-! ## Engines -/

/-- A spare instance comes into hand if there is one. -/
theorem Run.popPool_orderly {frame : Frame} {busy hand : List InstanceId} (id : DefinitionId)
    {E : Stop → World → Prop} :
    Ends (World.Orderly frame busy hand) (popPool id)
      (fun spare w => w.Orderly frame busy (spare.toList ++ hand) ∧
        ∀ i ∈ spare, w.definition? i = some id ∧ ¬ frame.still i) E := by
  refine .modifyGet fun w hw => ?_
  cases hp : w.pool id with
  | nil => exact ⟨hw, nofun⟩
  | cons i rest =>
    obtain ⟨orderly, hd, hs⟩ := hw.pop hp
    exact ⟨orderly, by rintro j ⟨⟩; exact ⟨hd, hs⟩⟩

namespace Run

variable {engine : Engine} {frame : Frame} {busy hand : List InstanceId} {i : InstanceId}

/-- What is done with a held instance changes it by `change` and then updates it. -/
def Renews (engine : Engine) (frame : Frame) (busy hand : List InstanceId) (i : InstanceId)
    (change : Instance → Instance) {α : Type} (x : Holding Instance α) : Prop :=
  ∀ f, Instance.Housed frame busy hand i f → Ends (f = ·) x
    (fun _ later => Instance.Housed frame busy hand i later ∧
      (∃ p : Pass, later.held = p.finish (change f.held)) ∧ later.held.Done engine later.world)
    (Failing (Instance.Housed frame busy hand i))

/-- An instance that is held meanwhile comes out of it changed and updated. -/
theorem Renews.hold {α : Type} {x : Holding Instance α} {change : Instance → Instance}
    (h : Renews engine frame busy hand i change x) (hs : ¬ frame.still i) {inst : Instance} :
    Ends (fun w => w.Orderly frame busy hand ∧ w.instances[i]? = some inst) (Run.hold i x)
      (fun _ w => w.Orderly frame busy hand ∧
        ∃ p : Pass, engine.Updated w i (p.finish (change inst)))
      (Failing (World.Orderly frame busy hand)) := by
  refine (Ends.hold_housed (S := fun _ => True) (A := fun f => f.held = inst) (fun _ => trivial) hs
    (.pointwise fun f hf => ?_)).mono (fun w hw => ⟨hw.1, fun inst' hi => ?_⟩) (fun _ _ h => h)
      fun _ _ h => h.2
  · obtain ⟨housed, rfl⟩ := hf
    refine (h f housed).mono (fun _ h => h) (fun _ later hd => ?_) fun _ _ h => ⟨trivial, h⟩
    obtain ⟨housed', ⟨p, hp⟩, done⟩ := hd
    exact ⟨housed', p, hp ▸ .of_housed housed' done⟩
  · exact Option.some.inj (hi.symm.trans hw.2)

/-- That an instance is mounted makes no difference to what is left to do. -/
theorem hold_mount (hs : ¬ frame.still i) {inst : Instance} :
    Ends (fun w => w.Orderly frame busy hand ∧ engine.Updated w i inst)
      (Run.hold i (Holding.change fun inst => { inst with mounted := true }))
      (fun _ w => w.Orderly frame busy hand ∧ engine.Updated w i { inst with mounted := true })
      (Failing (World.Orderly frame busy hand)) := by
  refine (Ends.hold_housed (S := fun _ => True)
    (A := fun f => f.held = inst ∧ f.held.Done engine f.world) (fun _ => trivial) hs
    (Q := fun _ v => engine.Updated v i { inst with mounted := true })
    (.change fun given v hf => ?_)).mono (fun w h => ⟨h.1, fun given hi => ?_⟩) (fun _ _ h => h)
      fun _ _ h => h.2
  · obtain ⟨housed, rfl, done⟩ := hf
    have housed : Instance.Housed frame busy hand i ⟨{ given with mounted := true }, v⟩ :=
      housed.congr rfl rfl rfl rfl
    refine ⟨housed, .of_housed housed fun d hd x hx => ?_⟩
    have rests := done d hd x hx
    exact ⟨rests.moved, rests.seen, rests.rendered⟩
  · obtain rfl := Option.some.inj (hi.symm.trans h.2.there)
    exact ⟨rfl, h.2.done⟩

section Steady

variable (steady : engine.Steady) (hl : frame.library = engine.library)
  (sound : engine.library.Sound)

include steady hl sound

/-- An update renews an instance as it is. -/
theorem renews_update : Renews engine frame busy hand i (fun inst => inst) (Instance.update engine) :=
  fun _ housed => Instance.update_steady steady hl sound housed

/-- A render renews an instance with its props and controller. -/
theorem renews_render (props : Value) (controller : Controller) :
    Renews engine frame busy hand i
      (fun inst => { inst with props := props, controller := controller, mounted := true })
      (Instance.render engine props controller) := by
  intro f housed
  have given : Instance.Housed frame busy hand i
      ⟨{ f.held with props, controller, mounted := true }, f.world⟩ := housed.congr rfl rfl rfl rfl
  refine Ends.bind (Q := fun _ => (_ = ·)) (.change ?_) fun _ =>
    Instance.update_steady steady hl sound given
  rintro _ _ rfl
  rfl

end Steady

section Steady

variable {below : Unit → Engine} {lib : Library} (steady : (below ()).Steady)
  (hl : frame.library = (below ()).library) (sound : (below ()).library.Sound)

include steady hl sound

/-- An instance that is held and rendered has nothing left to do. -/
theorem hold_render_steady {id : DefinitionId} (hs : ¬ frame.still i) (props : Value)
    (controller : Controller) :
    Ends (fun w => w.Orderly frame busy hand ∧ w.definition? i = some id)
      (hold i (Instance.render (below ()) props controller))
      (fun _ w => w.Orderly frame busy hand ∧ w.definition? i = some id ∧
        (Engine.above below lib).Idle w controller i props)
      (Failing (World.Orderly frame busy hand)) := by
  refine .pointwise fun w hw => ?_
  obtain ⟨orderly, hd⟩ := hw
  obtain ⟨inst, hi, rfl⟩ := Option.map_eq_some_iff.mp hd
  refine ((renews_render steady hl sound props controller).hold hs).mono
    (by rintro _ rfl; exact ⟨orderly, hi⟩) (fun _ v h => ?_) fun _ _ h => h
  obtain ⟨orderly', p, updated⟩ := h
  have definition := World.definition?_of_get updated.there
  exact ⟨orderly', definition, updated.idle orderly' hl sound rfl⟩

/-- A new instance has nothing left to do. -/
theorem construct_steady (ranked : (below ()).library.Ranked) (id : DefinitionId)
    (props : Value) (controller : Controller) :
    Ends (World.Orderly frame busy hand) (construct (below ()) id props controller)
      (fun i w => w.Orderly frame busy (i :: hand) ∧ w.definition? i = some id ∧
        ¬ frame.still i ∧ (Engine.above below lib).Idle w controller i props)
      (Failing (World.Orderly frame busy hand)) := by
  unfold construct
  refine (build_orderly ranked hl id props controller).bind fun i => .pointwise fun w hw => ?_
  obtain ⟨orderly, ⟨inst, hi, rfl, rfl, rfl⟩, hs⟩ := hw
  have updates : Ends (fun v => v.Orderly frame busy (i :: hand) ∧ v.instances[i]? = some inst)
      (hold i (Instance.update (below ()))) (fun _ v => v.Orderly frame busy (i :: hand) ∧
        ∃ p : Pass, (below ()).Updated v i (p.finish inst))
      (Failing (World.Orderly frame busy (i :: hand))) := (renews_update steady hl sound).hold hs
  refine Ends.bind (updates.attempt.mono (by rintro _ rfl; exact ⟨orderly, hi⟩) (fun _ _ h => h)
    fun _ _ h => h.mono World.Orderly.of_cons) fun r => ?_
  cases r with
  | ok stats =>
    refine .pointwise fun v hv => ?_
    obtain ⟨orderly', p, updated⟩ := hv.1 stats rfl
    refine Ends.bind ((hold_mount hs).mono (by rintro _ rfl; exact ⟨orderly', updated⟩)
      (fun _ _ h => h) fun _ _ h => h.mono World.Orderly.of_cons) fun _ => .pure fun v' h => ?_
    have definition := World.definition?_of_get h.2.there
    exact ⟨h.1, definition, hs, h.2.idle h.1 hl sound rfl⟩
  | error fault =>
    refine Ends.bind (Q := fun _ => World.Orderly frame busy hand)
      ((retire_orderly .destroy i hs).mono (fun v hv => hv.2 fault rfl fault rfl)
        (fun _ _ h => h.of_cons) fun _ _ h => .of_givenUp h) fun _ => .fail

end Steady

end Run

namespace Engine

/-- The engine above one that keeps the order keeps it. -/
theorem above_steady {below : Unit → Engine} {lib : Library} (steady : (below ()).Steady)
    (hb : (below ()).library = lib) (ranked : lib.Ranked) (sound : lib.Sound) :
    (above below lib).Steady where
  render {frame busy hand} i props controller hl hs := by
    have hl' : frame.library = (below ()).library := hl.trans hb.symm
    intro w hw
    cases hd : w.definition? i with
    | some id =>
      exact ((Run.hold_render_steady steady hl' (hb ▸ sound) hs props controller).post
        fun _ _ h => ⟨h.1, h.2.2⟩) w ⟨hw, hd⟩
    | none =>
      -- An instance that is not there cannot be held.
      have : w.instances[i]? = none := by simpa [World.definition?] using hd
      unfold above Run.hold Run.look
      simp only [this]
      exact .of_abort
  acquire {frame busy hand} id share props controller hl := by
    have hl' : frame.library = (below ()).library := hl.trans hb.symm
    show Ends _ (Run.acquire (below ()) id share props controller) _ _
    unfold Run.acquire
    refine (Ends.definition fun _ _ => .of_abort).bind fun d => .assume fun _ => ?_
    have reused (line : String) (i : InstanceId) : Ends (fun w => w.Orderly frame busy (i :: hand) ∧
        w.definition? i = some id ∧ ¬ frame.still i)
        (do
          Run.log .debug line
          let _ ← Run.hold i (Instance.render (below ()) props controller)
          return i)
        (fun i w => w.Orderly frame busy (i :: hand) ∧ w.definition? i = some id ∧
          ¬ frame.still i ∧ (above below lib).Idle w controller i props)
        (Failing (World.Orderly frame busy hand)) := by
      refine .pointwise fun w hw => ?_
      obtain ⟨orderly, hd, hs⟩ := hw
      refine Ends.bind (Q := fun _ w => w.Orderly frame busy (i :: hand) ∧
        w.definition? i = some id) (.modify ?_) fun _ => ?_
      · rintro _ rfl
        exact ⟨orderly.congr rfl rfl rfl, hd⟩
      · exact ((Run.hold_render_steady steady hl' (hb ▸ sound) hs props controller).mono
          (fun _ h => h) (fun _ _ h => h) fun _ _ h => h.mono World.Orderly.of_cons).bind
          fun _ => .pure fun w h => ⟨h.1, h.2.1, hs, h.2.2⟩
    have fresh (line : String) : Ends (World.Orderly frame busy hand)
        (do
          Run.log .debug line
          Run.construct (below ()) id props controller)
        (fun i w => w.Orderly frame busy (i :: hand) ∧ w.definition? i = some id ∧
          ¬ frame.still i ∧ (above below lib).Idle w controller i props)
        (Failing (World.Orderly frame busy hand)) :=
      Ends.bind (Q := fun _ => World.Orderly frame busy hand)
        (.modify fun w hw => hw.congr rfl rfl rfl) fun _ =>
        Run.construct_steady steady hl' (hb ▸ sound) (hb ▸ ranked) id props controller
    dsimp only
    split
    · refine (Run.popPool_orderly id).bind fun spare => ?_
      cases spare with
      | some i => exact (reused _ i).pre fun w hw => ⟨hw.1, hw.2 i rfl⟩
      | none => exact (fresh _).pre fun w hw => hw.1
    · refine Ends.bind (Q := fun spare w => spare = none ∧ World.Orderly frame busy hand w)
        (.pure fun _ hw => ⟨rfl, hw⟩) fun spare => .assume fun hs => ?_
      subst hs
      exact fresh _

/-- Every engine of a library of sound templates keeps the order. -/
theorem nested_steady {lib : Library} (ranked : lib.Ranked) (sound : lib.Sound) (depth : Nat) :
    (nested lib depth).Steady ∧ (nested lib depth).library = lib := by
  induction depth with
  | zero => exact ⟨⟨fun _ _ _ _ _ => .giveUp, fun _ _ _ _ _ => .giveUp⟩, rfl⟩
  | succ depth ih => exact ⟨above_steady ih.1 ih.2 ranked sound, rfl⟩

end Engine

end ComponentView
