import ComponentView.Proofs.Ownership.Keeping
import ComponentView.Proofs.Ownership.Update

/-! # Whatever effects do keeps the order

An effect may do more than write: it may fail, raise an event or publish a value, and so have any
instance worked on that is not held. As long as no instance has to stay as it is, repeaters, passes
and updates keep the order all the same, whether they end well or fail on the way
(`Instance.update_orderly`), and a new instance comes into hand (`Run.construct_brings`,
`Run.acquire_brings`). -/

namespace ComponentView

variable {α β : Type} {frame : Frame} {busy hand rows : List InstanceId} {id : DefinitionId}

/-! ## Repeaters -/

/-- A new row is taken up, and joins the repeater that is held. -/
theorem Engine.Orderly.recruit {engine : Engine} (orderly : engine.Orderly)
    (hl : frame.library = engine.library) (hs : ∀ i, ¬ frame.still i) {a : α} (share : Bool)
    (item : Value) (controller : Controller) {g : InstanceId → Holding α β}
    {Q : β → Focus α → Prop} {E : Stop → Focus α → Prop}
    (failed : ∀ stop f, f.held = a ∧ Failing (World.Rows frame busy hand id rows) stop f.world →
      E stop f)
    (hg : ∀ i, Ends (fun f => f.held = a ∧ f.world.Rows frame busy hand id (rows ++ [i])) (g i)
      Q E) :
    Ends (fun f => f.held = a ∧ f.world.Rows frame busy hand id rows)
      (do
        let i ← Holding.outside (engine.acquire id share item controller)
        Holding.outside (Run.welcome i)
        g i) Q E := by
  refine ((Ends.outside_at ((orderly.acquire id share item controller).rows hl hs)).mono
    (fun _ h => h) (fun _ _ h => h) failed).bind fun i => ?_
  refine Ends.bind (Q := fun _ f => f.held = a ∧ f.world.Rows frame busy hand id (rows ++ [i]))
    (.outside fun b => .modify fun w h => ?_) fun _ => hg i
  exact ⟨h.1, h.2.congr rfl rfl rfl⟩

namespace Sequential

variable {engine : Engine} (orderly : engine.Orderly) (hl : frame.library = engine.library)
  (hs : ∀ i, ¬ frame.still i) (controller : Controller)

include orderly hl hs

/-- The position of an item comes to have an instance. -/
theorem instanceFor_orderly (position : Nat) (item : Value) :
    Ends (fun f => f.world.Stocks frame busy hand id [.sequential f.held])
      (instanceFor engine controller position item)
      (fun _ f => f.world.Stocks frame busy hand id [.sequential f.held])
      (Failing fun f => f.world.Stocks frame busy hand id [.sequential f.held]) := by
  rintro ⟨r, w⟩ stocks
  obtain ⟨hlt, rows⟩ := World.stocks_sequential.mp stocks
  have failed (stop : Stop) (f : Focus Sequential) (h : f.held = r ∧
      Failing (World.Rows frame busy hand r.definition r.instances) stop f.world) :
      Failing (fun f => f.world.Stocks frame busy hand id [.sequential f.held]) stop f :=
    h.2.mono fun rows => World.stocks_sequential.mpr (h.1.symm ▸ ⟨hlt, rows⟩)
  refine (?_ : Ends (fun f => f.held = r ∧
    f.world.Rows frame busy hand r.definition r.instances) _ _ _) _ ⟨rfl, rows⟩
  refine .held_bind ?_
  split
  · next i _ =>
    refine ((Ends.outside_at ((orderly.render i item controller).rows hl hs)).mono
      (fun _ h => h) (fun _ _ h => h) failed).bind fun _ => .pure fun f h => ?_
    exact World.stocks_sequential.mpr (h.1.symm ▸ ⟨hlt, h.2⟩)
  · refine orderly.recruit hl hs r.share item controller failed fun i => ?_
    refine Ends.bind (Q := fun _ f => f.world.Stocks frame busy hand id [.sequential f.held])
      (.change fun r w h => ?_) fun _ => .pure fun _ h => h
    obtain ⟨rfl, rows⟩ := h
    exact World.stocks_sequential.mpr ⟨hlt, rows⟩

/-- Showing the items from a position on keeps the order. -/
theorem showItems_orderly (container : NodeId) (anchor : Option NodeId) (position : Nat)
    (items : List Value) :
    Ends (fun f => f.world.Stocks frame busy hand id [.sequential f.held])
      (showItems engine container anchor controller position items)
      (fun _ f => f.world.Stocks frame busy hand id [.sequential f.held])
      (Failing fun f => f.world.Stocks frame busy hand id [.sequential f.held]) := by
  induction items generalizing position with
  | nil => exact .pure fun _ h => h
  | cons item items ih =>
    refine Ends.bind ((instanceFor_orderly orderly hl hs controller position item).bind fun i =>
      (Ends.held.post fun _ _ h => h.2).bind fun r => ?_) fun _ => ih (position + 1)
    split
    · refine Ends.bind (Q := fun _ f => f.world.Stocks frame busy hand id [.sequential f.held])
        (.outside fun r => ?_) fun _ => .change fun r w stocks => ?_
      · exact (Ends.rootOf (fun _ _ => .of_abort) fun _ _ => .of_abort).bind fun root =>
          .modify fun w h => h.2.2.congr rfl rfl rfl
      · obtain ⟨hlt, rows⟩ := World.stocks_sequential.mp stocks
        exact World.stocks_sequential.mpr ⟨hlt, rows⟩
    · exact .pure fun _ h => h

/-- A patch keeps the order. -/
theorem patch_orderly (container : NodeId) (anchor : Option NodeId) (items : List Value) :
    Ends (fun f => f.world.Stocks frame busy hand id [.sequential f.held])
      (patch engine container anchor items controller)
      (fun _ f => f.world.Stocks frame busy hand id [.sequential f.held])
      (Failing fun f => f.world.Stocks frame busy hand id [.sequential f.held]) := by
  have served {f : Focus Sequential}
      (stocks : f.world.Stocks frame busy hand id [.sequential f.held]) :
      Served engine frame busy hand id controller 0 [] f :=
    ⟨stocks, Nat.zero_le _, Nat.zero_le _, nofun⟩
  have withdrawn : Ends (fun f => f.world.Stocks frame busy hand id [.sequential f.held])
      (withdraw container items.length)
      (fun _ f => f.world.Stocks frame busy hand id [.sequential f.held])
      (Failing fun f => f.world.Stocks frame busy hand id [.sequential f.held]) :=
    (withdraw_steady container (Nat.zero_le _)).mono (fun _ h => served h) (fun _ _ h => h.2.stocks)
      fun _ _ h => h
  have given : Ends (fun f => f.world.Stocks frame busy hand id [.sequential f.held])
      (giveBackFrom items.length)
      (fun _ f => f.world.Stocks frame busy hand id [.sequential f.held])
      (Failing fun f => f.world.Stocks frame busy hand id [.sequential f.held]) :=
    .pointwise fun f stocks => (giveBackFrom_steady stocks).mono (by rintro _ rfl; exact ⟨rfl, rfl⟩)
      (fun _ _ h => h.1) fun _ _ h => h
  exact .welcoming (((showItems_orderly orderly hl hs controller container anchor 0 items).bind
    fun _ => withdrawn.bind fun _ => given).mono (fun _ h => h)
      (fun _ _ h newcomers => h.congr rfl rfl rfl)
      fun _ _ h newcomers => h.mono fun h => h.congr rfl rfl rfl)

end Sequential

namespace Keyed

variable {engine : Engine} (orderly : engine.Orderly) (hl : frame.library = engine.library)
  (hs : ∀ i, ¬ frame.still i) (controller : Controller) {key : ItemKey} {seen : List ItemKey}

include orderly hl hs

/-- The key of an item comes to have an instance. -/
theorem instanceFor_orderly (item : Value) :
    Ends (Served frame busy hand id seen) (instanceFor engine controller key item)
      (fun _ => Served frame busy hand id seen)
      (Failing fun f => f.world.Stocks frame busy hand id [.keyed f.held]) := by
  rintro ⟨r, w⟩ ⟨stocks, front⟩
  obtain ⟨hlt, order, rows⟩ := World.stocks_keyed.mp stocks
  have failed (stop : Stop) (f : Focus Keyed) (h : f.held = r ∧
      Failing (World.Rows frame busy hand r.definition (r.instances.map (·.2))) stop f.world) :
      Failing (fun f => f.world.Stocks frame busy hand id [.keyed f.held]) stop f :=
    h.2.mono fun rows => World.stocks_keyed.mpr (h.1.symm ▸ ⟨hlt, order, rows⟩)
  refine (?_ : Ends (fun f => f.held = r ∧
    f.world.Rows frame busy hand r.definition (r.instances.map (·.2))) _ _ _) _ ⟨rfl, rows⟩
  refine .held_bind ?_
  split
  · next i _ =>
    refine ((Ends.outside_at ((orderly.render i item controller).rows hl hs)).mono
      (fun _ h => h) (fun _ _ h => h) failed).bind fun _ => .pure fun f h => ?_
    exact ⟨World.stocks_keyed.mpr (h.1.symm ▸ ⟨hlt, order, h.2⟩), h.1.symm ▸ front⟩
  · refine orderly.recruit hl hs r.share item controller failed fun i => ?_
    refine Ends.bind (Q := fun _ => Served frame busy hand id seen) (.change fun r w h => ?_)
      fun _ => .pure fun _ h => h
    obtain ⟨rfl, rows⟩ := h
    exact ⟨World.stocks_keyed.mpr ⟨hlt, order, by simpa using rows⟩, front⟩

/-- Showing the items one after another gives each key that comes the next place. -/
theorem showItems_orderly (container : NodeId) (anchor : Option NodeId) (items : List Value) :
    Ends (Served frame busy hand id seen)
      (showItems engine container anchor controller seen seen.length items)
      (fun n f => f.world.Stocks frame busy hand id [.keyed f.held] ∧ n ≤ f.held.order.length)
      (Failing fun f => f.world.Stocks frame busy hand id [.keyed f.held]) := by
  induction items generalizing seen with
  | nil => exact .pure fun _ served => ⟨served.stocks, served.length_le⟩
  | cons item items ih =>
    -- Finding the key and passing over an item touch nothing but the journal.
    have outside {γ : Type} {x : Run γ} (h : Run.Keeps frame.library x) :
        Ends (Served frame busy hand id seen) (Holding.outside x)
          (fun _ => Served frame busy hand id seen)
          (Failing fun f => f.world.Stocks frame busy hand id [.keyed f.held]) :=
      .outside fun r => .pointwise fun w served => (h.stocks rfl hs served.stocks).mono
        (fun _ h => h) (fun _ _ h => ⟨h.1, served.front⟩) fun _ _ h => h.mono And.left
    refine (Ends.held.post fun _ _ h => h.2).bind fun r => ?_
    refine (outside ?_).bind fun key => ?_
    · unfold itemKey
      dsimp only
      split
      · exact .pure _
      · exact .fail
    split
    · exact (outside ((Run.Keeps.definition _ _).bind fun d => Run.Keeps.log _ _)).bind fun _ => ih
    · next fresh =>
      refine (instanceFor_orderly orderly hl hs controller item).bind fun i => ?_
      refine Ends.bind (Q := fun _ => Served frame busy hand id (key :: seen))
        (.pointwise fun f served => (settle_steady served fresh).post fun _ _ h => h.1) fun _ => ih

/-- A patch keeps the order. -/
theorem patch_orderly (container : NodeId) (anchor : Option NodeId) (items : List Value) :
    Ends (fun f => f.world.Stocks frame busy hand id [.keyed f.held])
      (patch engine container anchor items controller)
      (fun _ f => f.world.Stocks frame busy hand id [.keyed f.held])
      (Failing fun f => f.world.Stocks frame busy hand id [.keyed f.held]) := by
  have shown : Ends (Served frame busy hand id [])
      (showItems engine container anchor controller [] ([] : List ItemKey).length items) _ _ :=
    showItems_orderly orderly hl hs controller container anchor items
  have dropped (n : Nat) : Ends (fun f => f.world.Stocks frame busy hand id [.keyed f.held] ∧
        n ≤ f.held.order.length) (dropFrom container n)
      (fun _ f => f.world.Stocks frame busy hand id [.keyed f.held])
      (Failing fun f => f.world.Stocks frame busy hand id [.keyed f.held]) :=
    .pointwise fun f h => (dropFrom_steady h.1 h.2).mono (fun _ h => h) (fun _ _ h => h.1)
      fun _ _ h => .of_givenUp h
  exact .welcoming ((shown.bind dropped).mono (fun f stocks => ⟨stocks, by simp⟩)
    (fun _ _ h newcomers => h.congr rfl rfl rfl)
    fun _ _ h newcomers => h.mono fun h => h.congr rfl rfl rfl)

end Keyed

/-! ## Passes -/

namespace Pass

variable {s : Setting} {f : Focus Pass} {key : StashIndex}

/-- What only looks keeps the order. -/
theorem of_looks {x : Holding Pass α}
    (h : ∀ f : Focus Pass, Ends (Looks s f) x (fun _ => Looks s f) (Failing (Looks s f))) :
    Ends (Stocked s frame busy hand id) x (fun _ => Stocked s frame busy hand id)
      (Failing (Stocked s frame busy hand id)) :=
  .pointwise fun f stocked => (h f).mono (by rintro _ rfl; exact .refl stocked.fits)
    (fun _ _ looks => looks.stocked stocked) fun _ _ h => h.mono fun looks => looks.stocked stocked

/-- What goes on outside in order keeps the order of a pass. -/
theorem outside_orderly {x : Run α} (h : Run.Keeps frame.library x) (hs : ∀ i, ¬ frame.still i) :
    Ends (Stocked s frame busy hand id) (Holding.outside x)
      (fun _ => Stocked s frame busy hand id) (Failing (Stocked s frame busy hand id)) :=
  .outside fun _ => .pointwise fun _ stocked => (h.stocks rfl hs stocked.stocks).mono
    (fun _ h => h) (fun _ _ h => ⟨h.1, stocked.fits, stocked.cache⟩)
    fun _ _ h => h.mono fun h => ⟨h.1, stocked.fits, stocked.cache⟩

/-- Patching a repeater of the stash keeps the order. -/
theorem revise_orderly {entry : α → StashItem} {a : α} {x : Holding α Unit}
    (hs : ∀ i, ¬ frame.still i) (stocked : Stocked s frame busy hand id f)
    (hk : f.held.stash[key]? = some (entry a)) (kind : ∀ a b, (entry a).kind = (entry b).kind)
    (hx : ∀ (frame' : Frame) (hand' : List InstanceId), frame'.library = frame.library →
      (∀ i, ¬ frame'.still i) → Ends (fun g => g.world.Stocks frame' busy hand' id [entry g.held]) x
        (fun _ g => g.world.Stocks frame' busy hand' id [entry g.held])
        (Failing fun g => g.world.Stocks frame' busy hand' id [entry g.held])) :
    Ends (f = ·) (revise key entry a x) (fun _ => Stocked s frame busy hand id)
      (Failing (Stocked s frame busy hand id)) := by
  refine Ends.bind (Q := fun _ => Stocked s frame busy hand id) ?_ fun _ => ?_
  · rintro _ rfl
    have run := hx (frame.widen f.world []) (World.Stocks.besides f.held.stash key ++ hand) rfl
      (frame.not_still_widen hs) ⟨a, f.world⟩ ((stocked.stocks.alone hk).widen (List.nil_subset _))
    unfold Holding.within
    cases hx : x ⟨a, f.world⟩ with
    | ok b g =>
      rw [hx] at run
      exact (stocked.put hk (kind g.held a) run).1
    | error stop g =>
      rw [hx] at run
      exact run.mono fun stocks => (stocked.put hk (kind g.held a) stocks).1
  · exact (Ends.held.post fun _ _ h => h.2).bind fun q => .pointwise fun g stocked =>
      (showStash_steady stocked q.stash).post fun _ _ h => h.1

section Orderly

variable (orderly : s.engine.Orderly) (hl : frame.library = s.engine.library)
  (hs : ∀ i, ¬ frame.still i)

include orderly hl hs

/-- An effect keeps the order. -/
theorem effect_orderly (node : NodeId) (value : Value) (e : Effect) :
    Ends (Stocked s frame busy hand id) (e.run s node value)
      (fun _ => Stocked s frame busy hand id) (Failing (Stocked s frame busy hand id)) := by
  have evaluated (key : LookupKey) : Ends (Stocked s frame busy hand id) (evaluate s key)
      (fun _ => Stocked s frame busy hand id) (Failing (Stocked s frame busy hand id)) :=
    of_looks fun f => (evaluate_looks key).post fun _ _ h => h.2
  cases e with
  | setText | setAttribute | switchClass | switchClasses | setStyle =>
    exact of_looks fun f => writes_looks node value trivial
  | renderChild key props =>
    refine (evaluated props).bind fun a => Ends.bind (Q := fun _ => Stocked s frame busy hand id)
      (of_looks fun f => fetch_looks.post fun _ _ h => h.2) fun child => ?_
    exact (outside_orderly (hl ▸ orderly.render child a s.controller) hs).bind fun _ =>
      .pure fun _ h => h
  | renderSequence key items =>
    refine .pointwise fun f stocked => repeat_ends .sequential
      (fun item r h => by cases item <;> simp_all [StashItem.sequential?]) stocked.fits node items
      (fun _ _ h => h.mono fun looks => looks.stocked stocked) fun list r anchor g _ hi looks => ?_
    exact revise_orderly hs (looks.stocked stocked) (by rw [looks.stash]; exact hi)
      (fun _ _ => rfl) fun frame' hand' hl' hs' =>
        Sequential.patch_orderly orderly (hl'.trans hl) hs' s.controller node anchor list
  | renderKeyed key items =>
    refine .pointwise fun f stocked => repeat_ends .keyed
      (fun item r h => by cases item <;> simp_all [StashItem.keyed?]) stocked.fits node items
      (fun _ _ h => h.mono fun looks => looks.stocked stocked) fun list r anchor g _ hi looks => ?_
    exact revise_orderly hs (looks.stocked stocked) (by rw [looks.stash]; exact hi)
      (fun _ _ => rfl) fun frame' hand' hl' hs' =>
        Keyed.patch_orderly orderly (hl'.trans hl) hs' s.controller node anchor list
  | record tag => exact outside_orderly (.record _) hs
  | failWhen message =>
    show Ends _ (if value.isTruthy then Holding.outside (Run.fail (.effect message)) else pure ()) _ _
    split
    · exact outside_orderly .fail hs
    · exact .pure fun _ h => h
  | recordLookup key => exact (evaluated key).bind fun v => outside_orderly (.record _) hs
  | recordScope => exact outside_orderly (.record _) hs
  | dispatch event =>
    exact outside_orderly ((hl ▸ orderly.dispatch node event value).bind fun _ => Run.Keeps.record _) hs
  | publish name =>
    exact outside_orderly ((hl ▸ orderly.publish name value).bind fun _ => Run.Keeps.record _) hs

/-- A visit keeps the order. -/
theorem visit_orderly (k : Nat) (w : Watch) (rest : Nat) :
    Ends (Stocked s frame busy hand id) (visit s k w rest)
      (fun _ => Stocked s frame busy hand id) (Failing (Stocked s frame busy hand id)) := by
  -- What is noted beside the stash and the cache does not matter.
  have noted {g : Pass → Pass} (h : ∀ p, (g p).stash = p.stash ∧ (g p).cache = p.cache ∧
      (g p).memo = p.memo) :
      Ends (Stocked s frame busy hand id) (Holding.change g)
        (fun _ => Stocked s frame busy hand id) (Failing (Stocked s frame busy hand id)) := by
    refine .change fun q u stocked => ?_
    obtain ⟨stash, cache, memo⟩ := h q
    exact ⟨stash.symm ▸ stocked.stocks, ⟨memo.symm ▸ stocked.fits.memo,
      stash.symm ▸ stocked.fits.stash⟩, cache.symm ▸ stocked.cache⟩
  have effects (node : NodeId) (value : Value) (c : Callback) :
      Ends (Stocked s frame busy hand id) (c.effects.forM (Effect.run s node value))
        (fun _ => Stocked s frame busy hand id) (Failing (Stocked s frame busy hand id)) :=
    .forM fun e _ => effect_orderly orderly hl hs node value e
  have callbacks (node : NodeId) : Ends (Stocked s frame busy hand id) (runCallbacks s node k w)
      (fun _ => Stocked s frame busy hand id) (Failing (Stocked s frame busy hand id)) := by
    refine .forM fun x _ => ?_
    obtain ⟨c, position⟩ := x
    show Ends _ (runCallback s node k position c) _ _
    unfold runCallback
    split
    · exact (effects node .null c).bind fun _ =>
        noted (by exact fun _ => ⟨rfl, rfl, rfl⟩)
    · next lookup _ =>
      refine Ends.bind (Q := fun _ => Stocked s frame busy hand id) (of_looks fun f =>
        (evaluate_looks lookup).post fun _ _ h => h.2) fun value => ?_
      refine (Ends.held.post fun _ _ h => h.2).bind fun q => ?_
      split
      · exact .pure fun _ h => h
      · refine (effects node value c).bind fun _ => .change fun q u stocked => ?_
        exact ⟨stocked.stocks, ⟨stocked.fits.memo, stocked.fits.stash⟩,
          Cache.map_length_set.trans stocked.cache⟩
  unfold visit
  refine Ends.bind (Q := fun _ => Stocked s frame busy hand id) (outside_orderly ?_ hs)
    fun node => (noted (by exact fun _ => ⟨rfl, rfl, rfl⟩)).bind fun _ => ?_
  · unfold Setting.node
    split
    · exact .pure _
    · exact .giveUp
  split
  · exact (callbacks node).bind fun _ => .pure fun _ h => h
  · next shield shielded =>
    refine Ends.bind (Q := fun _ => Stocked s frame busy hand id) (.pointwise fun f stocked =>
      (applyShield_steady shielded stocked node).mono (by rintro _ rfl; exact .refl stocked.fits)
        (fun _ _ h => h.2.1) fun _ _ h => h) fun visible => ?_
    split
    · exact (callbacks node).bind fun _ => .pure fun _ h => h
    · exact (outside_orderly (.log _ _) hs).bind fun _ =>
        (noted (by exact fun _ => ⟨rfl, rfl, rfl⟩)).bind fun _ => .pure fun _ h => h

/-- A walk keeps the order, whichever watches it comes to. -/
theorem walk_orderly (skip : Nat) (ws : List (Watch × Nat)) :
    Ends (Stocked s frame busy hand id) (walk s skip ws)
      (fun _ => Stocked s frame busy hand id) (Failing (Stocked s frame busy hand id)) := by
  induction ws generalizing skip with
  | nil => exact .pure fun _ h => h
  | cons x ws ih =>
    cases skip with
    | zero => exact (visit_orderly orderly hl hs x.2 x.1 ws.length).bind ih
    | succ skip => exact ih skip

end Orderly

end Pass

/-! ## Updates -/

namespace Instance

variable {engine : Engine} {i : InstanceId} (orderly : engine.Orderly)
  (hl : frame.library = engine.library) (hs : ∀ i, ¬ frame.still i)

include orderly hl hs

/-- An update of a window keeps the order. -/
theorem updateWindow_orderly (start stop : Nat) :
    Ends (Housed frame busy hand i) (updateWindow engine start stop)
      (fun _ => Housed frame busy hand i) (Failing (Housed frame busy hand i)) := by
  refine .pointwise fun f housed => ?_
  obtain ⟨inst, w⟩ := f
  obtain ⟨stocks, ⟨d, hd, fits, cache⟩, definition⟩ := housed.widen (List.nil_subset _)
  have back {later : Focus Pass} (h : Pass.Stocked (.ofInstance engine d inst)
      (frame.widen w []) (i :: busy) hand inst.definition later) :
      Housed frame busy hand i ⟨later.held.finish inst, later.world⟩ :=
    (Housed.narrow housed.stocks.orderly (housed_of_stocked hd fits.elements definition h)).1
  refine (updateWindow_ends (P := (w = ·)) (hl ▸ hd) ?_).pre (by rintro _ rfl; exact ⟨rfl, rfl⟩)
  refine (Pass.walk_orderly (s := .ofInstance engine d inst) orderly
    (show (frame.widen w []).library = _ from hl) (frame.not_still_widen hs) 0 _).mono ?_
    (fun _ _ h => back h) fun _ _ h => h.mono back
  rintro ⟨_, _⟩ ⟨rfl, rfl⟩
  exact ⟨stocks, ⟨Memo.keeps_empty _ _, fits.stash⟩, cache⟩

/-- An update keeps the order. -/
theorem update_orderly :
    Ends (Housed frame busy hand i) (update engine) (fun _ => Housed frame busy hand i)
      (Failing (Housed frame busy hand i)) :=
  (Ends.held.post fun _ _ h => h.2).bind fun _ =>
    (Housed.outside (Run.Keeps.definition _ _) hs).bind fun _ =>
      updateWindow_orderly orderly hl hs _ _

/-- A render keeps the order. -/
theorem render_orderly (props : Value) (controller : Controller) :
    Ends (Housed frame busy hand i) (render engine props controller)
      (fun _ => Housed frame busy hand i) (Failing (Housed frame busy hand i)) := by
  refine Ends.bind (Q := fun _ => Housed frame busy hand i) (.change fun inst w housed => ?_)
    fun _ => update_orderly orderly hl hs
  exact Housed.congr (f := ⟨inst, w⟩) housed rfl rfl rfl rfl

/-- An update of a part keeps the order. -/
theorem updatePart_orderly (name : String) :
    Ends (Housed frame busy hand i) (updatePart engine name) (fun _ => Housed frame busy hand i)
      (Failing (Housed frame busy hand i)) := by
  refine (Ends.held.post fun _ _ h => h.2).bind fun _ =>
    (Housed.outside (Run.Keeps.definition _ _) hs).bind fun d => ?_
  split
  · exact updateWindow_orderly orderly hl hs _ _
  · exact Housed.outside .fail hs

end Instance

/-! ## New instances -/

namespace Run

variable {engine : Engine} (orderly : engine.Orderly) (ranked : engine.library.Ranked)

include orderly ranked

/-- A new instance comes into hand. -/
theorem construct_brings (id : DefinitionId) (props : Value) (controller : Controller) :
    Brings engine.library id (construct engine id props controller) := by
  intro frame busy hand hl hs
  have updated (i : InstanceId) : Keeps engine.library (hold i (Instance.update engine)) :=
    .hold fun _ _ _ hl hs => Instance.update_orderly orderly hl hs
  have mounted (i : InstanceId) : Keeps engine.library
      (hold i (Holding.change fun inst => { inst with mounted := true })) :=
    .hold fun _ _ _ _ _ => .change fun inst w housed =>
      Instance.Housed.congr (f := ⟨inst, w⟩) housed rfl rfl rfl rfl
  refine ((build_orderly ranked hl id props controller).post fun i w h =>
    (⟨h.1, h.2.1.definition?⟩ : w.Orderly frame busy (i :: hand) ∧ w.definition? i = some id)).bind
    fun i => ?_
  have failed (stop : Stop) (w : World) (h : Failing (World.Orderly frame busy (i :: hand)) stop w) :
      Failing (World.Orderly frame busy hand) stop w := h.mono World.Orderly.of_cons
  refine (((updated i).attempt.known hl hs).mono (fun _ h => h) (fun _ _ h => h) failed).bind
    fun r => ?_
  cases r with
  | ok stats =>
    exact (((mounted i).known hl hs).mono (fun _ h => h) (fun _ _ h => h) failed).bind fun _ =>
      .pure fun _ h => h
  | error fault =>
    refine Ends.bind (Q := fun _ => World.Orderly frame busy hand) ?_ fun _ => .fail
    exact ((Keeps.retire .destroy i).ends busy hand hl hs).pre fun _ h => h.1.of_cons

/-- A rendered instance comes into hand, be it a spare one or a new one. -/
theorem acquire_brings (id : DefinitionId) (share : Bool) (props : Value)
    (controller : Controller) :
    Brings engine.library id (acquire engine id share props controller) := by
  intro frame busy hand hl hs
  have rendered (i : InstanceId) :
      Keeps engine.library (hold i (Instance.render engine props controller)) :=
    .hold fun _ _ _ hl hs => Instance.render_orderly orderly hl hs props controller
  unfold acquire
  refine ((Keeps.definition engine.library id).ends busy hand hl hs).bind fun d => ?_
  have reused (line : String) (i : InstanceId) : Ends
      (fun w => w.Orderly frame busy (i :: hand) ∧ w.definition? i = some id)
      (do
        Run.log .debug line
        let _ ← hold i (Instance.render engine props controller)
        return i)
      (fun i w => w.Orderly frame busy (i :: hand) ∧ w.definition? i = some id)
      (Failing (World.Orderly frame busy hand)) :=
    ((Keeps.known (Preserves.bind (Keeps.log .debug line) fun _ => rendered i) hl hs).mono
      (fun _ h => h) (fun _ _ h => h) fun _ _ h => h.mono World.Orderly.of_cons).bind
        fun _ => .pure fun _ h => h
  have fresh (line : String) : Ends (World.Orderly frame busy hand)
      (do
        Run.log .debug line
        construct engine id props controller)
      (fun i w => w.Orderly frame busy (i :: hand) ∧ w.definition? i = some id)
      (Failing (World.Orderly frame busy hand)) :=
    ((Keeps.log .debug line).ends busy hand hl hs).bind fun _ =>
      construct_brings orderly ranked id props controller frame busy hand hl hs
  dsimp only
  split
  · refine (popPool_orderly id).bind fun spare => ?_
    cases spare with
    | some i => exact (reused _ i).pre fun w h => ⟨h.1, (h.2 i rfl).1⟩
    | none => exact (fresh _).pre fun w h => h.1
  · exact Ends.bind (Q := fun spare w => spare = none ∧ World.Orderly frame busy hand w)
      (.pure fun _ h => ⟨rfl, h⟩) fun spare => .assume fun none => none ▸ fresh _

end Run

end ComponentView
