import ComponentView.Proofs.Containers.Pass
import ComponentView.Proofs.Ownership.Events

/-! # Engines in a tidy world

Rendering an instance and acquiring one leave the world tidy, also when they fail, and the instance
that is acquired stands in no host (`Engine.nested_tidy`). -/

namespace ComponentView

/-! ## Held instances -/

namespace Instance

variable {L : Reserve} {id : DefinitionId} {r : NodeId} {busy lost hand : List InstanceId}
  {E : Stop → Focus Instance → Prop}

/-- What is noted of a held instance beside its root, its nodes and its stash does not matter. -/
theorem change_tidy {g : Instance → Instance} (hg : ∀ inst, (g inst).definition = inst.definition ∧
      (g inst).root = inst.root ∧ (g inst).elements = inst.elements ∧
      (g inst).stash = inst.stash) :
    Ends (Tended L id r busy lost hand) (Holding.change g) (fun _ => Tended L id r busy lost hand) E := by
  refine .change fun inst w h => ?_
  obtain ⟨definition, root, elements, stash⟩ := hg inst
  refine ⟨root.trans h.root, definition.trans h.definition, ?_⟩
  show w.Minds _ _ _ _ _ _ (g inst).elements (g inst).stash
  rw [elements, stash]
  exact h.minds

/-- Neither does what is written into the state of a held instance. -/
theorem writeState_tidy (path : Path) (value : Value) :
    Ends (Tended L id r busy lost hand) (Handler.writeState path value)
      (fun _ => Tended L id r busy lost hand) E := by
  unfold Handler.writeState
  refine Ends.held.bind fun inst => .pointwise fun f hf => ?_
  obtain ⟨rfl, tended⟩ := hf
  refine Ends.bind (Q := fun _ => Tended L id r busy lost hand) (.change ?_) fun _ =>
    .pure fun _ h => h
  rintro _ _ rfl
  exact ⟨tended.root, tended.definition, tended.minds⟩

end Instance

namespace Run

variable {L : Reserve} {busy lost hand : List InstanceId} {i : InstanceId} {engine : Engine}
  (orderly : engine.Orderly) (tidies : engine.Tidies) (hl : L.library = engine.library)
  (hin : i ∈ hand)

/-- What keeps a held instance in order and showing its stash leaves the world tidy. -/
theorem hold_tidy {α : Type} {x : Holding Instance α} (hl : L.library = engine.library) (hin : i ∈ hand)
    (orderly : ∀ (frame : Frame) (busy hand : List InstanceId), frame.library = engine.library →
      (∀ i, ¬ frame.still i) → Ends (Instance.Housed frame busy hand i) x
        (fun _ => Instance.Housed frame busy hand i) (Failing (Instance.Housed frame busy hand i)))
    (tended : ∀ (M : Reserve) (id : DefinitionId) (r : NodeId) (busy : List InstanceId),
      M.library = engine.library →
      (∀ {id d}, M.library[id]? = some d → (M.plan id).Draws d.template) → M.Opens id r hand →
        Ends (Instance.Tended M id r busy lost hand) x
          (fun _ => Instance.Tended M id r busy lost hand)
          (Failing (Instance.Tended M id r busy lost hand))) :
    Ends (World.Neat L busy lost hand) (hold i x) (fun _ => World.Neat L busy lost hand)
      (Failing (World.Neat L busy lost hand)) :=
  (Ends.hold_tidy (S := fun _ => True) (P := fun _ => True) (fun _ => trivial)
    (fun _ tidy _ _ => tidy.inHand i hin) (orderly (.plain L.library) busy (lost ++ hand) hl fun _ h => h)
    fun M id r hM plans opens => (tended M id r (i :: busy) (hM.trans hl) plans opens).mono
      (fun _ h => h.2) (fun _ _ h => h) fun _ _ h => ⟨trivial, h⟩).mono (fun _ h => ⟨trivial, h⟩)
    (fun _ _ h => h) fun _ _ h => h.2

include orderly tidies hl hin

/-- Rendering an instance keeps the world neat. -/
theorem hold_render_tidy (props : Value) (controller : Controller) :
    Ends (World.Neat L busy lost hand) (hold i (Instance.render engine props controller))
      (fun _ => World.Neat L busy lost hand) (Failing (World.Neat L busy lost hand)) :=
  hold_tidy hl hin
    (fun _ _ _ hf hs => Instance.render_orderly orderly hf hs props controller)
    fun _ _ _ _ hM plans opens => Instance.render_tidy opens plans tidies hM props controller

/-- Updating an instance keeps the world neat. -/
theorem hold_update_tidy :
    Ends (World.Neat L busy lost hand) (hold i (Instance.update engine))
      (fun _ => World.Neat L busy lost hand) (Failing (World.Neat L busy lost hand)) :=
  hold_tidy hl hin (fun _ _ _ hf hs => Instance.update_orderly orderly hf hs)
    fun _ _ _ _ hM plans opens => Instance.update_tidy opens plans tidies hM

/-- Updating a window of an instance keeps the world neat. -/
theorem hold_updateWindow_tidy (start stop : Nat) :
    Ends (World.Neat L busy lost hand) (hold i (Instance.updateWindow engine start stop))
      (fun _ => World.Neat L busy lost hand) (Failing (World.Neat L busy lost hand)) :=
  hold_tidy hl hin (fun _ _ _ hf hs => Instance.updateWindow_orderly orderly hf hs start stop)
    fun _ _ _ _ hM plans opens => Instance.updateWindow_tidy opens plans tidies hM start stop

/-- Updating a part of an instance keeps the world neat. -/
theorem hold_updatePart_tidy (name : String) :
    Ends (World.Neat L busy lost hand) (hold i (Instance.updatePart engine name))
      (fun _ => World.Neat L busy lost hand) (Failing (World.Neat L busy lost hand)) :=
  hold_tidy hl hin (fun _ _ _ hf hs => Instance.updatePart_orderly orderly hf hs name)
    fun _ _ _ _ hM plans opens => Instance.updatePart_tidy opens plans tidies hM name

omit orderly tidies in
/-- What is noted of a held instance beside its root, its nodes and its stash does not matter. -/
theorem hold_change_tidy {g : Instance → Instance} (hg : ∀ inst, (g inst).definition = inst.definition ∧
      (g inst).root = inst.root ∧ (g inst).elements = inst.elements ∧
      (g inst).stash = inst.stash ∧ (g inst).cache = inst.cache) :
    Ends (World.Neat L busy lost hand) (hold i (Holding.change g))
      (fun _ => World.Neat L busy lost hand) (Failing (World.Neat L busy lost hand)) := by
  refine hold_tidy hl hin (fun _ _ _ _ _ => .change fun inst w housed => ?_)
    fun _ _ _ _ _ _ _ => Instance.change_tidy fun inst => ?_
  · obtain ⟨definition, -, elements, stash, cache⟩ := hg inst
    exact Instance.Housed.congr (f := ⟨inst, w⟩) housed definition elements stash cache
  · obtain ⟨definition, root, elements, stash, -⟩ := hg inst
    exact ⟨definition, root, elements, stash⟩

omit orderly tidies in
/-- Neither does what is written into the state of a held instance. -/
theorem hold_writeState_tidy (path : Path) (value : Value) :
    Ends (World.Neat L busy lost hand) (hold i (Handler.writeState path value))
      (fun _ => World.Neat L busy lost hand) (Failing (World.Neat L busy lost hand)) :=
  hold_tidy hl hin (fun _ _ _ _ _ => Instance.writeState_orderly path value)
    fun _ _ _ _ _ _ _ => Instance.writeState_tidy path value

end Run

/-! ## New instances -/

/-- A new instance is in hand, and stands in no host. -/
structure World.Fresh (L : Reserve) (busy lost hand : List InstanceId) (id : DefinitionId)
    (i : InstanceId) (w : World) : Prop where
  neat : w.Neat L busy lost (i :: hand)
  adrift : w.Adrift L i
  definition : w.definition? i = some id

section Fresh

variable {L : Reserve} {busy lost hand : List InstanceId} {id : DefinitionId} {i : InstanceId}
  {engine : Engine} {w : World}

/-- An instance that nobody takes up and nobody holds is lost. -/
theorem World.Fresh.lose (h : w.Fresh L busy lost hand id i) (free : i ∉ busy) :
    w.Neat L busy lost hand := by
  obtain ⟨δ, tidy⟩ := h.neat
  exact ⟨δ, (tidy.lose (tidy.adrift_node h.adrift)).forget free⟩

namespace Run

/-- What leaves a world tidy whatever it has to respect leaves an instance in hand where it is. -/
theorem keeps_fresh {α : Type} {x : Run α}
    (h : ∀ M : Reserve, M.library = L.library → Ends (World.Neat M busy lost (i :: hand)) x
      (fun _ => World.Neat M busy lost (i :: hand)) (Failing (World.Neat M busy lost (i :: hand)))) :
    Ends (World.Fresh L busy lost hand id i) x (fun _ => World.Fresh L busy lost hand id i)
      (Failing (World.Fresh L busy lost hand id i)) := by
  refine .pointwise fun w fresh => ?_
  obtain ⟨δ, tidy⟩ := fresh.neat
  -- The work is to respect all nodes of hosts, so the instance comes to stand in none of them.
  have lt := tidy.lt_of_alive (tidy.inHand i (List.mem_cons_self ..))
  have calm {v : World} (hv : v.Neat (L.freeze w δ fun _ => True) busy lost (i :: hand)) :
      v.Fresh L busy lost hand id i := by
    obtain ⟨neat, sweeps⟩ := tidy.calm hv
    exact ⟨neat, fresh.adrift.sweep sweeps lt, sweeps.grown fresh.definition⟩
  refine (h (L.freeze w δ fun _ => True) rfl).mono ?_ (fun _ _ hv => calm hv)
    fun _ _ hv => hv.mono calm
  rintro _ rfl
  exact ⟨δ, tidy.freeze _⟩

/-- If an instance comes to be held and that fails, nobody held it before. -/
theorem hold_free {α : Type} {x : Holding Instance α} :
    Ends (World.Neat L busy lost hand) (hold i x) (fun _ _ => True) (Failing fun _ => i ∉ busy) := by
  refine Ends.hold (fun _ _ => .of_abort) (fun _ _ => .of_abort) fun w inst hw _ hb => ?_
  obtain ⟨δ, tidy⟩ := hw
  have free : i ∉ busy := tidy.orderly.busy_eq ▸ hb
  exact (Ends.trivially x).mono (fun _ _ => trivial) (fun _ _ _ => trivial) fun _ _ _ _ _ => free

/-- What leaves a world tidy leaves an instance in hand where it is, if that is not held. -/
theorem keeps_fresh_free {α : Type} {x : Holding Instance α}
    (h : ∀ M : Reserve, M.library = L.library → Ends (World.Neat M busy lost (i :: hand)) (hold i x)
      (fun _ => World.Neat M busy lost (i :: hand)) (Failing (World.Neat M busy lost (i :: hand)))) :
    Ends (World.Fresh L busy lost hand id i) (hold i x) (fun _ => World.Fresh L busy lost hand id i)
      (Failing fun w => i ∉ busy ∧ w.Fresh L busy lost hand id i) :=
  (hold_free.and (keeps_fresh h)).mono (fun _ fresh => ⟨fresh.neat, fresh⟩) (fun _ _ h => h.2)
    fun _ _ h cause hc => ⟨h.1 cause hc, h.2 cause hc⟩

/-- A spare instance comes into hand if there is one; what is in a pool stands in no host. -/
theorem popPool_tidy (id : DefinitionId) {E : Stop → World → Prop} :
    Ends (World.Neat L busy lost hand) (popPool id)
      (fun spare w => (∀ i ∈ spare, w.Fresh L busy lost hand id i) ∧
        (spare = none → w.Neat L busy lost hand)) E := by
  refine .modifyGet fun w hw => ?_
  cases hp : w.pool id with
  | nil => exact ⟨nofun, fun _ => hw⟩
  | cons i rest =>
    obtain ⟨δ, tidy⟩ := hw
    have hi : i ∈ w.pool id := by rw [hp]; exact List.mem_cons_self ..
    refine ⟨?_, nofun⟩
    rintro j ⟨⟩
    refine ⟨⟨δ, tidy.pop hp⟩, fun b m q hb hq => ?_, (tidy.orderly.pop hp).2.1⟩
    exact tidy.not_lodged (p := .pool id) nofun (tidy.pooled hi) hi hb (tidy.node_host hb ▸ hq)

variable (orderly : engine.Orderly) (tidies : engine.Tidies) (hl : L.library = engine.library)

include orderly tidies hl

/-- A new instance is updated before it comes into hand; if that fails, nothing is left of it. -/
theorem construct_tidy (ranked : engine.library.Ranked) (id : DefinitionId) (props : Value)
    (controller : Controller) :
    Ends (World.Neat L busy lost hand) (construct engine id props controller)
      (World.Fresh L busy lost hand id) (Failing (World.Neat L busy lost hand)) := by
  refine .pointwise fun w hw => ?_
  have updated (i : InstanceId) : Ends (World.Fresh L busy lost hand id i)
      (hold i (Instance.update engine)) (fun _ => World.Fresh L busy lost hand id i)
      (Failing (World.Fresh L busy lost hand id i)) :=
    keeps_fresh fun M hM => hold_update_tidy orderly tidies (hM.trans hl) (List.mem_cons_self ..)
  have mounted (i : InstanceId) : Ends (World.Fresh L busy lost hand id i)
      (hold i (Holding.change fun inst => { inst with mounted := true }))
      (fun _ => World.Fresh L busy lost hand id i)
      (Failing fun w => i ∉ busy ∧ w.Fresh L busy lost hand id i) :=
    keeps_fresh_free fun M hM => hold_change_tidy (hM.trans hl) (List.mem_cons_self ..)
      fun _ => ⟨rfl, rfl, rfl, rfl, rfl⟩
  unfold construct
  refine Ends.bind (Q := World.Fresh L busy lost hand id)
    ((build_tidy ranked props controller L busy lost hand id hl).mono (by rintro _ rfl; exact hw)
      (fun _ _ h => ⟨h.1, h.2.1, h.2.2⟩) fun _ _ h => h) fun i => ?_
  -- A first update that fails is caught: the instance is destroyed, and the failure goes on.
  refine Ends.bind (updated i).attempt_givenUp.failing fun result => ?_
  cases result with
  | ok stats =>
    exact ((mounted i).mono (fun _ h => h.1 stats rfl) (fun _ _ h => h)
      fun _ _ h => h.mono fun lost => lost.2.lose lost.1).bind fun _ => .pure fun _ h => h
  | error fault =>
    refine Ends.bind (Q := fun _ => World.Neat L busy lost hand) ?_ fun _ => .fail
    refine (retire_tidy.destroy L busy lost hand i).failing.mono (fun v hv => ?_) (fun _ v hv => ?_)
      fun _ _ h => h
    · have fresh := hv.2 fault rfl fault rfl
      exact ⟨fresh.neat, fresh.adrift.loose⟩
    · obtain ⟨idle, δ, tidy⟩ := hv
      exact ⟨δ, tidy.forget idle⟩

/-- A spare instance that is rendered stays in hand, also where that fails. -/
theorem reuse_fresh (line : String) (props : Value) (controller : Controller) :
    Ends (World.Fresh L busy lost hand id i)
      (do
        log .debug line
        let _ ← hold i (Instance.render engine props controller)
        return i)
      (fun j w => j = i ∧ w.Fresh L busy lost hand id i)
      (Failing fun w => i ∉ busy ∧ w.Fresh L busy lost hand id i) := by
  have written : Ends (World.Fresh L busy lost hand id i) (log .debug line)
      (fun _ => World.Fresh L busy lost hand id i)
      (Failing fun w => i ∉ busy ∧ w.Fresh L busy lost hand id i) :=
    .modify fun w fresh =>
      ⟨fresh.neat.imp fun _ tidy => tidy.congr rfl rfl rfl rfl, fresh.adrift, fresh.definition⟩
  have rendered : Ends (World.Fresh L busy lost hand id i)
      (hold i (Instance.render engine props controller))
      (fun _ => World.Fresh L busy lost hand id i)
      (Failing fun w => i ∉ busy ∧ w.Fresh L busy lost hand id i) :=
    keeps_fresh_free fun M hM => hold_render_tidy orderly tidies (hM.trans hl) (List.mem_cons_self ..)
      props controller
  exact written.bind fun _ => rendered.bind fun _ => .pure fun _ h => ⟨rfl, h⟩

/-- A rendered instance comes into hand, be it a spare one or a new one. -/
theorem acquire_tidy (ranked : engine.library.Ranked) (id : DefinitionId) (share : Bool)
    (props : Value) (controller : Controller) :
    Ends (World.Neat L busy lost hand) (acquire engine id share props controller)
      (World.Fresh L busy lost hand id) (Failing (World.Neat L busy lost hand)) := by
  have reused (line : String) (i : InstanceId) : Ends (World.Fresh L busy lost hand id i)
      (do
        log .debug line
        let _ ← hold i (Instance.render engine props controller)
        return i)
      (World.Fresh L busy lost hand id) (Failing (World.Neat L busy lost hand)) :=
    (reuse_fresh orderly tidies hl line props controller).mono (fun _ h => h)
      (by rintro _ _ ⟨rfl, fresh⟩; exact fresh) fun _ _ h => h.mono fun lost => lost.2.lose lost.1
  have made (line : String) : Ends (World.Neat L busy lost hand)
      (do
        log .debug line
        construct engine id props controller)
      (World.Fresh L busy lost hand id) (Failing (World.Neat L busy lost hand)) :=
    Ends.bind (Q := fun _ => World.Neat L busy lost hand)
      (.modify fun w ⟨δ, tidy⟩ => ⟨δ, tidy.congr rfl rfl rfl rfl⟩)
      fun _ => construct_tidy orderly tidies hl ranked id props controller
  unfold acquire
  refine .pointwise fun w hw => Ends.bind (Q := fun _ => World.Neat L busy lost hand)
    ((Ends.definition fun _ _ => .of_abort).post fun _ _ h => h.2 ▸ hw) fun d => ?_
  dsimp only
  split
  · refine (popPool_tidy id).bind fun spare => ?_
    cases spare with
    | some i => exact (reused _ i).pre fun _ h => h.1 i rfl
    | none => exact (made _).pre fun _ h => h.2 rfl
  · refine Ends.bind (Q := fun spare w => spare = none ∧ w.Neat L busy lost hand)
      (.pure fun _ h => ⟨rfl, h⟩) fun spare => ?_
    refine Ends.assume (P := World.Neat L busy lost hand) fun none => ?_
    subst none
    exact made _

end Run

end Fresh

/-! ## Engines -/

namespace Engine

/-- The engine above one that leaves worlds tidy does so, too. -/
theorem above_tidy {below : Unit → Engine} {lib : Library} (orderly : (below ()).Orderly)
    (tidies : (below ()).Tidies) (hb : (below ()).library = lib) (ranked : lib.Ranked) :
    (above below lib).Tidies where
  render _ _ _ _ _ props controller hl hin :=
    Run.hold_render_tidy orderly tidies (hl.trans hb.symm) hin props controller
  acquire _ _ _ _ id share props controller hl :=
    (Run.acquire_tidy orderly tidies (hl.trans hb.symm) (hb.symm ▸ ranked) id share props
      controller).post fun _ _ h => ⟨h.neat, h.adrift, h.definition⟩

/-- Every engine of a library leaves worlds tidy. -/
theorem nested_tidy {lib : Library} (ranked : lib.Ranked) (depth : Nat) : (nested lib depth).Tidies := by
  induction depth with
  | zero => exact ⟨fun _ _ _ _ _ _ _ _ _ => .giveUp, fun _ _ _ _ _ _ _ _ _ => .giveUp⟩
  | succ depth ih =>
    obtain ⟨orderly, library⟩ := nested_orderly ranked depth
    exact above_tidy orderly ih library ranked

end Engine

end ComponentView
