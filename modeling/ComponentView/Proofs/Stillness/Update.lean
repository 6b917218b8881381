import ComponentView.Proofs.Layout.Apart
import ComponentView.Proofs.Stillness.Pass

/-! # Updates that change nothing

Of an instance that rests, no watch that an update comes to has anything left to do. Updating it, or
rendering it with the props and the controller that it has, changes nothing (`Instance.update_still`,
`Instance.render_still`). What an update reports is settled before it begins, but for the effects
that it runs (`Instance.update_counts`). -/

namespace ComponentView

/-- What is known of a template that was compiled from a component of which the watches only write. -/
structure Template.Sound (t : Template) : Prop where
  planned : t.WellPlanned
  skips : t.ExactSkips
  apart : t.Apart

/-- All templates of the library are sound. -/
def Library.Sound (lib : Library) : Prop :=
  ∀ (id : DefinitionId) (d : Definition), lib[id]? = some d → d.template.Sound

/-- What a pass over a window reports if no lookup has a new value. -/
def Setting.quiet (s : Setting) (ws : List (Watch × Nat)) : PassStats where
  visited := (s.shown ws).length
  skipped := ws.length - (s.shown ws).length
  always := (s.shown ws).foldr (fun x n => s.standing x.1 + n) 0

namespace Instance

variable {engine : Engine} {d : Definition} {inst : Instance} {start stop : Nat}

/-- No watch that an update comes to has anything left to do. -/
def Rests (engine : Engine) (P : InstanceId → Value → Prop) (d : Definition) (inst : Instance) :
    Prop :=
  ∀ x ∈ (Setting.ofInstance engine d inst).shown (d.template.window 0 d.template.watches.length),
    x.1.Rests (.ofInstance engine d inst) P (Pass.start d.template inst) x.2

/-- The instance rests also when other instances do that it holds. -/
theorem Rests.imp {P Q : InstanceId → Value → Prop} (h : inst.Rests engine P d)
    (hpq : ∀ i ∈ inst.held, ∀ value, P i value → Q i value) : inst.Rests engine Q d := by
  intro x hx
  have rests := h x hx
  have mem {key : StashIndex} {item : StashItem} (hk : inst.stash[key]? = some item) :
      ∀ i ∈ item.held, i ∈ inst.held := fun i hi =>
    List.mem_flatMap.mpr ⟨item, List.mem_of_getElem? hk, hi⟩
  refine ⟨rests.moved, rests.seen, fun shown c hc ht e he => ?_⟩
  have := rests.rendered shown c hc ht e he
  cases e with
  | renderChild key props =>
    obtain ⟨i, hi, hp⟩ := this
    exact ⟨i, hi, hpq i (mem hi i (by simp [StashItem.held])) _ hp⟩
  | renderSequence key items =>
    obtain ⟨r, list, hr, hlist, rests⟩ := this
    exact ⟨r, list, hr, hlist, rests.imp fun i hi => hpq i (mem hr i hi)⟩
  | renderKeyed key items =>
    obtain ⟨r, list, hr, hlist, rests⟩ := this
    exact ⟨r, list, hr, hlist, rests.imp fun i hi => hpq i (mem hr i hi)⟩
  | _ => cases this

/-! ## Opening an update -/

section Open

variable {P : World → Prop} {Q : PassStats → Focus Instance → Prop}
  {E : Stop → Focus Instance → Prop}

/-- An update of a window is a walk over it. -/
theorem updateWindow_ends (known : engine.library[inst.definition]? = some d)
    (h : Ends (fun f => f.held = Pass.start d.template inst ∧ P f.world)
      (Pass.walk (.ofInstance engine d inst) 0 (d.template.window start stop))
      (fun _ f => Q f.held.stats ⟨f.held.finish inst, f.world⟩)
      fun reason f => E reason ⟨f.held.finish inst, f.world⟩) :
    Ends (fun f => f.held = inst ∧ P f.world) (updateWindow engine start stop) Q E := by
  rintro ⟨inst, w⟩ ⟨rfl, hw⟩
  have ends := h ⟨Pass.start d.template inst, w⟩ ⟨rfl, hw⟩
  rw [updateWindow_eq known]
  cases hx : Pass.walk (.ofInstance engine d inst) 0 (d.template.window start stop)
      ⟨Pass.start d.template inst, w⟩ with
  | ok _ f => rw [hx] at ends; exact ends
  | error reason f => rw [hx] at ends; exact ends

/-- An update is an update of the window of all watches. -/
theorem update_ends (known : engine.library[inst.definition]? = some d)
    (h : Ends (fun f => f.held = inst ∧ P f.world)
      (updateWindow engine 0 d.template.watches.length) Q E) :
    Ends (fun f => f.held = inst ∧ P f.world) (update engine) Q E := by
  rintro ⟨inst, w⟩ ⟨rfl, hw⟩
  rw [update_eq known]
  exact h ⟨inst, w⟩ ⟨rfl, hw⟩

end Open

variable (known : engine.library[inst.definition]? = some d) (sound : d.template.Sound)
  (fits : inst.Fits d.template)

include known sound fits

/-- What an update reports depends on what is shown alone, but for the effects. -/
theorem update_counts :
    Ends (fun f => f.held = inst ∧ True) (update engine)
      (fun stats _ => { stats with effects := 0 } = (Setting.ofInstance engine d inst).quiet
        (d.template.window 0 d.template.watches.length))
      fun _ _ => True := by
  refine update_ends (P := fun _ => True) known
    (updateWindow_ends (P := fun _ => True) known ?_)
  refine (Pass.walk_ends (s := .ofInstance engine d inst) rfl sound.planned fits.elements
    (d.template.window 0 d.template.watches.length)
    (fun x hx => List.mem_of_getElem? (Setting.mem_window.mp hx).2.2)
    (Template.exactWindow sound.skips _ _) (p := Pass.start d.template inst)
    ⟨Memo.keeps_empty _ _, fits.stash⟩).mono (fun _ h => h.1) (fun _ f walked => ?_)
    fun _ _ _ => trivial
  have visits : f.held.visits.length = _ := congrArg List.length walked.visits
  have count := walked.count
  have always := walked.always
  simp only [Pass.start, List.nil_append, List.length_map, List.length_nil, Nat.zero_add] at *
  simp only [Pass.stats, Setting.quiet, visits, always]
  congr 1
  omega

variable {v : World} (settled : Pass.Settled (Pass.start d.template inst) v)
  (rests : inst.Rests engine (engine.Still v inst.controller) d)

include settled rests

/-- An update of an instance that rests changes nothing. -/
theorem update_still :
    Ends (Unmoved inst v) (update engine)
      (fun stats f => stats = (Setting.ofInstance engine d inst).quiet
        (d.template.window 0 d.template.watches.length) ∧ Unmoved inst v f)
      fun _ _ => False := by
  have still : Ends (fun f => f.held = inst ∧ v.Alike f.world) (update engine)
      (fun stats f => stats.effects = 0 ∧ Unmoved inst v f) fun _ _ => False := by
    refine update_ends known (updateWindow_ends known ?_)
    refine (Pass.walk_still (s := .ofInstance engine d inst) (p := Pass.start d.template inst)
      sound.planned fits.elements (d.template.window 0 d.template.watches.length)
      (fun x hx => List.mem_of_getElem? (Setting.mem_window.mp hx).2.2)
      (Template.exactWindow sound.skips _ _) settled rests).mono ?_ (fun _ f h => ?_)
      fun _ _ h => h
    · rintro ⟨_, w⟩ ⟨rfl, alike⟩
      exact ⟨rfl, rfl, rfl, Memo.keeps_empty _ _, alike⟩
    · refine ⟨h.effects, ?_, h.alike⟩
      simp only [Pass.finish, h.cache, h.stash, Pass.start]
  refine (still.and (update_counts known sound fits)).mono (fun f h => ⟨h, h.1, trivial⟩)
    (fun stats f h => ⟨?_, h.1.2⟩) fun _ _ h => h.1
  rw [← h.2, ← h.1.1]

/-- So does rendering it as it was rendered before. -/
theorem render_still (mounted : inst.mounted = true) :
    Ends (Unmoved inst v) (render engine inst.props inst.controller) (fun _ => Unmoved inst v)
      fun _ _ => False := by
  unfold render
  refine Ends.bind (Q := fun _ => Unmoved inst v) (.change ?_) fun _ =>
    (update_still known sound fits settled rests).post fun _ _ h => h.2
  rintro _ w ⟨rfl, alike⟩
  refine ⟨?_, alike⟩
  simp only [← mounted]

end Instance

/-- Holding an instance while nothing changes changes nothing. -/
theorem Ends.hold_still {α : Type} {v : World} {i : InstanceId} {inst : Instance}
    {x : Holding Instance α} {Q : α → Prop} (hi : v.instances[i]? = some inst) (hb : i ∉ v.busy)
    (h : Ends (Unmoved inst { v with busy := i :: v.busy }) x
      (fun a f => Q a ∧ Unmoved inst { v with busy := i :: v.busy } f) fun _ _ => False) :
    Ends v.Alike (Run.hold i x) (fun a w => Q a ∧ v.Alike w) fun _ _ => False := by
  -- The instance comes back as it was.
  have back {w : World} {f : Focus Instance} (busy : w.busy = v.busy)
      (hf : Unmoved inst { v with busy := i :: v.busy } f) :
      v.Alike (Run.hold.back i w.busy f) := by
    obtain ⟨held, alike⟩ := hf
    refine ⟨?_, alike.document⟩
    have same : f.world.instances.setIfInBounds i f.held = v.instances := by
      rw [held, alike.instances]
      exact setIfInBounds_of_get hi
    unfold Run.hold.back
    rw [same, busy, alike.eq]
  intro w alike
  have free : i ∉ w.busy := alike.busy ▸ hb
  have there : w.instances[i]? = some inst := alike.instances ▸ hi
  have look := Run.look_eq there free
  have run := h ⟨inst, { w with busy := i :: w.busy }⟩
    ⟨rfl, by rw [alike.eq], alike.document⟩
  unfold Run.hold
  rw [look]
  dsimp only
  cases hx : x ⟨inst, { w with busy := i :: w.busy }⟩ with
  | ok a f => rw [hx] at run; exact ⟨run.1, back alike.busy run.2⟩
  | error stop f => rw [hx] at run; exact run

end ComponentView
