import ComponentView.Proofs.Descent.Stage

/-! # Computations that sink

The rules follow the ways in which computations are put together, over the world (`Run.Gives`) and over
something that is held (`Holding.Gives`). The one that matters is that of holding an instance
(`Run.Gives.hold`): while it is held, its own rank is the bound. -/

namespace ComponentView

variable {rank : DefinitionId → ℕ} {lib : Library} {st : Stage rank}

/-! ## What a world is graded by -/

/-- Where a run stands once all definitions of a world are known. -/
def Stage.tell (st : Stage rank) {w : World} (h : w.Graded lib st) : Stage rank where
  known := w.definition?
  mounted := st.mounted
  busy := st.busy
  bound := st.bound
  running := st.running
  rounds := st.rounds
  above i hi := (st.above i hi).imp fun _ hk => ⟨h.known _ _ hk.1, hk.2⟩
  within := st.within

/-- More is known at the second stage, and nothing else is different. -/
structure Stage.Leads (st st' : Stage rank) : Prop where
  known : st.known.Grows st'.known
  mounted : st'.mounted = st.mounted
  busy : st'.busy = st.busy
  bound : st'.bound = st.bound
  running : st'.running = st.running
  rounds : st'.rounds = st.rounds

/-- A stage leads to itself. -/
theorem Stage.Leads.refl (st : Stage rank) : st.Leads st := ⟨fun _ _ h => h, rfl, rfl, rfl, rfl, rfl⟩

/-- A stage leads to where the stages lead that it leads to. -/
theorem Stage.Leads.trans {st st' st'' : Stage rank} (h : st.Leads st') (h' : st'.Leads st'') :
    st.Leads st'' where
  known i k hk := h'.known i k (h.known i k hk)
  mounted := h'.mounted.trans h.mounted
  busy := h'.busy.trans h.busy
  bound := h'.bound.trans h.bound
  running := h'.running.trans h.running
  rounds := h'.rounds.trans h.rounds

/-- The instance is not held, and does not rank above the bound. -/
structure Stage.Admits (st : Stage rank) (i : InstanceId) : Prop where
  free : i ∉ st.busy
  low : st.known.UpTo rank st.bound i

/-- An instance that a stage admits is admitted at later ones. -/
theorem Stage.Admits.leads {st st' : Stage rank} {i : InstanceId} (h : st.Admits i)
    (leads : st.Leads st') : st'.Admits i :=
  ⟨leads.busy ▸ h.free, leads.bound ▸ h.low.grows leads.known⟩

/-- An instance that ranks below the bound is not held. -/
theorem Knowledge.Below.admits {i : InstanceId} (h : st.known.Below rank st.bound i) :
    st.Admits i := by
  obtain ⟨k, hk, hlt⟩ := h
  refine ⟨fun hb => ?_, .inr ⟨k, hk, hlt.le⟩⟩
  obtain ⟨k', hk', hle⟩ := st.above i hb
  obtain rfl := Option.some.inj (hk.symm.trans hk')
  exact absurd hle (not_le.mpr hlt)

namespace World

variable {w later : World}

/-- Listeners may go, and more may come to be known of definitions. -/
theorem Wired.stays (h : w.Wired lib st) (grows : Knowledge.Grows w.definition? later.definition?)
    (hushed : Document.Hushed w.document later.document) (reactive : later.reactive = w.reactive) :
    later.Wired lib st := by
  simp only [World.reactive, Prod.mk.injEq] at reactive
  obtain ⟨cells, mounts, waiting, running, published⟩ := reactive
  exact
    { mounted_eq := by rw [mounts]; exact h.mounted_eq
      heard := fun hl => by
        obtain ⟨k, hk, hears⟩ := h.heard (hushed _ hl)
        exact ⟨k, grows _ _ hk, hears⟩
      follows := by rw [cells]; exact h.follows
      cells := by rw [cells]; exact h.cells
      told := by rw [published]; exact fun he hm same => (h.told he hm same).grows grows
      running_eq := running.trans h.running_eq
      idle := by rw [waiting]; exact h.idle
      waits := by rw [waiting]; exact fun hid hm => (h.waits hid hm).grows grows }

namespace Graded

/-- Only the instances, the pools, the list of held instances, observables, mounts and new listeners
matter. -/
theorem quiet (h : w.Graded lib st) (instances : later.instances = w.instances)
    (pools : later.pools = w.pools) (busy : later.busy = w.busy)
    (reactive : later.reactive = w.reactive)
    (hushed : Document.Hushed w.document later.document) : later.Graded lib st := by
  have definition := definition?_congr instances
  exact
    { h.toWired.stays (by rw [definition]; exact fun _ _ h => h) hushed reactive with
      busy_eq := busy.trans h.busy_eq
      known := definition ▸ h.known
      ranked := fun hi hb => definition ▸ h.ranked (instances ▸ hi) hb
      pooled := fun hi => definition ▸ h.pooled (by rwa [pool, pools] at hi) }

/-- At the stage at which all is known that the world knows. -/
theorem tell (h : w.Graded lib st) : w.Graded lib (st.tell h) :=
  { h with known := fun _ _ h => h }

/-- A stage leads to what the world tells. -/
theorem leads (h : w.Graded lib st) : st.Leads (st.tell h) := ⟨h.known, rfl, rfl, rfl, rfl, rfl⟩

/-- What is more at a later stage is not needed. -/
theorem of_leads {st' : Stage rank} (h : w.Graded lib st') (leads : st.Leads st') :
    w.Graded lib st where
  mounted_eq := leads.mounted ▸ h.mounted_eq
  heard := h.heard
  follows := leads.mounted ▸ h.follows
  cells := leads.mounted ▸ h.cells
  told := leads.mounted ▸ h.told
  running_eq := h.running_eq.trans leads.running
  idle := leads.running ▸ h.idle
  waits := leads.rounds ▸ leads.mounted ▸ h.waits
  busy_eq := h.busy_eq.trans leads.busy
  known i k hk := h.known i k (leads.known i k hk)
  ranked := leads.busy ▸ h.ranked
  pooled := h.pooled

/-- Spare instances are of the definition of the pool. -/
theorem setPool (h : w.Graded lib st) {id : DefinitionId} {spare : List InstanceId}
    (all : ∀ i ∈ spare, w.definition? i = some id) : (w.setPool id spare).Graded lib st :=
  { h with
    pooled := fun {k i} hi => by
      unfold pool World.setPool at hi
      rw [Array.getElem?_modify] at hi
      split at hi
      · next he =>
        subst he
        cases hp : w.pools[id]? with
        | none => simp [hp] at hi
        | some _ => exact all i (by simpa [hp] using hi)
      · exact h.pooled hi }

/-- What the world shows of a held instance does not matter. -/
theorem touch (h : w.Graded lib st) {i : InstanceId} (hi : i ∈ st.busy) {g : Instance → Instance}
    (hg : ∀ inst, (g inst).definition = inst.definition) :
    World.Graded lib st { w with instances := w.instances.modify i g } := by
  have definition := definition?_modify hg w i
  have wired : Wired lib st { w with instances := w.instances.modify i g } :=
    h.toWired.stays (definition ▸ fun _ _ h => h) (.refl _) rfl
  exact
    { wired with
      busy_eq := h.busy_eq
      known := definition ▸ h.known
      ranked := fun {j inst} hj hb => by
        have hne : i ≠ j := by
          rintro rfl
          exact hb hi
        rw [Array.getElem?_modify, if_neg hne] at hj
        exact definition ▸ h.ranked hj hb
      pooled := fun hj => definition ▸ h.pooled hj }

/-- A new instance joins. -/
theorem push (h : w.Graded lib st) {inst : Instance}
    (ranked : (Claim.entry rank (rank inst.definition)).all.holds w.definition? inst.stash) :
    World.Graded lib st { w with instances := w.instances.push inst } := by
  have grows : Knowledge.Grows w.definition?
      (World.definition? { w with instances := w.instances.push inst }) := by
    intro i k hk
    obtain ⟨old, hi, rfl⟩ := Option.map_eq_some_iff.mp hk
    exact definition?_of_get (getElem?_push_of_get hi inst)
  exact
    { h.toWired.stays grows (.refl _) rfl with
      busy_eq := h.busy_eq
      known := fun i k hk => grows i k (h.known i k hk)
      ranked := fun {j inst'} hj hb => by
        rw [Array.getElem?_push] at hj
        split at hj
        · obtain rfl := Option.some.inj hj
          exact (Claim.all _).steady grows ranked
        · exact (Claim.all _).steady grows (h.ranked hj hb)
      pooled := fun hj => grows _ _ (h.pooled hj) }

end Graded

end World

/-! ## Computations over the world -/

/-- Somebody asked for an instance that was held. -/
def Stop.Clash (stop : Stop) : Prop := ∃ i, stop = .abort (.alreadyHeld i)

/-- Nobody asked for an instance that was held, and what holds before holds after a failure. -/
def Sinking {σ : Type} (P : σ → Prop) (stop : Stop) (s : σ) : Prop := ¬ stop.Clash ∧ Failing P stop s

/-- Less may be said of where a computation stops. -/
theorem Sinking.mono {σ τ : Type} {P : σ → Prop} {Q : τ → Prop} {stop : Stop} {s : σ} {t : τ}
    (h : Sinking P stop s) (hpq : P s → Q t) : Sinking Q stop t := ⟨h.1, h.2.mono hpq⟩

/-- A run that is given up asks for no instance that is held, unless that is why. -/
theorem Sinking.of_abort {σ : Type} {P : σ → Prop} {cause : Abort} {s : σ}
    (h : ∀ i, cause ≠ .alreadyHeld i) : Sinking P (.abort cause) s :=
  ⟨fun ⟨i, hi⟩ => h i (Stop.abort.inj hi), .of_abort⟩

/-- From a stage on, also when more is known, the computation ends where more is claimed of its result,
and asks for no instance that is held. -/
def Run.Gives {α : Type} (lib : Library) (st : Stage rank) (claim : Claim α) (x : Run α) : Prop :=
  ∀ st', st.Leads st' → Ends (World.Graded lib st') x
    (fun a w => claim.holds w.definition? a ∧ w.Graded lib st') (Sinking (World.Graded lib st'))

/-- Nothing is claimed of the result. -/
abbrev Run.Sinks {α : Type} (lib : Library) (st : Stage rank) (x : Run α) : Prop :=
  Run.Gives lib st Claim.nothing x

/-- What is held at a stage is as claimed, and so is the world. -/
def Focus.Graded {α : Type} (lib : Library) (st : Stage rank) (good : Claim α) (f : Focus α) : Prop :=
  good.holds f.world.definition? f.held ∧ f.world.Graded lib st

/-- What is held stays as claimed, and more is claimed of the result. -/
def Holding.Gives {α β : Type} (lib : Library) (st : Stage rank) (good : Claim α) (claim : Claim β)
    (x : Holding α β) : Prop :=
  ∀ st', st.Leads st' → Ends (Focus.Graded lib st' good) x
    (fun b f => claim.holds f.world.definition? b ∧ f.Graded lib st' good)
    (Sinking (Focus.Graded lib st' good))

/-- Nothing is claimed of the result. -/
abbrev Holding.Sinks {α β : Type} (lib : Library) (st : Stage rank) (good : Claim α)
    (x : Holding α β) : Prop :=
  Holding.Gives lib st good Claim.nothing x

namespace Run.Gives

variable {α β γ : Type} {claim : Claim α} {claim' : Claim β}

/-- What the computation does at a stage it does at later ones. -/
theorem leads {x : Run α} (h : Gives lib st claim x) {st' : Stage rank} (more : st.Leads st') :
    Gives lib st' claim x := fun st'' leads => h st'' (more.trans leads)

/-- A result gives what is known of it. -/
theorem pure {a : α} (h : claim.holds st.known a) : Gives lib st claim (pure a) := fun _ leads =>
  Ends.pure fun _ hw => ⟨claim.steady hw.known (claim.steady leads.known h), hw⟩

/-- Two computations give what the second gives. -/
theorem bind {x : Run α} {f : α → Run β} (hx : Gives lib st claim x)
    (hf : ∀ a, Gives lib st claim' (f a)) : Gives lib st claim' (x >>= f) := fun st' leads =>
  Ends.bind (hx st' leads) fun a => (hf a st' leads).pre fun _ h => h.2

/-- What is claimed of the first result is known when it is used. -/
theorem bind_known {x : Run α} {f : α → Run β} (hx : Gives lib st claim x)
    (hf : ∀ st' a, st.Leads st' → claim.holds st'.known a → Gives lib st' claim' (f a)) :
    Gives lib st claim' (x >>= f) := fun st' leads =>
  Ends.bind (hx st' leads) fun a => .pointwise fun _ hw =>
    (hf (st'.tell hw.2) a (leads.trans hw.2.leads) hw.1 _ (.refl _)).mono
      (by rintro _ rfl; exact hw.2.tell) (fun _ _ h => ⟨h.1, h.2.of_leads hw.2.leads⟩)
      fun _ _ h => h.mono fun h => h.of_leads hw.2.leads

/-- What gives something sinks. -/
theorem sinks {x : Run α} (h : Gives lib st claim x) : Sinks lib st x := fun st' leads =>
  (h st' leads).post fun _ _ h => ⟨trivial, h.2⟩

/-- A run that looks at the world goes on with what it finds there. -/
theorem get_bind {f : World → Run α} (h : ∀ st' w, st.Leads st' → st'.known = w.definition? →
    w.Graded lib st' → Gives lib st' claim (f w)) : Gives lib st claim (get >>= f) :=
  fun st' leads => Ends.get.bind fun w => .pointwise fun v hv => by
    obtain ⟨rfl, hw⟩ := hv
    refine (h (st'.tell hw) _ (leads.trans hw.leads) rfl hw.tell _ (.refl _)).mono ?_
      (fun _ _ h => ⟨h.1, h.2.of_leads hw.leads⟩) fun _ _ h => h.mono fun h => h.of_leads hw.leads
    rintro _ rfl
    exact hw.tell

/-- A run that puts the world it has looked at in its place, with a change, goes on after that. -/
theorem get_set_bind {g : World → World} {f : World → Run α}
    (hg : ∀ st' w, st.Leads st' → w.Graded lib st' → (g w).Graded lib st')
    (h : ∀ st' w, st.Leads st' → w.Graded lib st' → Gives lib st' claim (f w)) :
    Gives lib st claim (do let w ← get; set (g w); f w) :=
  fun st' leads => Ends.get.bind fun w => .pointwise fun v hv => by
    obtain ⟨rfl, hw⟩ := hv
    have changed : Ends (w = ·) (set (g w)) (fun _ => World.Graded lib st')
        (Sinking (World.Graded lib st')) := fun _ _ => hg st' w leads hw
    exact changed.bind fun _ => (h st' w leads hw _ (.refl _))

/-- A loop sinks if its steps do. -/
theorem forM {f : γ → Run PUnit} {cs : List γ} (h : ∀ c ∈ cs, Sinks lib st (f c)) :
    Sinks lib st (cs.forM f) := by
  induction cs with
  | nil => exact pure trivial
  | cons c cs ih =>
    rw [List.forall_mem_cons] at h
    exact h.1.bind fun _ => ih h.2

/-- A loop gives of all results what its steps give of each. -/
theorem mapM {f : γ → Run α} {cs : List γ} (h : ∀ c ∈ cs, Gives lib st claim (f c)) :
    Gives lib st claim.all (cs.mapM f) := by
  induction cs generalizing st with
  | nil => exact pure (List.forall_mem_nil _)
  | cons c cs ih =>
    rw [List.forall_mem_cons] at h
    rw [List.mapM_cons]
    refine h.1.bind_known fun st' a leads ha => ?_
    refine (ih fun c' hc => (h.2 c' hc).leads leads).bind_known fun st'' as leads' has => pure ?_
    exact List.forall_mem_cons.mpr ⟨claim.steady leads'.known ha, has⟩

/-- A change with a result gives what it makes known. -/
theorem modifyGet {f : World → α × World} (h : ∀ st' w, st.Leads st' → w.Graded lib st' →
    claim.holds (f w).2.definition? (f w).1 ∧ (f w).2.Graded lib st') :
    Gives lib st claim (modifyGet f) := fun st' leads => Ends.modifyGet fun w hw => h st' w leads hw

/-- A change sinks if it leaves the world graded. -/
theorem modify {f : World → World}
    (h : ∀ st' w, st.Leads st' → w.Graded lib st' → (f w).Graded lib st') :
    Sinks lib st (modify f) := fun st' leads => Ends.modify fun w hw => ⟨trivial, h st' w leads hw⟩

/-- A change to the document sinks if nobody comes to be listened to. -/
theorem onDocument {f : Document Listener → Document Listener}
    (h : ∀ d, Document.Hushed d (f d)) : Sinks lib st (onDocument f) :=
  modify fun _ w _ hw => hw.quiet rfl rfl rfl rfl (h w.document)

/-- Writing into the journal sinks. -/
theorem say (entries : List Entry) : Sinks lib st (say entries) :=
  modify fun _ _ _ hw => hw.quiet rfl rfl rfl rfl (.refl _)

/-- Writing into the log sinks. -/
theorem log (level : Level) (line : String) : Sinks lib st (log level line) := say _

/-- Recording a value sinks. -/
theorem record (value : Value) : Sinks lib st (record value) := say _

/-- A computation that speaks sinks. -/
theorem traced (r : Traced α) : Sinks lib st (traced r) := (say _).bind fun _ => pure trivial

/-- Noting a newcomer sinks. -/
theorem welcome (i : InstanceId) : Sinks lib st (welcome i) :=
  modify fun _ _ _ hw => hw.quiet rfl rfl rfl rfl (.refl _)

/-- A failure gives anything. -/
theorem fail {cause : Fault} : Gives lib st claim (fail cause) := fun _ _ =>
  Ends.throw fun _ hw => ⟨nofun, fun _ _ => hw⟩

/-- A run that is given up gives anything, unless an instance was held. -/
theorem giveUp {cause : Abort} (h : ∀ i, cause ≠ .alreadyHeld i) :
    Gives lib st claim (giveUp cause) := fun _ _ => Ends.throw fun _ _ => .of_abort h

/-- Looking at an instance sinks if nobody holds it. -/
theorem look {i : InstanceId} (free : i ∉ st.busy) : Sinks lib st (look i) := fun _ leads =>
  (Ends.look_if (fun _ _ => .of_abort nofun)
    fun _ hw hb => absurd (leads.busy ▸ hw.busy_eq ▸ hb) free).post fun _ _ h => ⟨trivial, h.2.2⟩

/-- Asking for the root of an instance sinks if nobody holds it. -/
theorem rootOf {i : InstanceId} (free : i ∉ st.busy) : Sinks lib st (rootOf i) :=
  (look free).bind fun _ => pure trivial

/-- Asking for a definition sinks. -/
theorem definition (other : Library) (id : DefinitionId) :
    Sinks lib st (other.definition id) := fun _ _ =>
  (Ends.definition fun _ _ => .of_abort nofun).post fun _ _ h => ⟨trivial, h.2⟩

/-- A spare instance is of the definition of its pool. -/
theorem popPool (id : DefinitionId) :
    Gives lib st ⟨fun known r => ∀ i ∈ r, known i = some id, fun grows h i hi => grows _ _ (h i hi)⟩
      (popPool id) := by
  refine modifyGet fun st' w _ hw => ?_
  split
  · next i rest hp =>
    have all : ∀ j ∈ i :: rest, w.definition? j = some id := fun j hj => hw.pooled (hp ▸ hj)
    rw [List.forall_mem_cons] at all
    exact ⟨fun j hj => Option.some.inj hj ▸ all.1, hw.setPool all.2⟩
  · exact ⟨nofun, hw⟩

/-- Putting an instance into the pool of its definition sinks. -/
theorem pushPool {id : DefinitionId} {i : InstanceId} (hi : st.known i = some id) :
    Sinks lib st (pushPool id i) :=
  modify fun _ _ leads hw => hw.setPool
    (List.forall_mem_cons.mpr ⟨hw.known _ _ (leads.known _ _ hi), fun _ => hw.pooled⟩)

/-- An attempt goes on after a failure. -/
theorem attempt {x : Run α} (h : Gives lib st claim x) : Gives lib st claim.ifOk (attempt x) :=
  fun st' leads => (Ends.attempt (h st' leads)).post fun r w hw => by
    cases r with
    | ok a => exact ⟨fun b hb => Except.ok.inj hb ▸ (hw.1 a rfl).1, (hw.1 a rfl).2⟩
    | error fault => exact ⟨nofun, (hw.2 fault rfl).2 fault rfl⟩

/-- Showing the stash of a held instance changes no instance that is not held. -/
theorem showStash (stash : List StashItem) : Sinks lib st (showStash stash) := by
  refine modify fun st' w _ hw => ?_
  split
  · next i rest hb =>
    exact hw.touch (by rw [← hw.busy_eq, hb]; exact List.mem_cons_self) fun _ => rfl
  · exact hw

/-- An instance that is not held and does not rank above the bound may be held. Its own rank is the
bound while it is. -/
theorem hold {i : InstanceId} {x : Holding Instance α} (admits : st.Admits i)
    (h : ∀ (st' : Stage rank) (k : DefinitionId), st.known.Grows st'.known → st'.bound = rank k →
      st'.known i = some k → Holding.Gives lib st' (Claim.ranked rank k) claim x) :
    Gives lib st claim (hold i x) := by
  intro now leads
  obtain ⟨free, low⟩ := admits
  rw [← leads.busy] at free
  rw [← leads.bound] at low
  refine Ends.hold_if (fun _ _ => .of_abort nofun)
    (fun _ hw hb => absurd (hw.busy_eq ▸ hb) free) fun w inst hw hi hb => ?_
  have hk := World.definition?_of_get hi
  have le : (rank inst.definition : ℕ∞) ≤ now.bound := by
    rcases low with top | ⟨k, hk', le⟩
    · exact top ▸ le_top
    · rwa [Option.some.inj (hk.symm.trans (hw.known _ _ (leads.known _ _ hk')))]
  let inner : Stage rank :=
    { known := w.definition?
      mounted := now.mounted
      busy := i :: now.busy
      bound := rank inst.definition
      running := now.running
      rounds := now.rounds
      above := List.forall_mem_cons.mpr ⟨⟨_, hk, le_rfl⟩, fun j hj => (now.above j hj).imp
        fun k hk => ⟨hw.known _ _ hk.1, le.trans hk.2⟩⟩
      within := fun running => le.trans (now.within running) }
  have enter : World.Graded lib inner { w with busy := i :: w.busy } :=
    { hw with
      busy_eq := congrArg (i :: ·) hw.busy_eq
      known := fun _ _ h => h
      ranked := fun hj hb => hw.ranked hj fun hm => hb (List.mem_cons_of_mem _ hm) }
  have definition {f : Focus Instance} (hf : f.Graded lib inner (Claim.ranked rank inst.definition)) :
      World.definition? (Run.hold.back i w.busy f) = f.world.definition? :=
    funext (World.definition?_put (hf.1.1 ▸ hf.2.known _ _ hk))
  -- It comes back whether the work on it ends or stops.
  have back {f : Focus Instance} (hf : f.Graded lib inner (Claim.ranked rank inst.definition)) :
      (Run.hold.back i w.busy f).Graded lib now := by
    have same := definition hf
    obtain ⟨⟨own, stash⟩, graded⟩ := hf
    have wired : (Run.hold.back i w.busy f).Wired lib inner :=
      graded.toWired.stays (same ▸ fun _ _ h => h) (.refl _) rfl
    exact
      { wired with
        busy_eq := hw.busy_eq
        known := fun j k hj => same ▸ graded.known _ _ (hw.known _ _ hj)
        ranked := fun {j inst'} hj hn => by
          rw [same]
          rcases eq_or_get_of_put hj with ⟨rfl, rfl⟩ | ⟨hne, hj⟩
          · rwa [own]
          · exact graded.ranked hj (List.not_mem_cons_of_ne_of_not_mem hne hn)
        pooled := fun hj => same ▸ graded.pooled hj }
  have grows : st.known.Grows inner.known := fun j k hj => hw.known j k (leads.known j k hj)
  refine (h inner inst.definition grows rfl hk inner (.refl _)).mono ?_
    (fun a f hf => ⟨(definition hf.2).symm ▸ hf.1, back hf.2⟩) fun _ _ hf => hf.mono back
  rintro _ rfl
  exact ⟨⟨rfl, hw.ranked hi (hw.busy_eq ▸ hb)⟩, enter⟩

end Run.Gives

/-! ## Computations over what is held -/

namespace Holding.Gives

variable {α β γ δ : Type} {good : Claim α} {claim : Claim β} {claim' : Claim γ}

/-- A result gives what is known of it. -/
theorem pure {b : β} (h : claim.holds st.known b) : Gives lib st good claim (pure b) := fun _ leads =>
  Ends.pure fun _ hf => ⟨claim.steady hf.2.known (claim.steady leads.known h), hf⟩

/-- Two computations give what the second gives. -/
theorem bind {x : Holding α β} {f : β → Holding α γ} (hx : Gives lib st good claim x)
    (hf : ∀ b, Gives lib st good claim' (f b)) : Gives lib st good claim' (x >>= f) :=
  fun st' leads => Ends.bind (hx st' leads) fun b => (hf b st' leads).pre fun _ h => h.2

/-- What is claimed of the first result is known when it is used. -/
theorem bind_known {x : Holding α β} {f : β → Holding α γ} (hx : Gives lib st good claim x)
    (hf : ∀ st' b, st.Leads st' → claim.holds st'.known b → Gives lib st' good claim' (f b)) :
    Gives lib st good claim' (x >>= f) := fun st' leads =>
  Ends.bind (hx st' leads) fun b => .pointwise fun _ hg =>
    (hf (st'.tell hg.2.2) b (leads.trans hg.2.2.leads) hg.1 _ (.refl _)).mono
      (by rintro _ rfl; exact ⟨hg.2.1, hg.2.2.tell⟩)
      (fun _ _ h => ⟨h.1, h.2.1, h.2.2.of_leads hg.2.2.leads⟩)
      fun _ _ h => h.mono fun h => ⟨h.1, h.2.of_leads hg.2.2.leads⟩

/-- Looking at what is held gives what is claimed of it. -/
theorem held : Gives lib st good good Holding.held := fun _ _ _ hf => ⟨hf.1, hf⟩

/-- A loop sinks if its steps do. -/
theorem forM {f : δ → Holding α PUnit} {cs : List δ} (h : ∀ c ∈ cs, Sinks lib st good (f c)) :
    Sinks lib st good (cs.forM f) := by
  induction cs with
  | nil => exact pure trivial
  | cons c cs ih =>
    rw [List.forall_mem_cons] at h
    exact h.1.bind fun _ => ih h.2

/-- A change to what is held sinks if it stays as claimed. -/
theorem change {g : α → α} (h : ∀ known a, st.known.Grows known → good.holds known a →
    good.holds known (g a)) : Sinks lib st good (change g) := fun _ leads =>
  Ends.change fun a _ hf =>
    ⟨trivial, h _ a (fun i k hk => hf.2.known i k (leads.known i k hk)) hf.1, hf.2⟩

/-- What is claimed of what is held stays true, for definitions stay known. -/
theorem outside {x : Run β} (h : Run.Gives lib st claim x) : Gives lib st good claim (outside x) :=
  fun st' leads => .pointwise fun f hf => .outside fun a => by
    have run := h (st'.tell hf.2) (leads.trans hf.2.leads)
    refine .pointwise fun w hw => (run.mono ?_ (fun b v hv => ?_) fun stop v hv => ?_)
    · rintro _ rfl
      obtain rfl := hw
      exact hf.2.tell
    · obtain rfl := hw
      exact ⟨hv.1, good.steady hv.2.known hf.1, hv.2.of_leads hf.2.leads⟩
    · obtain rfl := hw
      exact hv.mono fun h => ⟨good.steady h.known hf.1, h.of_leads hf.2.leads⟩

/-- A part of what is held is worked on. -/
theorem within {good' : Claim δ} {part : α → δ} {put : δ → α → α} {x : Holding δ β}
    (hpart : ∀ known a, st.known.Grows known → good.holds known a → good'.holds known (part a))
    (hput : ∀ known later c a, known.Grows later → good'.holds later c → good.holds known a →
      good.holds later (put c a))
    (h : Gives lib st good' claim x) : Gives lib st good claim (within part put x) := by
  intro st' leads f hf
  have run := h (st'.tell hf.2) (leads.trans hf.2.leads) ⟨part f.held, f.world⟩
    ⟨hpart _ _ (fun i k hk => hf.2.known i k (leads.known i k hk)) hf.1, hf.2.tell⟩
  unfold Holding.within
  cases hx : x ⟨part f.held, f.world⟩ with
  | ok b g =>
    rw [hx] at run
    exact ⟨run.1, hput _ _ _ _ run.2.2.known run.2.1 hf.1, run.2.2.of_leads hf.2.leads⟩
  | error stop g =>
    rw [hx] at run
    exact run.mono fun hg => ⟨hput _ _ _ _ hg.2.known hg.1 hf.1, hg.2.of_leads hf.2.leads⟩

/-- Welcoming newcomers gives what the patch gives. -/
theorem welcoming {x : Holding α β} (h : Gives lib st good claim x) :
    Gives lib st good claim (welcoming x) := fun st' leads =>
  .welcoming ((h st' leads).mono (fun _ h => h)
    (fun _ _ h _ => ⟨h.1, h.2.1, h.2.2.quiet rfl rfl rfl rfl (.refl _)⟩)
    fun _ _ h _ => h.mono fun h => ⟨h.1, h.2.quiet rfl rfl rfl rfl (.refl _)⟩)

end Holding.Gives

end ComponentView
