import ComponentView.Engine
import Mathlib.Data.List.Forall2

/-! # What a computation comes to

A computation over the world ends with a result or stops, and either way it leaves a state behind.
`Ends` says what holds of both, given what holds before; its rules follow the ways in which
computations are put together. -/

namespace ComponentView

variable {ε σ α β γ : Type}

/-- A computation goes on with the result of its first part. -/
theorem bind_ok {x : EStateM ε σ α} {f : α → EStateM ε σ β} {s later : σ} {a : α}
    (h : x s = .ok a later) : (x >>= f) s = f a later := by
  show EStateM.bind x f s = f a later
  rw [EStateM.bind, h]

/-- A computation stops with its first part. -/
theorem bind_error {x : EStateM ε σ α} {f : α → EStateM ε σ β} {s later : σ} {stop : ε}
    (h : x s = .error stop later) : (x >>= f) s = .error stop later := by
  show EStateM.bind x f s = .error stop later
  rw [EStateM.bind, h]

/-- An instance that is there and not held can be looked at. -/
theorem Run.look_eq {w : World} {i : InstanceId} {inst : Instance}
    (hi : w.instances[i]? = some inst) (hb : i ∉ w.busy) : Run.look i w = .ok inst w := by
  unfold Run.look
  rw [hi]
  exact if_neg hb

/-- An instance stays where it is when another is added. -/
theorem getElem?_push_of_get {instances : Array Instance} {i : InstanceId} {inst : Instance}
    (hi : instances[i]? = some inst) (added : Instance) :
    (instances.push added)[i]? = some inst := by
  rw [Array.getElem?_push_lt (Array.getElem?_eq_some_iff.mp hi).1]
  exact congrArg some (Array.getElem?_eq_some_iff.mp hi).2

/-- An instance that is put back as it was changes nothing. -/
theorem setIfInBounds_of_get {instances : Array Instance} {i : InstanceId} {inst : Instance}
    (hi : instances[i]? = some inst) : instances.setIfInBounds i inst = instances := by
  refine Array.ext_getElem? fun j => ?_
  rw [Array.getElem?_setIfInBounds]
  split
  · next he =>
    subst he
    rw [if_pos (Array.getElem?_eq_some_iff.mp hi).1, hi]
  · rfl

/-- Where one instance is put, any instance that is found is this one, or was there before. -/
theorem eq_or_get_of_put {instances : Array Instance} {i j : InstanceId} {inst inst' : Instance}
    (hj : (instances.setIfInBounds i inst)[j]? = some inst') :
    j = i ∧ inst' = inst ∨ j ≠ i ∧ instances[j]? = some inst' := by
  rw [Array.getElem?_setIfInBounds] at hj
  split at hj
  · next he =>
    split at hj
    · exact .inl ⟨he.symm, (Option.some.inj hj).symm⟩
    · cases hj
  · next hne => exact .inr ⟨Ne.symm hne, hj⟩

/-- The run was given up; nothing failed. -/
def Stop.GivenUp (stop : Stop) : Prop := ∃ cause, stop = .abort cause

/-- The run was given up, and not over a key in an order that has no instance. -/
def Stop.Barred (stop : Stop) : Prop :=
  ∃ cause, stop = .abort cause ∧ ∀ key, cause ≠ .noOccupant key

/-- A run that is barred was given up. -/
theorem Stop.Barred.givenUp {stop : Stop} (h : stop.Barred) : stop.GivenUp := by
  obtain ⟨cause, h, -⟩ := h
  exact ⟨cause, h⟩

/-- What holds if a computation has failed; of a run that was given up nothing is said. -/
def Failing (P : σ → Prop) (stop : Stop) (s : σ) : Prop := ∀ cause, stop = .fault cause → P s

/-- Of a run that was given up nothing is said. -/
theorem Failing.of_givenUp {P : σ → Prop} {stop : Stop} {s : σ} (h : stop.GivenUp) :
    Failing P stop s := by
  rintro cause rfl
  obtain ⟨_, h⟩ := h
  cases h

/-- Of a run that was given up nothing is said, whatever the cause. -/
theorem Failing.of_abort {P : σ → Prop} {cause : Abort} {s : σ} : Failing P (.abort cause) s :=
  nofun

/-- Less may be said of a failure. -/
theorem Failing.mono {τ : Type} {P : σ → Prop} {Q : τ → Prop} {stop : Stop} {s : σ} {t : τ}
    (h : Failing P stop s) (hpq : P s → Q t) : Failing Q stop t := fun cause hc => hpq (h cause hc)

/-- From every state in which `P` holds the computation ends where `Q` holds of its result, or stops
where `E` holds of the reason. -/
def Ends (P : σ → Prop) (x : EStateM ε σ α) (Q : α → σ → Prop) (E : ε → σ → Prop) : Prop :=
  ∀ s, P s → match x s with
    | .ok a later => Q a later
    | .error stop later => E stop later

namespace Ends

variable {P P' : σ → Prop} {x : EStateM ε σ α} {Q Q' : α → σ → Prop} {E E' : ε → σ → Prop}

/-- A result follows from where the computation ends. -/
theorem of_ok (h : Ends P x Q E) {s later : σ} (hp : P s) {a : α} (hx : x s = .ok a later) :
    Q a later := by
  have := h s hp
  rwa [hx] at this

/-- A reason follows from where the computation stops. -/
theorem of_error (h : Ends P x Q E) {s later : σ} (hp : P s) {stop : ε}
    (hx : x s = .error stop later) : E stop later := by
  have := h s hp
  rwa [hx] at this

/-- More may be asked before a computation, and less said after it. -/
theorem mono (h : Ends P x Q E) (hp : ∀ s, P' s → P s) (hq : ∀ a s, Q a s → Q' a s)
    (he : ∀ stop s, E stop s → E' stop s) : Ends P' x Q' E' := by
  intro s hs
  have := h s (hp s hs)
  cases hx : x s with
  | ok a later => rw [hx] at this; exact hq a later this
  | error stop later => rw [hx] at this; exact he stop later this

/-- More may be asked before a computation. -/
theorem pre (h : Ends P x Q E) (hp : ∀ s, P' s → P s) : Ends P' x Q E :=
  h.mono hp (fun _ _ h => h) fun _ _ h => h

/-- Less may be said after a computation. -/
theorem post (h : Ends P x Q E) (hq : ∀ a s, Q a s → Q' a s) : Ends P x Q' E :=
  h.mono (fun _ h => h) hq fun _ _ h => h

/-- A part of what holds before that does not depend on the state. -/
theorem assume {a : Prop} (h : a → Ends P x Q E) : Ends (fun s => a ∧ P s) x Q E :=
  fun s hs => h hs.1 s hs.2

/-- It is enough to look at one state at a time. -/
theorem pointwise (h : ∀ s, P s → Ends (s = ·) x Q E) : Ends P x Q E := fun s hs => h s hs s rfl

/-- A result ends where it begins. -/
theorem pure {a : α} (h : ∀ s, P s → Q a s) : Ends P (pure a) Q E := h

/-- A computation in two parts ends where the second part does. -/
theorem bind {f : α → EStateM ε σ β} {R : β → σ → Prop} (hx : Ends P x Q E)
    (hf : ∀ a, Ends (Q a) (f a) R E) : Ends P (x >>= f) R E := by
  intro s hs
  have := hx s hs
  cases h : x s with
  | ok a later =>
    rw [bind_ok h]
    rw [h] at this
    exact hf a later this
  | error stop later =>
    rw [bind_error h]
    rwa [h] at this

/-- Two things that hold where a computation ends hold together. -/
theorem and (h : Ends P x Q E) (h' : Ends P' x Q' E') :
    Ends (fun s => P s ∧ P' s) x (fun a s => Q a s ∧ Q' a s) fun stop s => E stop s ∧ E' stop s := by
  intro s hs
  have := h s hs.1
  have := h' s hs.2
  cases hx : x s <;> simp_all only [and_self]

/-- Of every computation there is nothing to say. -/
theorem trivially (x : EStateM ε σ α) :
    Ends P x (fun _ _ => True) fun _ _ => True := by
  intro s _
  cases x s <;> trivial

/-- Looking at the state tells what it is. -/
theorem get : Ends P get (fun a s => a = s ∧ P s) E := fun _ h => ⟨rfl, h⟩

/-- A change ends with the changed state. -/
theorem modify {f : σ → σ} {Q : Unit → σ → Prop}
    (h : ∀ s, P s → Q () (f s)) : Ends P (modify f) Q E := h

/-- A change with a result ends with the changed state. -/
theorem modifyGet {f : σ → α × σ} (h : ∀ s, P s → Q (f s).1 (f s).2) :
    Ends P (modifyGet f) Q E := h

/-- A computation may stop at once. -/
theorem throw {stop : ε} (h : ∀ s, P s → E stop s) :
    Ends P (throw stop : EStateM ε σ α) Q E := h

/-- A failure leaves everything as it is. -/
theorem fail {P : World → Prop} {Q : α → World → Prop} {cause : Fault} :
    Ends P (Run.fail cause) Q (Failing P) := fun _ h _ _ => h

/-- Of a run that is given up nothing is said. -/
theorem giveUp {P R : World → Prop} {Q : α → World → Prop} {cause : Abort} :
    Ends P (Run.giveUp cause) Q (Failing R) := fun _ _ => .of_abort

/-- Nothing has to be shown of a failure if the computation only stops when it is given up. -/
theorem failing {x : EStateM Stop σ α} {Q : α → σ → Prop} {R : σ → Prop}
    (h : Ends P x Q fun stop _ => stop.GivenUp) : Ends P x Q (Failing R) :=
  h.mono (fun _ h => h) (fun _ _ h => h) fun _ _ h => .of_givenUp h

/-- What every step of a loop keeps, the loop keeps. -/
theorem forM {f : γ → EStateM ε σ PUnit} {cs : List γ}
    (h : ∀ c ∈ cs, Ends P (f c) (fun _ => P) E) : Ends P (cs.forM f) (fun _ => P) E := by
  induction cs with
  | nil => exact .pure fun _ h => h
  | cons c cs ih =>
    rw [List.forall_mem_cons] at h
    exact h.1.bind fun _ => ih h.2

/-- What each step of a loop adds for its item to what is done, the loop does for the list. -/
theorem forM_done {f : γ → EStateM ε σ PUnit} {J : List γ → σ → Prop} {cs : List γ}
    (h : ∀ done c rest, cs = done ++ c :: rest →
      Ends (J done) (f c) (fun _ => J (done ++ [c])) E) :
    Ends (J []) (cs.forM f) (fun _ => J cs) E := by
  -- What is left of the list after `done`.
  have onward (left : List γ) : ∀ done, cs = done ++ left →
      Ends (J done) (left.forM f) (fun _ => J cs) E := by
    induction left with
    | nil =>
      rintro done rfl
      exact .pure fun _ hj => by rwa [List.append_nil]
    | cons c left ih =>
      intro done split
      exact (h done c left split).bind fun _ => ih _ (by rw [split, List.append_assoc]; rfl)
  exact onward cs [] rfl

/-- An attempt answers with the fault of what it attempts. -/
theorem attempt {P : World → Prop} {x : Run α} {Q : α → World → Prop} {E : Stop → World → Prop}
    (h : Ends P x Q E) : Ends P (Run.attempt x)
      (fun r w => (∀ a, r = .ok a → Q a w) ∧ ∀ fault, r = .error fault → E (.fault fault) w) E := by
  intro w hw
  have := h w hw
  unfold Run.attempt
  cases hx : x w with
  | ok a later =>
    rw [hx] at this
    exact ⟨fun b hb => (Except.ok.inj hb) ▸ (show Q a later from this), fun _ h => nomatch h⟩
  | error stop later =>
    rw [hx] at this
    cases stop with
    | fault cause =>
      exact ⟨(fun _ h => nomatch h), fun c hc =>
        (Except.error.inj hc) ▸ (show E (.fault cause) later from this)⟩
    | abort cause => exact this

/-- An attempt stops only if the run is given up. -/
theorem attempt_givenUp {P : World → Prop} {x : Run α} {Q : α → World → Prop}
    {E : Stop → World → Prop} (h : Ends P x Q E) : Ends P (Run.attempt x)
      (fun r w => (∀ a, r = .ok a → Q a w) ∧ ∀ fault, r = .error fault → E (.fault fault) w)
      fun stop _ => stop.GivenUp := by
  intro w hw
  have := h.attempt w hw
  unfold Run.attempt at this ⊢
  cases hx : x w with
  | ok a later => rwa [hx] at this
  | error stop later =>
    rw [hx] at this
    cases stop with
    | fault cause => exact this
    | abort cause => exact ⟨cause, rfl⟩

/-- What each step of a loop makes of its item, the loop makes of the list. -/
theorem mapM {f : γ → EStateM ε σ β} {R : γ → β → Prop} {cs : List γ}
    (h : ∀ c ∈ cs, Ends P (f c) (fun b s => R c b ∧ P s) E) :
    Ends P (cs.mapM f) (fun bs s => List.Forall₂ R cs bs ∧ P s) E := by
  induction cs with
  | nil => exact .pure fun _ h => ⟨.nil, h⟩
  | cons c cs ih =>
    rw [List.forall_mem_cons] at h
    rw [List.mapM_cons]
    refine h.1.bind fun b => .assume fun hb => (ih h.2).bind fun bs => .assume fun hbs => ?_
    exact .pure fun _ hp => ⟨.cons hb hbs, hp⟩

end Ends

/-! ## What holds throughout -/

/-- Whichever of the properties `I` holds before the computation holds where it ends, and where it stops
`E` says of it what is left. -/
def Preserves {κ : Type} (I : κ → σ → Prop) (E : κ → ε → σ → Prop) (x : EStateM ε σ α) : Prop :=
  ∀ k, Ends (I k) x (fun _ => I k) (E k)

namespace Preserves

variable {κ : Type} {I : κ → σ → Prop} {E : κ → ε → σ → Prop}

/-- A result leaves everything as it is. -/
theorem pure (a : α) : Preserves I E (pure a) := fun _ => .pure fun _ h => h

/-- Looking at the state leaves it as it is. -/
theorem get : Preserves I E get := fun _ _ h => h

/-- What both parts of a computation preserve the whole does. -/
theorem bind {x : EStateM ε σ α} {f : α → EStateM ε σ β} (hx : Preserves I E x)
    (hf : ∀ a, Preserves I E (f a)) : Preserves I E (x >>= f) := fun k => (hx k).bind fun a => hf a k

/-- A computation may stop over what is left of what held before. -/
theorem throw {stop : ε} (h : ∀ k s, I k s → E k stop s) :
    Preserves I E (throw stop : EStateM ε σ α) := fun k => .throw (h k)

/-- A change preserves what still holds after it. -/
theorem modify {f : σ → σ} (h : ∀ k s, I k s → I k (f s)) : Preserves I E (modify f) :=
  fun k => .modify (h k)

/-- A change with a result preserves what still holds after it. -/
theorem modifyGet {f : σ → α × σ} (h : ∀ k s, I k s → I k (f s).2) : Preserves I E (modifyGet f) :=
  fun k => .modifyGet (h k)

/-- What every step of a loop preserves the loop does. -/
theorem forM {f : γ → EStateM ε σ PUnit} {cs : List γ} (h : ∀ c ∈ cs, Preserves I E (f c)) :
    Preserves I E (cs.forM f) := fun k => .forM fun c hc => h c hc k

/-- What every step of a loop with results preserves the loop does. -/
theorem mapM {f : γ → EStateM ε σ α} (h : ∀ c, Preserves I E (f c)) :
    (cs : List γ) → Preserves I E (cs.mapM f)
  | [] => pure _
  | c :: cs => by
    rw [List.mapM_cons]
    exact (h c).bind fun _ => (mapM h cs).bind fun _ => pure _

/-- What a computation preserves for an item it preserves also if there is none. -/
theorem optionMapM {f : γ → EStateM ε σ α} (h : ∀ c, Preserves I E (f c)) (c : Option γ) :
    Preserves I E (c.mapM f) := by
  cases c with
  | none => exact pure _
  | some c => exact (h c).bind fun _ => pure _

end Preserves

/-! ## Held values -/

namespace Ends

variable {P : Focus α → Prop} {E : Stop → Focus α → Prop}

/-- What goes on outside ends as it does by itself, whatever is held. -/
theorem outside {x : Run γ} {Q : γ → Focus α → Prop}
    (h : ∀ a, Ends (fun w => P ⟨a, w⟩) x (fun c w => Q c ⟨a, w⟩) fun stop w => E stop ⟨a, w⟩) :
    Ends P (Holding.outside x) Q E := by
  rintro ⟨a, w⟩ hp
  have := h a w hp
  unfold Holding.outside
  cases hx : x w <;> rw [hx] at this <;> exact this

/-- Looking at the held value tells what it is. -/
theorem held : Ends P Holding.held (fun a f => a = f.held ∧ P f) E := fun _ h => ⟨rfl, h⟩

/-- A run that looks at the held value first goes on with that value. -/
theorem held_bind {a : α} {P : World → Prop} {k : α → Holding α β} {Q : β → Focus α → Prop}
    (h : Ends (fun f => f.held = a ∧ P f.world) (k a) Q E) :
    Ends (fun f => f.held = a ∧ P f.world) (Holding.held >>= k) Q E := by
  rintro ⟨_, w⟩ ⟨rfl, hp⟩
  exact h ⟨_, w⟩ ⟨rfl, hp⟩

/-- A run that looks at the held value first goes on with that value, in a known world. -/
theorem held_at {a : α} {w : World} {k : α → Holding α β} {Q : β → Focus α → Prop}
    (h : Ends (fun f => f.held = a ∧ w = f.world) (k a) Q E) :
    Ends (⟨a, w⟩ = ·) (Holding.held >>= k) Q E :=
  (held_bind h).pre (by rintro _ rfl; exact ⟨rfl, rfl⟩)

/-- What goes on outside does not touch the held value. -/
theorem outside_eq {a : α} {x : Run γ} {P : World → Prop} {Q : γ → World → Prop} {E : Stop → Prop}
    (h : Ends P x Q fun stop _ => E stop) :
    Ends (fun f => f.held = a ∧ P f.world) (Holding.outside x) (fun c f => f.held = a ∧ Q c f.world)
      fun stop _ => E stop := by
  rintro ⟨b, w⟩ ⟨rfl, hp⟩
  have := h w hp
  unfold Holding.outside
  cases hx : x w <;> rw [hx] at this
  · exact ⟨rfl, this⟩
  · exact this

/-- A run that looks at the world first goes on with what it finds there, where that is known. -/
theorem outside_bind {a : α} {c : γ} {x : Run γ} {P : World → Prop} {E' : Stop → Prop}
    {k : γ → Holding α β} {Q : β → Focus α → Prop}
    (hx : Ends P x (fun b w => b = c ∧ P w) fun stop _ => E' stop)
    (h : Ends (fun f => f.held = a ∧ P f.world) (k c) Q fun stop _ => E' stop) :
    Ends (fun f => f.held = a ∧ P f.world) (Holding.outside x >>= k) Q fun stop _ => E' stop := by
  refine (outside_eq hx).bind fun b f hf => ?_
  obtain ⟨held, rfl, hp⟩ := hf
  exact h f ⟨held, hp⟩

/-- What goes on outside does not touch the held value, also where it stops. -/
theorem outside_at {a : α} {x : Run γ} {P : World → Prop} {Q : γ → World → Prop}
    {E : Stop → World → Prop} (h : Ends P x Q E) :
    Ends (fun f => f.held = a ∧ P f.world) (Holding.outside x) (fun c f => f.held = a ∧ Q c f.world)
      fun stop f => f.held = a ∧ E stop f.world := by
  rintro ⟨b, w⟩ ⟨rfl, hp⟩
  have := h w hp
  unfold Holding.outside
  cases hx : x w <;> rw [hx] at this <;> exact ⟨rfl, this⟩

/-- A change to the held value leaves the world alone. -/
theorem change {g : α → α} {Q : Unit → Focus α → Prop}
    (h : ∀ a w, P ⟨a, w⟩ → Q () ⟨g a, w⟩) : Ends P (Holding.change g) Q E := fun f hp =>
  h f.held f.world hp

/-- After a patch no instance is a newcomer any more, which only the world's list of them shows. -/
theorem welcoming {x : Holding α β} {P : Focus α → Prop} {Q : β → Focus α → Prop}
    {E : Stop → Focus α → Prop}
    (h : Ends P x (fun b f => ∀ newcomers, Q b { f with world := { f.world with newcomers } })
      fun stop f => ∀ newcomers, E stop { f with world := { f.world with newcomers } }) :
    Ends P (Holding.welcoming x) Q E := by
  intro f hf
  have := h f hf
  unfold Holding.welcoming
  cases hx : x f <;> rw [hx] at this <;> exact this _

/-- An instance is held in the world as it is, and put back into what the world has become. -/
theorem hold_if {i : InstanceId} {x : Holding Instance α} {P : World → Prop} {Q : α → World → Prop}
    {E : Stop → World → Prop} (none : ∀ w, P w → E (.abort (.noInstance i)) w)
    (taken : ∀ w, P w → i ∈ w.busy → E (.abort (.alreadyHeld i)) w)
    (h : ∀ w inst, P w → w.instances[i]? = some inst → i ∉ w.busy →
      Ends (fun f => f = ⟨inst, { w with busy := i :: w.busy }⟩) x
        (fun a f => Q a (Run.hold.back i w.busy f)) fun stop f => E stop (Run.hold.back i w.busy f)) :
    Ends P (Run.hold i x) Q E := by
  intro w hw
  unfold Run.hold Run.look
  cases hi : w.instances[i]? with
  | none => exact none w hw
  | some inst =>
    by_cases hb : i ∈ w.busy
    · simp only [hb, if_true]
      exact taken w hw hb
    · simp only [hb, if_false]
      have := h w inst hw hi hb _ rfl
      cases hx : x ⟨inst, { w with busy := i :: w.busy }⟩ with
      | ok a f =>
        rw [hx] at this
        exact this
      | error stop f =>
        rw [hx] at this
        exact this

/-- The same where nothing is known of who is held. -/
theorem hold {i : InstanceId} {x : Holding Instance α} {P : World → Prop} {Q : α → World → Prop}
    {E : Stop → World → Prop} (none : ∀ w, P w → E (.abort (.noInstance i)) w)
    (taken : ∀ w, P w → E (.abort (.alreadyHeld i)) w)
    (h : ∀ w inst, P w → w.instances[i]? = some inst → i ∉ w.busy →
      Ends (fun f => f = ⟨inst, { w with busy := i :: w.busy }⟩) x
        (fun a f => Q a (Run.hold.back i w.busy f)) fun stop f => E stop (Run.hold.back i w.busy f)) :
    Ends P (Run.hold i x) Q E :=
  hold_if none (fun w hw _ => taken w hw) h

/-- An instance that is there and not held is held. -/
theorem hold_at {α : Type} {i : InstanceId} {inst : Instance} {x : Holding Instance α}
    {P : World → Prop} {Q : α → World → Prop}
    (there : ∀ w, P w → w.instances[i]? = some inst ∧ i ∉ w.busy)
    (h : ∀ w, P w → Ends (⟨inst, { w with busy := i :: w.busy }⟩ = ·) x
      (fun a f => Q a (Run.hold.back i w.busy f)) fun _ _ => False) :
    Ends P (Run.hold i x) Q fun _ _ => False := by
  intro w hw
  obtain ⟨hi, hb⟩ := there w hw
  have ends := h w hw _ rfl
  simp only [Run.hold, Run.look_eq hi hb]
  cases hx : x ⟨inst, { w with busy := i :: w.busy }⟩ with
  | ok a f =>
    rw [hx] at ends
    exact ends
  | error stop f =>
    rw [hx] at ends
    exact ends

/-- Looking at an instance that is not held. -/
theorem look_if {i : InstanceId} {P : World → Prop} {E : Stop → World → Prop}
    (none : ∀ w, P w → E (.abort (.noInstance i)) w)
    (taken : ∀ w, P w → i ∈ w.busy → E (.abort (.alreadyHeld i)) w) :
    Ends P (Run.look i) (fun inst w => w.instances[i]? = some inst ∧ i ∉ w.busy ∧ P w) E := by
  intro w hw
  unfold Run.look
  cases hi : w.instances[i]? with
  | none => exact none w hw
  | some inst =>
    by_cases hb : i ∈ w.busy
    · simp only [hb, if_true]
      exact taken w hw hb
    · simp only [hb, if_false]
      exact ⟨hi, not_false, hw⟩

/-- The same where nothing is known of who is held. -/
theorem look {i : InstanceId} {P : World → Prop} {E : Stop → World → Prop}
    (none : ∀ w, P w → E (.abort (.noInstance i)) w)
    (taken : ∀ w, P w → E (.abort (.alreadyHeld i)) w) :
    Ends P (Run.look i) (fun inst w => w.instances[i]? = some inst ∧ i ∉ w.busy ∧ P w) E :=
  look_if none fun w hw _ => taken w hw

/-- The root of an instance that is there and not held is found. -/
theorem rootOf {i : InstanceId} {P : World → Prop} {E : Stop → World → Prop}
    (none : ∀ w, P w → E (.abort (.noInstance i)) w)
    (taken : ∀ w, P w → E (.abort (.alreadyHeld i)) w) :
    Ends P (Run.rootOf i)
      (fun root w => w.instances[i]?.map (·.root) = some root ∧ i ∉ w.busy ∧ P w) E :=
  (look none taken).bind fun inst => .pure fun w h => ⟨by rw [h.1]; rfl, h.2⟩

/-- A definition is looked up in the library, and the world stays as it is. -/
theorem definition {library : Library} {id : DefinitionId} {P : World → Prop}
    {E : Stop → World → Prop} (none : ∀ w, P w → E (.abort (.noDefinition id)) w) :
    Ends P (library.definition id) (fun d w => library[id]? = some d ∧ P w) E := by
  unfold Library.definition
  split
  · next d hd => exact .pure fun _ h => ⟨hd, h⟩
  · exact none

end Ends

end ComponentView
