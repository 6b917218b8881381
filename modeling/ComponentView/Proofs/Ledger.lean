import ComponentView.Proofs.Readings

/-! # The books of a pass

What the effects of an instance have been run with cannot be read off the instance: the cache is
written when all effects of a callback have run. So a pass is followed here with a ledger
(`Booked.walk`), which notes every effect when it begins and every callback that is broken off;
leaving the ledger out gives the pass itself (`Booked.walk_erases`). As long as the last run of a
callback has not been broken off, all its effects were last run with what is remembered of it
(`Booked.Balanced`), and after an update that goes well this is what its lookup gives
(`Instance.in_step_of_update`). -/

namespace ComponentView

/-! ## Ledgers -/

/-- What the effects of the callbacks were last run with, and which callbacks were broken off in their
last run. A callback goes by its watch and its position there, an effect by its position there. -/
structure Ledger where
  last : (watch position effect : Nat) → Option Value
  broken : (watch position : Nat) → Bool

namespace Ledger

/-- Nothing has been run. -/
def blank : Ledger where
  last _ _ _ := none
  broken _ _ := false

/-- An effect begins. -/
def note (k position n : Nat) (value : Value) (l : Ledger) : Ledger :=
  { l with last := fun k' position' n' =>
      if k' = k ∧ position' = position ∧ n' = n then some value else l.last k' position' n' }

/-- A run of a callback begins, or it ends. -/
def mark (k position : Nat) (broken : Bool) (l : Ledger) : Ledger :=
  { l with broken := fun k' position' =>
      if k' = k ∧ position' = position then broken else l.broken k' position' }

end Ledger

/-! ## Passes with a ledger -/

/-- A pass and the ledger that is kept of its instance. -/
structure Booked where
  pass : Pass
  ledger : Ledger

namespace Booked

variable {α β : Type}

/-- Work on the pass that runs no effects of lookups. -/
def plain (x : Holding Pass α) : Holding Booked α :=
  Holding.within (·.pass) (fun p b => { b with pass := p }) x

/-- An entry in the ledger. -/
def enter (f : Ledger → Ledger) : Holding Booked Unit :=
  Holding.change fun b => { b with ledger := f b.ledger }

variable (s : Setting)

/-- Runs the effects of a callback, numbered from `n`, and notes each as it begins. -/
def runEffects (node : NodeId) (k position : Nat) (value : Value) :
    (n : Nat) → List Effect → Holding Booked Unit
  | _, [] => return
  | n, e :: rest => do
    enter (.note k position n value)
    plain (e.run s node value)
    runEffects node k position value (n + 1) rest

/-- Runs a callback. -/
def runCallback (node : NodeId) (k position : Nat) (c : Callback) : Holding Booked Unit := do
  match c.trigger with
  | .always => plain (Pass.runCallback s node k position c)
  | .lookup key =>
    let value ← plain (Pass.evaluate s key)
    unless ((← Holding.held).pass.cache.get? k position).any (· == value) do
      enter (.mark k position true)
      runEffects s node k position value 0 c.effects
      plain (Holding.change fun p => { p with
        effects := p.effects + c.effects.length
        cache := p.cache.set k position value })
      enter (.mark k position false)

/-- Runs the callbacks of a watch in order. -/
def runCallbacks (node : NodeId) (k : Nat) (w : Watch) : Holding Booked Unit :=
  w.callbacks.zipIdx.forM fun (c, position) => runCallback s node k position c

/-- Comes to a watch. -/
def visit (k : Nat) (w : Watch) (rest : Nat) : Holding Booked Nat := do
  let node ← plain (Holding.outside (s.node w.slot))
  plain (Holding.change fun p => { p with visits := p.visits ++ [k] })
  match w.shield with
  | none =>
    runCallbacks s node k w
    return 0
  | some shield =>
    if ← plain (Pass.applyShield s shield node) then
      runCallbacks s node k w
      return 0
    else
      let skip := min shield.skip rest
      plain <| Holding.outside <| Run.log .trace <|
        s.definition.name ++ ": watch " ++ Decimal.natText k ++ " hidden, skipping "
          ++ Decimal.natText skip
      plain (Holding.change fun p => { p with skipped := p.skipped + skip })
      return skip

/-- Walks a window of numbered watches, of which the first `skip` are passed over. -/
def walk : (skip : Nat) → List (Watch × Nat) → Holding Booked Unit
  | _, [] => return
  | skip + 1, _ :: rest => walk skip rest
  | 0, (w, k) :: rest => do
    let skip ← visit s k w rest.length
    walk skip rest

/-! ## Leaving the ledger out -/

/-- Without the ledger the first computation is the second. -/
def Erases (x : Holding Booked α) (y : Holding Pass α) : Prop :=
  ∀ b w, y ⟨b.pass, w⟩ = match x ⟨b, w⟩ with
    | .ok a f => .ok a ⟨f.held.pass, f.world⟩
    | .error stop f => .error stop ⟨f.held.pass, f.world⟩

namespace Erases

/-- A step that books nothing erases to itself. -/
theorem plain (y : Holding Pass α) : Erases (Booked.plain y) y := by
  intro b w
  unfold Booked.plain Holding.within
  cases y ⟨b.pass, w⟩ <;> rfl

/-- A result erases to itself. -/
theorem pure (a : α) : Erases (pure a) (pure a) := fun _ _ => rfl

/-- What is erased step by step is erased as a whole. -/
theorem bind {x : Holding Booked α} {y : Holding Pass α} {f : α → Holding Booked β}
    {g : α → Holding Pass β} (hx : Erases x y) (hf : ∀ a, Erases (f a) (g a)) :
    Erases (x >>= f) (y >>= g) := by
  intro b w
  have first := hx b w
  cases h : x ⟨b, w⟩ with
  | ok a later =>
    rw [h] at first
    rw [bind_ok h, bind_ok first]
    exact hf a later.held later.world
  | error stop later =>
    rw [h] at first
    rw [bind_error h, bind_error first]

/-- An entry leaves no trace. -/
theorem enter {f : Ledger → Ledger} {x : Unit → Holding Booked β} {y : Holding Pass β}
    (h : Erases (x ()) y) : Erases (enter f >>= x) y := fun b w => h { b with ledger := f b.ledger } w

/-- An entry in the books at the end is erased. -/
theorem enter_last {f : Ledger → Ledger} {x : Holding Booked Unit} {y : Holding Pass Unit}
    (h : Erases x y) : Erases (do x; Booked.enter f) y := by
  intro b w
  have first := h b w
  cases hx : x ⟨b, w⟩ with
  | ok a later => rw [hx] at first; rw [bind_ok hx, first]; rfl
  | error stop later => rw [hx] at first; rw [bind_error hx, first]

/-- Looking at the booked pass erases to looking at the pass. -/
theorem held_bind {x : Booked → Holding Booked β} {y : Pass → Holding Pass β}
    (h : ∀ b, Erases (x b) (y b.pass)) : Erases (Holding.held >>= x) (Holding.held >>= y) :=
  fun b w => h b b w

/-- A loop is erased item by item. -/
theorem forM {γ : Type} {f : γ → Holding Booked PUnit} {g : γ → Holding Pass PUnit}
    (h : ∀ c, Erases (f c) (g c)) (cs : List γ) : Erases (cs.forM f) (cs.forM g) := by
  induction cs with
  | nil => exact pure _
  | cons c cs ih => exact (h c).bind fun _ => ih

end Erases

variable {s}

/-- Without its entries the run of the effects is the one of the pass. -/
theorem runEffects_erases (node : NodeId) (k position : Nat) (value : Value) (n : Nat)
    (effects : List Effect) : Erases (runEffects s node k position value n effects)
      (effects.forM (Effect.run s node value)) := by
  induction effects generalizing n with
  | nil => exact .pure _
  | cons e rest ih => exact .enter ((Erases.plain _).bind fun _ => ih (n + 1))

/-- Without its entries the run of a callback is the one of the pass. -/
theorem runCallback_erases (node : NodeId) (k position : Nat) (c : Callback) :
    Erases (runCallback s node k position c) (Pass.runCallback s node k position c) := by
  unfold runCallback
  split
  · exact .plain _
  · next key ht =>
    unfold Pass.runCallback
    simp only [ht]
    refine (Erases.plain _).bind fun value => .held_bind fun b => ?_
    split
    · exact .pure _
    · refine .enter ((runEffects_erases node k position value 0 c.effects).bind fun _ => ?_)
      exact .enter_last (.plain _)

/-- Without its entries the run of a watch's callbacks is the one of the pass. -/
theorem runCallbacks_erases (node : NodeId) (k : Nat) (w : Watch) :
    Erases (runCallbacks s node k w) (Pass.runCallbacks s node k w) := by
  unfold runCallbacks Pass.runCallbacks
  exact .forM (fun (c, position) => runCallback_erases node k position c) _

/-- Without its entries a visit is the one of the pass. -/
theorem visit_erases (k : Nat) (w : Watch) (rest : Nat) :
    Erases (visit s k w rest) (Pass.visit s k w rest) := by
  unfold visit Pass.visit
  refine (Erases.plain _).bind fun node => (Erases.plain _).bind fun _ => ?_
  cases w.shield with
  | none => exact (runCallbacks_erases node k w).bind fun _ => .pure _
  | some shield =>
    refine (Erases.plain _).bind fun visible => ?_
    split
    · exact (runCallbacks_erases node k w).bind fun _ => .pure _
    · exact (Erases.plain _).bind fun _ => (Erases.plain _).bind fun _ => .pure _

/-- Without the ledger a pass is a pass. -/
theorem walk_erases (skip : Nat) (ws : List (Watch × Nat)) :
    Erases (walk s skip ws) (Pass.walk s skip ws) := by
  induction ws generalizing skip with
  | nil => cases skip <;> exact .pure _
  | cons x ws ih =>
    cases skip with
    | zero => exact (visit_erases x.2 x.1 ws.length).bind fun skip => ih skip
    | succ skip => exact ih skip

/-! ## What the ledger says -/

/-- The cache has a place for every callback, and all effects of a callback that was not broken off in
its last run were last run with what is remembered of the callback. -/
structure Balanced (t : Template) (cache : Cache) (ledger : Ledger) : Prop where
  shape : cache.map List.length = t.watches.map (·.callbacks.length)
  agrees : ∀ {k position w c}, t.watches[k]? = some w → w.callbacks[position]? = some c →
    ledger.broken k position = false → ∀ n < c.effects.length,
      ledger.last k position n = cache.get? k position

/-- A callback is being run with a value, and its first `n` effects have begun. -/
structure Running (t : Template) (k position : Nat) (value : Value) (n : Nat) (cache : Cache)
    (ledger : Ledger) : Prop where
  balanced : Balanced t cache ledger
  broken : ledger.broken k position = true
  last : ∀ m < n, ledger.last k position m = some value

variable {t : Template} {k position n : Nat} {w : Watch} {c : Callback} {value : Value} {cache : Cache}
  {ledger : Ledger}

/-- Blank books balance with an empty cache. -/
theorem balanced_blank : Balanced t (.empty t.watches) .blank := by
  refine ⟨by simp [Cache.empty, Function.comp_def], fun {k position} _ _ _ _ _ _ _ => ?_⟩
  show none = _
  unfold Cache.get? Cache.empty
  rw [List.getElem?_map]
  cases t.watches[k]? with
  | none => rfl
  | some w =>
    simp only [Option.map_some, Option.bind_some, List.getElem?_replicate]
    split <;> rfl

/-- Until its first effect begins nothing has been run. -/
theorem Balanced.start (h : Balanced t cache ledger) :
    Running t k position value 0 cache (ledger.mark k position true) := by
  refine ⟨⟨h.shape, fun {k' position'} w c hw hc hb => h.agrees hw hc ?_⟩, if_pos ⟨rfl, rfl⟩, nofun⟩
  simp only [Ledger.mark] at hb
  split at hb
  · cases hb
  · exact hb

/-- One more effect begins. -/
theorem Running.next (h : Running t k position value n cache ledger) :
    Running t k position value (n + 1) cache (ledger.note k position n value) := by
  refine ⟨⟨h.balanced.shape, fun {k' position'} w c hw hc hb m hm => ?_⟩, h.broken, fun m hm => ?_⟩
  · have other : ¬ (k' = k ∧ position' = position ∧ m = n) := by
      rintro ⟨rfl, rfl, -⟩
      exact Bool.false_ne_true (hb.symm.trans h.broken)
    exact (if_neg other).trans (h.balanced.agrees hw hc hb m hm)
  · by_cases he : m = n
    · exact if_pos ⟨rfl, rfl, he⟩
    · exact (if_neg fun h => he h.2.2).trans (h.last m (by omega))

/-- A callback of which all effects have run is not broken off. -/
theorem Running.finish (h : Running t k position value c.effects.length cache ledger)
    (hw : t.watches[k]? = some w) (hc : w.callbacks[position]? = some c) :
    Balanced t (cache.set k position value) (ledger.mark k position false) := by
  refine ⟨Cache.map_length_set.trans h.balanced.shape, fun {k' position'} w' c' hw' hc' hb m hm => ?_⟩
  by_cases hk : k' = k
  · subst hk
    obtain rfl := Option.some.inj (hw.symm.trans hw')
    by_cases hp : position' = position
    · subst hp
      obtain rfl := Option.some.inj (hc.symm.trans hc')
      have row : (cache.map List.length)[k']? = some w.callbacks.length := by
        rw [h.balanced.shape, List.getElem?_map, hw]
        rfl
      rw [Cache.get?_set_self row (List.getElem?_eq_some_iff.mp hc).1]
      exact h.last m hm
    · rw [Cache.get?_set_of_ne hp]
      exact h.balanced.agrees hw hc' ((if_neg fun h => hp h.2).symm.trans hb) m hm
  · unfold Cache.get?
    rw [Cache.getElem?_set_of_ne hk]
    exact h.balanced.agrees hw' hc' ((if_neg fun h => hk h.1).symm.trans hb) m hm

/-- Something holds of the cache and the ledger. -/
def Holds (P : Cache → Ledger → Prop) (f : Focus Booked) : Prop := P f.held.pass.cache f.held.ledger

variable {P Q : Cache → Ledger → Prop} {E : Stop → Focus Booked → Prop}

/-- Work on the pass that leaves the cache alone leaves the books alone. -/
theorem plain_holds {x : Holding Pass α} (h : Lasting Pass.Remembers x) :
    Ends (Holds P) (plain x) (fun _ => Holds P) fun _ => Holds P := by
  rintro ⟨⟨p, ledger⟩, w⟩ hp
  have same := h ⟨p, w⟩ _ rfl
  unfold plain Holding.within
  cases hx : x ⟨p, w⟩ with
  | ok a g =>
    rw [hx] at same
    show P g.held.cache ledger
    rwa [show g.held.cache = p.cache from same]
  | error stop g =>
    rw [hx] at same
    show P g.held.cache ledger
    rwa [show g.held.cache = p.cache from same]

/-- An entry makes of the books what the entry says. -/
theorem enter_holds {f : Ledger → Ledger} (h : ∀ cache ledger, P cache ledger → Q cache (f ledger)) :
    Ends (Holds P) (enter f) (fun _ => Holds Q) E := .change fun _ _ hp => h _ _ hp

/-- All effects of a callback begin one after another, unless one of them stops. -/
theorem runEffects_holds (node : NodeId) (effects : List Effect) :
    Ends (Holds (Running t k position value n)) (runEffects s node k position value n effects)
      (fun _ => Holds (Running t k position value (n + effects.length)))
      fun _ => Holds (Balanced t) := by
  induction effects generalizing n with
  | nil => exact .pure fun _ h => h
  | cons e rest ih =>
    rw [List.length_cons, Nat.add_comm rest.length, ← Nat.add_assoc]
    exact (enter_holds fun _ _ h => h.next).bind fun _ => ((plain_holds
      (Pass.effect_remembers node value e)).mono (fun _ h => h) (fun _ _ h => h)
        fun _ _ h => Running.balanced h).bind fun _ => ih

/-- A callback keeps the books balanced, also if it is broken off. -/
theorem runCallback_balanced (node : NodeId) (hw : t.watches[k]? = some w)
    (hc : w.callbacks[position]? = some c) :
    Ends (Holds (Balanced t)) (runCallback s node k position c) (fun _ => Holds (Balanced t))
      fun _ => Holds (Balanced t) := by
  unfold runCallback
  split
  · next always => exact plain_holds (Pass.always_remembers node k position always)
  · next key ht =>
    refine (plain_holds (Pass.evaluate_remembers key)).bind fun value => ?_
    refine Ends.held.bind fun b => Ends.pre ?_ fun _ h => h.2
    split
    · exact .pure fun _ h => h
    · refine (enter_holds fun _ _ h => h.start).bind fun _ =>
        (runEffects_holds node c.effects).bind fun _ => ?_
      rw [Nat.zero_add]
      refine Ends.bind (Q := fun _ => Holds fun cache ledger => ∃ before,
        cache = before.set k position value ∧ Running t k position value c.effects.length before ledger)
        ?_ fun _ => enter_holds ?_
      · rintro ⟨⟨p, ledger⟩, v⟩ h
        exact ⟨p.cache, rfl, h⟩
      · rintro _ ledger ⟨cache, rfl, h⟩
        exact h.finish hw hc

/-- The callbacks of a watch keep the books balanced. -/
theorem runCallbacks_balanced (node : NodeId) (hw : t.watches[k]? = some w) :
    Ends (Holds (Balanced t)) (runCallbacks s node k w) (fun _ => Holds (Balanced t))
      fun _ => Holds (Balanced t) :=
  .forM fun _ hx => runCallback_balanced node hw (List.mem_zipIdx_iff_getElem?.mp hx)

/-- A visit leaves the books balanced, also where it stops. -/
theorem visit_balanced (hw : t.watches[k]? = some w) (rest : Nat) :
    Ends (Holds (Balanced t)) (visit s k w rest) (fun _ => Holds (Balanced t))
      fun _ => Holds (Balanced t) := by
  unfold visit
  refine (plain_holds (Pass.outside_remembers _)).bind fun node =>
    Ends.bind (plain_holds (Pass.change_remembers fun _ => rfl)) fun _ => ?_
  split
  · exact (runCallbacks_balanced node hw).bind fun _ => .pure fun _ h => h
  · refine (plain_holds (Pass.applyShield_remembers _ _)).bind fun visible => ?_
    split
    · exact (runCallbacks_balanced node hw).bind fun _ => .pure fun _ h => h
    · exact (plain_holds (Pass.outside_remembers _)).bind fun _ =>
        Ends.bind (plain_holds (Pass.change_remembers fun _ => rfl)) fun _ => .pure fun _ h => h

/-- A pass keeps the books balanced, also if it stops. -/
theorem walk_balanced (skip : Nat) {ws : List (Watch × Nat)}
    (known : ∀ x ∈ ws, t.watches[x.2]? = some x.1) :
    Ends (Holds (Balanced t)) (walk s skip ws) (fun _ => Holds (Balanced t))
      fun _ => Holds (Balanced t) := by
  induction ws generalizing skip with
  | nil => cases skip <;> exact .pure fun _ h => h
  | cons x ws ih =>
    rw [List.forall_mem_cons] at known
    cases skip with
    | zero => exact (visit_balanced known.1 ws.length).bind fun skip => ih skip known.2
    | succ skip => exact ih skip known.2

end Booked

/-! ## Lives of an instance -/

namespace Instance

variable (engine : Engine) (d : Definition)

/-- A pass over a window of watches of an instance, with the ledger of the instance. -/
def bookedPass (start stop : Nat) (inst : Instance) (ledger : Ledger) (w : World) :
    EStateM.Result Stop (Focus Booked) Unit :=
  Booked.walk (.ofInstance engine d inst) 0 (d.template.window start stop)
    ⟨⟨Pass.start d.template inst, ledger⟩, w⟩

/-- What is there after a pass, whether it went well or stopped. -/
def afterPass (start stop : Nat) (inst : Instance) (ledger : Ledger) (w : World) : Focus Booked :=
  match bookedPass engine d start stop inst ledger w with
  | .ok _ f | .error _ f => f

/-- What an instance of a definition can have been through, with the ledger that has been kept of it.
After it was made it has been given other props, another controller, state or stash any number of
times, and windows of its watches have been updated, in any world and whether or not that went well. -/
inductive Lived : Instance → Ledger → Prop
  | made {inst : Instance} (cache : inst.cache = .empty d.template.watches) : Lived inst .blank
  | given {inst later : Instance} {ledger : Ledger} (h : Lived inst ledger)
    (cache : later.cache = inst.cache) : Lived later ledger
  | passed {inst : Instance} {ledger : Ledger} (h : Lived inst ledger) (start stop : Nat) (w : World) :
    Lived ((afterPass engine d start stop inst ledger w).held.pass.finish inst)
      (afterPass engine d start stop inst ledger w).held.ledger

variable {engine d} {inst : Instance} {ledger : Ledger} {w : World} {start stop : Nat}

/-- Whatever an instance has been through, its books are balanced. -/
theorem Lived.balanced (h : Lived engine d inst ledger) :
    Booked.Balanced d.template inst.cache ledger := by
  have known (start stop : Nat) : ∀ x ∈ d.template.window start stop,
      d.template.watches[x.2]? = some x.1 := fun x hx => (Setting.mem_window.mp hx).2.2
  induction h with
  | made cache => exact cache ▸ Booked.balanced_blank
  | given _ cache ih => exact cache ▸ ih
  | @passed inst ledger _ start stop w ih =>
    have ends := Booked.walk_balanced (s := .ofInstance engine d inst) 0 (known start stop)
      ⟨⟨Pass.start d.template inst, ledger⟩, w⟩ ih
    unfold afterPass
    cases run : bookedPass engine d start stop inst ledger w with
    | ok _ f => rwa [show Booked.walk _ _ _ _ = _ from run] at ends
    | error reason f => rwa [show Booked.walk _ _ _ _ = _ from run] at ends

/-- An update of a window is a pass with the ledger left out. -/
theorem updateWindow_booked (known : engine.library[inst.definition]? = some d) (ledger : Ledger) :
    updateWindow engine start stop ⟨inst, w⟩ =
      match bookedPass engine d start stop inst ledger w with
      | .ok _ f => .ok f.held.pass.stats ⟨f.held.pass.finish inst, f.world⟩
      | .error reason f => .error reason ⟨f.held.pass.finish inst, f.world⟩ := by
  rw [updateWindow_eq known, Booked.walk_erases 0 (d.template.window start stop)
    ⟨Pass.start d.template inst, ledger⟩ w]
  unfold bookedPass
  cases Booked.walk (.ofInstance engine d inst) 0 (d.template.window start stop)
    ⟨⟨Pass.start d.template inst, ledger⟩, w⟩ <;> rfl

/-- Take an instance that has been through anything, failed updates included, and an update of it that
goes well. Then take a watch that the update came to and a lookup of it: unless the last run of the
callback was broken off, each of its effects was last run with the value that the lookup has. -/
theorem in_step_of_update {options : CompileSettings} {name : String} {root : Node}
    (compiled : Template.compile options name root = .ok d.template)
    (known : engine.library[inst.definition]? = some d) (fits : inst.Fits d.template)
    (lived : Lived engine d inst ledger) {stats : PassStats} {f : Focus Instance}
    (updated : update engine ⟨inst, w⟩ = .ok stats f) :
    let later := afterPass engine d 0 d.template.watches.length inst ledger w
    f = ⟨later.held.pass.finish inst, later.world⟩ ∧
      ∀ k position c value, (Setting.ofInstance engine d inst).Sees k position c value →
        later.held.ledger.broken k position = false →
          ∀ n < c.effects.length, ∃ last, later.held.ledger.last k position n = some last ∧
            (last == value) = true := by
  intro later
  have balanced : Booked.Balanced d.template later.held.pass.cache later.held.ledger :=
    (lived.passed 0 d.template.watches.length w).balanced
  rw [update_eq known, updateWindow_booked known ledger] at updated
  cases run : bookedPass engine d 0 d.template.watches.length inst ledger w with
  | error reason g =>
    rw [run] at updated
    cases updated
  | ok _ g =>
    rw [run] at updated
    obtain rfl : later = g := by
      unfold later afterPass
      rw [run]
    cases updated
    refine ⟨rfl, fun k position c value sees whole n hn => ?_⟩
    obtain ⟨watch, key, shown, visible, hc, trigger, rfl⟩ := sees.mem_shown
    have hk := (Setting.mem_window.mp (List.mem_filter.mp shown).1).2.2
    -- The pass without its ledger has read the watch.
    have walked : Pass.walk (.ofInstance engine d inst) 0
        (d.template.window 0 d.template.watches.length) ⟨Pass.start d.template inst, w⟩
          = .ok () ⟨later.held.pass, later.world⟩ := by
      rw [Booked.walk_erases 0 _ ⟨Pass.start d.template inst, ledger⟩ w,
        show Booked.walk _ _ _ _ = _ from run]
    obtain ⟨-, read⟩ := (Pass.walk_reads (s := .ofInstance engine d inst) rfl
      (Template.wellPlanned_of_compile compiled) fits.elements
      (fun x hx => (Setting.mem_window.mp hx).2.2)
      (Template.exactWindow (Template.exactSkips_of_compile compiled) _ _)).of_ok
        ⟨⟨Memo.keeps_empty _ _, fits.stash⟩, lived.balanced.shape⟩ walked
    have seen := read _ shown visible (c, position) (List.mem_zipIdx_iff_getElem?.mpr hc) key trigger
    cases remembered : later.held.pass.cache.get? k position with
    | none =>
      rw [remembered] at seen
      cases seen
    | some last =>
      rw [remembered] at seen
      exact ⟨last, (balanced.agrees hk hc whole n hn).trans remembered, seen⟩

/-! A note that shows its text and may fail to. -/

/-- A note, which shows its text and fails if there is one. -/
def note : Node :=
  ⟨{ kind := .element "p"
     watches := [⟨.prop [.field "x"], .setText⟩, ⟨.prop [.field "x"], .failWhen "no"⟩] }, []⟩

/-- The definition of notes. -/
def noteDefinition : Definition :=
  .new "note" (.ofOutline {} note (Outline.ofRoot note))

/-- The engine of notes. -/
def noteEngine : Engine := .ofLibrary [noteDefinition]

/-- A world with a node for a note. -/
def noteWorld : World :=
  { World.empty 1 with document := ((World.empty 1).document.instantiate note.markup).1 }

/-- A new note, which has no text yet. -/
def newNote : Instance :=
  { definition := 0, root := 0, props := .null, state := .null, controller := none
    elements := [0], cache := [[none]], stash := [], mounted := false }

/-- The note is given a text. -/
def written (text : Value) (inst : Instance) : Instance := { inst with props := .map [("x", text)] }

/-- A note is given a text and updated. -/
def write (text : Value) (note : Instance × Ledger × World) : Instance × Ledger × World :=
  let later := afterPass noteEngine noteDefinition 0 noteDefinition.template.watches.length
    (written text note.1) note.2.1 note.2.2
  (later.held.pass.finish (written text note.1), later.held.ledger, later.world)

/-- A note that has shown `0` and then failed to show `1`. -/
def tornNote : Instance × Ledger × World :=
  write (.int 1) (write (.int 0) (newNote, .blank, noteWorld))

/-- Writing the text of an instance is among the things that may happen to it. -/
theorem Lived.written {inst : Instance} {ledger : Ledger}
    (h : Lived noteEngine noteDefinition inst ledger) (text : Value) :
    Lived noteEngine noteDefinition (written text inst) ledger := .given h rfl

/-- A note that is written to and updated has lived on. -/
theorem Lived.write {note : Instance × Ledger × World}
    (h : Lived noteEngine noteDefinition note.1 note.2.1) (text : Value) :
    Lived noteEngine noteDefinition (Instance.write text note).1 (Instance.write text note).2.1 :=
  (h.written text).passed 0 _ note.2.2

/-- The books after a write are those of the pass over all watches. -/
theorem write_ledger (text : Value) (note : Instance × Ledger × World) : (write text note).2.1 =
    (afterPass noteEngine noteDefinition 0 noteDefinition.template.watches.length
      (written text note.1) note.2.1 note.2.2).held.ledger := rfl

/-- The torn note has lived as an instance does. -/
theorem lived_tornNote : Lived noteEngine noteDefinition tornNote.1 tornNote.2.1 :=
  have made : Lived noteEngine noteDefinition newNote .blank := .made rfl
  have once : Lived noteEngine noteDefinition (write (.int 0) (newNote, .blank, noteWorld)).1
    (write (.int 0) (newNote, .blank, noteWorld)).2.1 := made.write (.int 0)
  once.write (.int 1)

/-- The callback of a note. -/
def noteCallback : Callback := ⟨.lookup 0, [.setText, .failWhen "no"]⟩

/-- After a write the callback of the note sees the new text. -/
theorem sees_written (text : Value) (inst : Instance) :
    (Setting.ofInstance noteEngine noteDefinition (written text inst)).Sees 0 0 noteCallback text := by
  refine ⟨_, 0, rfl, ?_, rfl, rfl, rfl, rfl⟩
  rintro ⟨j, above, below, -, hj, -⟩
  exact Nat.not_lt_zero j hj

/-- Whether an update of the torn note goes well with a text. -/
def mends (text : Value) : Bool :=
  match update noteEngine ⟨written text tornNote.1, tornNote.2.2⟩ with
  | .ok .. => true
  | .error .. => false

/-- A text that mends the torn note lets an update of it end. -/
theorem exists_of_mends {text : Value} (h : mends text = true) :
    ∃ stats f, update noteEngine ⟨written text tornNote.1, tornNote.2.2⟩ = .ok stats f := by
  unfold mends at h
  split at h
  · next stats f run => exact ⟨stats, f, run⟩
  · cases h

/-- A torn note that is given an empty text shows it. -/
theorem in_step_of_note :
    Template.compile {} "note" note = .ok noteDefinition.template ∧
      (written (.str "") tornNote.1).Fits noteDefinition.template ∧
      Lived noteEngine noteDefinition (written (.str "") tornNote.1) tornNote.2.1 ∧
      ∃ stats f, update noteEngine ⟨written (.str "") tornNote.1, tornNote.2.2⟩ = .ok stats f ∧
        ∀ n < 2, ∃ last, (write (.str "") tornNote).2.1.last 0 0 n = some last ∧
          (last == .str "") = true := by
  have compiled : Template.compile {} "note" note = .ok noteDefinition.template := rfl
  have fits : (written (.str "") tornNote.1).Fits noteDefinition.template :=
    ⟨by decide +kernel, by decide +kernel⟩
  have lived : Lived noteEngine noteDefinition (written (.str "") tornNote.1) tornNote.2.1 :=
    lived_tornNote.written _
  obtain ⟨stats, f, updated⟩ := exists_of_mends (show mends (.str "") = true by decide +kernel)
  have known : noteEngine.library[(written (.str "") tornNote.1).definition]? = some noteDefinition := rfl
  have whole : (write (.str "") tornNote).2.1.broken 0 0 = false := by decide +kernel
  obtain ⟨-, shows⟩ := in_step_of_update compiled known fits lived updated
  rw [write_ledger] at whole ⊢
  exact ⟨compiled, fits, lived, stats, f, updated, shows 0 0 noteCallback _ (sees_written _ _) whole⟩

/-- A torn note that is given back the text that it has shown before does not show it, though the update
goes well: what its text was last written with is what it has failed to show. -/
theorem torn_of_note :
    Lived noteEngine noteDefinition (written (.int 0) tornNote.1) tornNote.2.1 ∧
      (∃ stats f, update noteEngine ⟨written (.int 0) tornNote.1, tornNote.2.2⟩ = .ok stats f) ∧
      (Setting.ofInstance noteEngine noteDefinition (written (.int 0) tornNote.1)).Sees 0 0 noteCallback
        (.int 0) ∧
      ((write (.int 0) tornNote).2.1.last 0 0 0).any (· != .int 0) = true :=
  ⟨lived_tornNote.written _, exists_of_mends (by decide +kernel), sees_written _ _, by decide +kernel⟩

end Instance

end ComponentView
