import ComponentView.Proofs.Runs
import ComponentView.Proofs.WatchList
import ComponentView.Engine.Nested

/-! # What a pass visits

A lookup has one value in the scope of a pass, whenever it is asked for, so whether a shield hides
its node is settled from the start (`Setting.hides`). As the shields of a compiled template pass over
exactly the watches below them, the pass visits the watches of its window that no watch before them
in the window hides (`Pass.walk_ends`). Only an effect can stop it. -/

namespace ComponentView

/-! ## Values of lookups -/

namespace Memo

/-- What is kept are the values of the lookups in the scope. -/
def Keeps (m : Memo) (t : LookupTable) (scope : Scope) : Prop :=
  ∀ key v, m.slots[key]?.join = some v → v = (t.evaluate key scope).value

/-- An empty memo keeps only what is true. -/
theorem keeps_empty (t : LookupTable) (scope : Scope) : (empty t).Keeps t scope := by
  intro key v h
  simp only [empty, List.getElem?_replicate] at h
  split at h <;> cases h

/-- A lookup has the value of its expression, whether it is kept or computed. -/
theorem evaluate_spec {m : Memo} {t : LookupTable} {scope : Scope} (h : m.Keeps t scope)
    (key : LookupKey) :
    (m.evaluate t key scope).value.1 = (t.evaluate key scope).value ∧
      (m.evaluate t key scope).value.2.Keeps t scope := by
  unfold evaluate evaluate?
  split
  · exact ⟨rfl, h⟩
  · next v hv => exact ⟨h key v (by simp [hv]), h⟩
  · unfold LookupTable.evaluate at *
    cases found : t.evaluate? key scope with
    | none => exact ⟨rfl, h⟩
    | some value =>
      refine ⟨rfl, fun key' v hv => ?_⟩
      simp only [Option.map_some, Option.getD_some, Traced.value_bind, Traced.value_pure,
        List.getElem?_set] at hv
      split at hv
      · next hk =>
        subst hk
        rw [LookupTable.evaluate, found]
        split at hv
        · simpa using hv.symm
        · cases hv
      · exact h key' v hv

end Memo

/-! ## Caches -/

namespace Cache

variable {cache : Cache} {k position : Nat} {value : Value}

/-- Remembering a value keeps the shape of the cache. -/
theorem map_length_set : (cache.set k position value).map List.length = cache.map List.length := by
  refine List.ext_getElem? fun i => ?_
  rw [set, List.getElem?_map, List.getElem?_map, List.getElem?_modify]
  cases cache[i]? with
  | none => rfl
  | some row => by_cases h : k = i <;> simp [h]

/-- The value that is remembered is found again. -/
theorem get?_set_self {n : Nat} (h : (cache.map List.length)[k]? = some n) (hp : position < n) :
    (cache.set k position value).get? k position = some value := by
  rw [List.getElem?_map, Option.map_eq_some_iff] at h
  obtain ⟨row, hrow, rfl⟩ := h
  simp [set, get?, hrow, hp]

/-- Remembering a value for one callback leaves the others of the watch as they are. -/
theorem get?_set_of_ne {other : Nat} (h : other ≠ position) :
    (cache.set k position value).get? k other = cache.get? k other := by
  unfold get? set
  rw [List.getElem?_modify]
  cases cache[k]? with
  | none => rfl
  | some row => simp [h.symm]

/-- Remembering a value for one watch leaves the others as they are. -/
theorem getElem?_set_of_ne {i : Nat} (h : i ≠ k) :
    (cache.set k position value)[i]? = cache[i]? := by
  simp [set, h.symm]

end Cache

/-! ## What a pass can rely on -/

/-- The kind of entry that is planned. -/
def StashPlan.kind : StashPlan → StashKind
  | tracker _ => .tracker
  | child .. => .child
  | sequential .. => .sequential
  | keyed .. => .keyed

namespace Template

/-- Every watch works at a slot that there is, and every tracker is planned. -/
structure WellPlanned (t : Template) : Prop where
  slot : ∀ w ∈ t.watches, w.slot < t.slots.length
  parent : ∀ w ∈ t.watches, ∀ s ∈ w.shield, ∀ p ∈ s.detach, p.parent < t.slots.length
  tracker : ∀ w ∈ t.watches, ∀ s ∈ w.shield, ∀ p ∈ s.detach,
    (t.stash.map StashPlan.kind)[p.tracker]? = some .tracker

/-- A compiled template is well planned. -/
theorem wellPlanned_of_compile {options : CompileSettings} {name : String} {root : Node}
    {t : Template} (h : compile options name root = .ok t) : t.WellPlanned := by
  have sound := (accepts_of_compile h).1.sound
  obtain ⟨-, grows, -⟩ := Lay.finished_anchored sound options
  have covers := Lay.walked_covers sound options
  -- What a watch of the template says was said when the outline was walked.
  have said : ∀ w ∈ t.watches, ∃ i e v, (Lay.finished options (Outline.ofRoot root)).Watches i e v ∧
      w.slot = v.slot ∧ ∀ s ∈ w.shield, ∃ s' ∈ v.shield, s.detach = s'.detach := by
    intro w hw
    obtain ⟨n, hn⟩ := List.getElem?_of_mem hw
    rw [watches_of_compile h, Watch.withSkips_eq, Option.map_eq_some_iff] at hn
    obtain ⟨v, hv, rfl⟩ := hn
    obtain ⟨i, -, e, -, watched⟩ := covers.watches v (List.mem_of_getElem? hv)
    refine ⟨i, e, v, watched.grows grows, rfl, fun s hs => ?_⟩
    obtain ⟨s', hs', rfl⟩ := Option.map_eq_some_iff.mp hs
    exact ⟨s', hs', rfl⟩
  have ht : t = ofOutline options root (Outline.ofRoot root) := (accepts_of_compile h).2
  rw [ofOutline_eq] at ht
  have slots : t.slots.length = (Lay.finished options (Outline.ofRoot root)).owners.length := by
    rw [ht, List.length_map]
  -- The plan of a shield belongs to the entry of its watch.
  have detached : ∀ w ∈ t.watches, ∀ s ∈ w.shield, ∀ p ∈ s.detach,
      ∃ e, (Lay.finished options (Outline.ofRoot root)).Detaches e p := by
    intro w hw s hs p hp
    obtain ⟨i, e, v, watched, -, shields⟩ := said w hw
    obtain ⟨s', hs', hd⟩ := shields s hs
    have hv := watched.visibility
    rw [Option.mem_def.mp hs', Option.isSome_some] at hv
    obtain ⟨visibility, hvis⟩ := Option.isSome_iff_exists.mp hv.symm
    exact ⟨e, (watched.shield s' hs' visibility hvis).detach p (hd ▸ hp)⟩
  constructor
  · intro w hw
    obtain ⟨i, e, v, watched, slot, -⟩ := said w hw
    rw [slots, slot]
    exact (List.getElem?_eq_some_iff.mp watched.slot).1
  · intro w hw s hs p hp
    obtain ⟨e, hd⟩ := detached w hw s hs p hp
    obtain ⟨parent, -, owns, -⟩ := hd.parent
    rw [slots]
    exact (List.getElem?_eq_some_iff.mp owns).1
  · intro w hw s hs p hp
    obtain ⟨e, hd⟩ := detached w hw s hs p hp
    have planned := hd.tracker
    rw [Layout.Plans, List.getElem?_map, Option.map_eq_some_iff] at planned
    obtain ⟨plan, hplan, hbare⟩ := planned
    have stash : t.stash = (Lay.finished options (Outline.ofRoot root)).stash := by rw [ht]
    rw [List.getElem?_map, stash, hplan]
    cases plan <;> simp_all [StashPlan.bare, StashPlan.kind]

end Template

namespace Setting

variable (s : Setting)

/-- The value of a lookup in the scope of a pass. -/
def value (key : LookupKey) : Value :=
  (s.template.lookups.evaluate key s.scope).value

/-- Whether a watch is hidden: it has a shield, and its node is not to be visible. -/
def hides (w : Watch) : Bool :=
  w.shield.any fun shield =>
    (s.template.lookups.evaluate shield.query s.scope).value.isTruthy == shield.reverse

/-- A watch that is hidden has a shield. -/
theorem exists_shield {s : Setting} {w : Watch} (h : s.hides w = true) :
    ∃ shield, w.shield = some shield := by
  cases hw : w.shield with
  | none => simp [hides, hw] at h
  | some shield => exact ⟨shield, rfl⟩

/-- A shield hides its node when its query is not what it asks for. -/
theorem hides_eq {s : Setting} {w : Watch} {shield : Shield} (h : w.shield = some shield) :
    s.hides w = !((s.template.lookups.evaluate shield.query s.scope).value.isTruthy !=
      shield.reverse) := by
  rw [hides, h, Option.any_some]
  cases (s.template.lookups.evaluate shield.query s.scope).value.isTruthy <;>
    cases shield.reverse <;> rfl

/-- The callbacks that a visit of a watch runs whatever has changed. -/
def standing (w : Watch) : Nat :=
  if s.hides w then 0 else w.callbacks.countP (·.trigger = .always)

/-- The watches of a window that no hidden watch before them in the window lies above. -/
def shown (window : List (Watch × Nat)) : List (Watch × Nat) :=
  window.filter fun x => !window.any fun y =>
    decide (y.2 < x.2) && s.hides y.1 && x.1.address.extends? y.1.address

end Setting

namespace Pass

/-- What the pass keeps true of itself: its memo is right, and its stash is as planned. -/
structure Fits (s : Setting) (p : Pass) : Prop where
  memo : p.memo.Keeps s.template.lookups s.scope
  stash : p.stash.map StashItem.kind = s.template.stash.map StashPlan.kind

/-- The stash of the pass is as planned, also when the pass has stopped. -/
def Planned (s : Setting) (_ : Stop) (f : Focus Pass) : Prop :=
  f.held.stash.map StashItem.kind = s.template.stash.map StashPlan.kind

/-- What stays from `p` to `q` while watch `k` is visited: no other watch is noted as visited or
passed over, no more callbacks are counted, and what the others have seen is not touched. -/
structure During (s : Setting) (k : Nat) (p q : Pass) : Prop where
  fits : q.Fits s
  visits : q.visits = p.visits
  skipped : q.skipped = p.skipped
  always : q.always = p.always
  cache : ∀ i ≠ k, q.cache[i]? = p.cache[i]?

variable {s : Setting} {k : Nat} {p : Pass} {α β : Type}

/-- A pass that stays as it is has changed nothing during a visit. -/
theorem During.refl (h : p.Fits s) : During s k p p := ⟨h, rfl, rfl, rfl, fun _ _ => rfl⟩

/-- An entry of the stash is replaced by one of its kind. -/
theorem During.store {q : Pass} (h : During s k p q) {key : StashIndex} {entry : StashItem}
    (hk : (s.template.stash.map StashPlan.kind)[key]? = some entry.kind) :
    During s k p (q.store key entry) := by
  refine ⟨⟨h.fits.memo, ?_⟩, h.visits, h.skipped, h.always, h.cache⟩
  rw [Pass.store, List.map_set, h.fits.stash]
  obtain ⟨hi, hk⟩ := List.getElem?_eq_some_iff.mp hk
  rw [← hk]
  exact List.set_getElem_self hi

/-! ## Lookups and the stash -/

section Steps

variable {E : Stop → Focus Pass → Prop}

/-- Asking for a lookup gives its value and never stops. -/
theorem evaluate_ends (key : LookupKey) :
    Ends (fun f => During s k p f.held) (evaluate s key)
      (fun v f => v = (s.template.lookups.evaluate key s.scope).value ∧ During s k p f.held) E := by
  rintro ⟨q, w⟩ h
  obtain ⟨value, keeps⟩ := Memo.evaluate_spec h.fits.memo key
  exact ⟨value, ⟨⟨keeps, h.fits.stash⟩, h.visits, h.skipped, h.always, h.cache⟩⟩

/-- What goes on outside does not touch the pass. -/
theorem outside_ends (x : Run α) :
    Ends (fun f => During s k p f.held) (Holding.outside x) (fun _ f => During s k p f.held)
      (Planned s) :=
  .outside fun _ => fun w h => by
    cases hx : x w with
    | ok a later => exact h
    | error stop later => exact h.fits.stash

/-- What a fetch gives is of the kind that was asked for. -/
theorem fetch_ends {key : StashIndex} {expected : StashKind} {pick : StashItem → Option α}
    (hpick : ∀ item a, pick item = some a → item.kind = expected) :
    Ends (fun f => During s k p f.held) (fetch s key expected pick)
      (fun _ f => (s.template.stash.map StashPlan.kind)[key]? = some expected ∧
        During s k p f.held) (Planned s) := by
  refine Ends.held.bind fun q => Ends.outside fun p' w h => ?_
  obtain ⟨rfl, h⟩ := h
  unfold Run.fetch
  cases hfound : q.stash[key]?.bind pick with
  | none => exact h.fits.stash
  | some a =>
    obtain ⟨item, hitem, ha⟩ := Option.bind_eq_some_iff.mp hfound
    refine ⟨?_, h⟩
    rw [← h.fits.stash, List.getElem?_map, hitem, ← hpick item a ha]
    rfl

/-- A fetch of what is planned is answered. -/
theorem fetch_ends_ok {key : StashIndex} {expected : StashKind} {pick : StashItem → Option α}
    (hkind : (s.template.stash.map StashPlan.kind)[key]? = some expected)
    (hpick : ∀ item, item.kind = expected → ∃ a, pick item = some a) :
    Ends (fun f => During s k p f.held) (fetch s key expected pick)
      (fun _ f => During s k p f.held) E := by
  refine Ends.held.bind fun q => Ends.outside fun p' w h => ?_
  obtain ⟨rfl, h⟩ := h
  rw [← h.fits.stash, List.getElem?_map, Option.map_eq_some_iff] at hkind
  obtain ⟨item, hitem, hkind⟩ := hkind
  obtain ⟨a, ha⟩ := hpick item hkind
  unfold Run.fetch
  simp only [hitem, Option.bind_some, ha]
  exact h

/-- A repeater of the stash stays a repeater of its kind. -/
theorem revise_ends {entry : α → StashItem} {key : StashIndex} {a : α} {x : Holding α Unit}
    (hkind : ∀ a, (s.template.stash.map StashPlan.kind)[key]? = some (entry a).kind) :
    Ends (fun f => During s k p f.held) (revise key entry a x) (fun _ f => During s k p f.held)
      (Planned s) := by
  refine Ends.bind (Q := fun _ f => During s k p f.held) ?_ fun _ => ?_
  · rintro ⟨q, w⟩ h
    unfold Holding.within
    cases hx : x ⟨a, w⟩ with
    | ok c g => exact h.store (hkind g.held)
    | error stop g => exact (h.store (hkind g.held)).fits.stash
  · exact Ends.held.bind fun q => (outside_ends _).pre fun _ h => h.2

end Steps

/-! ## Effects -/

/-- An effect leaves the pass to the watch that is visited. -/
theorem effect_ends (node : NodeId) (value : Value) (f : Effect) :
    Ends (fun f => During s k p f.held) (f.run s node value) (fun _ f => During s k p f.held)
      (Planned s) := by
  have looked (key : LookupKey) : Ends (fun f => During s k p f.held) (evaluate s key)
      (fun _ f => During s k p f.held) (Planned s) := (evaluate_ends key).post fun _ _ h => h.2
  cases f with
  | switchClasses names => exact .forM fun name _ => outside_ends _
  | renderChild key props =>
    refine (looked props).bind fun _ => (fetch_ends ?_).bind fun _ => ?_
    · intro item a h
      cases item <;> simp_all [StashItem.child?, StashItem.kind]
    · exact ((outside_ends _).pre fun _ h => h.2).bind fun _ => .pure fun _ h => h
  | renderSequence key items =>
    refine (looked items).bind fun _ => (outside_ends _).bind fun _ => (fetch_ends ?_).bind fun _ => ?_
    · intro item a h
      cases item <;> simp_all [StashItem.sequential?, StashItem.kind]
    · intro f h
      refine Ends.held.bind (fun _ => ((outside_ends _).pre fun _ h => h.2).bind fun _ =>
        revise_ends fun _ => h.1) f h.2
  | renderKeyed key items =>
    refine (looked items).bind fun _ => (outside_ends _).bind fun _ => (fetch_ends ?_).bind fun _ => ?_
    · intro item a h
      cases item <;> simp_all [StashItem.keyed?, StashItem.kind]
    · intro f h
      refine Ends.held.bind (fun _ => ((outside_ends _).pre fun _ h => h.2).bind fun _ =>
        revise_ends fun _ => h.1) f h.2
  | failWhen message =>
    show Ends _ (if value.isTruthy then _ else _) _ _
    split
    · exact outside_ends _
    · exact .pure fun _ h => h
  | recordLookup key => exact (looked key).bind fun _ => outside_ends _
  | _ =>
    unfold Effect.run
    exact outside_ends _

/-! ## One watch -/

/-- One of the effects stopped the pass. -/
structure Stops (s : Setting) (effects : List Effect) (stop : Stop) (f : Focus Pass) : Prop where
  effect : ∃ effect ∈ effects, ∃ node value before, effect.run s node value before = .error stop f
  planned : Planned s stop f

/-- Effects run one after another, until one of them stops. -/
theorem effects_ends (node : NodeId) (value : Value) (fs : List Effect) :
    Ends (fun f => During s k p f.held) (fs.forM (Effect.run s node value))
      (fun _ f => During s k p f.held) (Stops s fs) := by
  refine .forM fun f hf q h => ?_
  cases hx : f.run s node value q with
  | ok _ later => exact (effect_ends node value f).of_ok h hx
  | error stop later =>
    exact ⟨⟨f, hf, node, value, q, hx⟩, (effect_ends node value f).of_error h hx⟩

/-- A callback leaves what other watches have seen alone, and counts if it runs on every visit. -/
theorem runCallback_ends (node : NodeId) (position : Nat) (c : Callback) :
    Ends (fun f => During s k p f.held) (runCallback s node k position c)
      (fun _ f => During s k
        { p with always := p.always + if c.trigger = .always then 1 else 0 } f.held)
      (Stops s c.effects) := by
  unfold runCallback
  split
  · next ht =>
    refine (effects_ends node .null c.effects).bind fun _ => .change fun q w h => ?_
    refine ⟨⟨h.fits.memo, h.fits.stash⟩, h.visits, h.skipped, ?_, h.cache⟩
    rw [if_pos ht]
    exact congrArg (· + 1) h.always
  · next key ht =>
    rw [if_neg (by rw [ht]; exact nofun)]
    refine (evaluate_ends key).bind fun value => ((Ends.held).pre fun _ h => h.2).bind fun q => ?_
    split
    · exact .pure fun _ h => h.2
    · refine ((effects_ends node value c.effects).pre fun _ h => h.2).bind fun _ => .change
        fun q w h => ⟨⟨h.fits.memo, h.fits.stash⟩, h.visits, h.skipped, h.always, fun i hi => ?_⟩
      simpa [Cache.set, List.getElem?_modify, Ne.symm hi] using h.cache i hi

/-- No two elements of a list have the same position. -/
theorem ne_of_zipIdx {l : List β} {done rest : List (β × Nat)} {x y : β × Nat}
    (split : l.zipIdx = done ++ x :: rest) (hy : y ∈ done) : y.2 ≠ x.2 := by
  have nodup : ((done ++ x :: rest).map (·.2)).Nodup := by
    rw [← split, List.zipIdx_map_snd]
    exact List.nodup_range'
  rw [List.map_append, List.map_cons] at nodup
  exact (List.nodup_append.mp nodup).2.2 _ (List.mem_map_of_mem hy) _ List.mem_cons_self

/-- The callbacks of a watch run in order, until an effect stops. -/
theorem runCallbacks_ends (node : NodeId) (w : Watch) :
    Ends (fun f => During s k p f.held) (runCallbacks s node k w)
      (fun _ f => During s k
        { p with always := p.always + w.callbacks.countP (·.trigger = .always) } f.held)
      (Stops s (w.callbacks.flatMap (·.effects))) := by
  refine (Ends.forM_done (J := fun (done : List (Callback × Nat)) (f : Focus Pass) => During s k
    { p with always := p.always + done.countP (·.1.trigger = .always) } f.held)
    fun done c rest split => ?_).post fun _ f h => ?_
  · refine (runCallback_ends node c.2 c.1).mono (fun _ h => h) (fun _ f h => ?_) ?_
    · rw [List.countP_append, List.countP_singleton]
      simpa [Nat.add_assoc] using h
    · rintro stop f ⟨⟨effect, he, rest'⟩, planned⟩
      have hc : c ∈ w.callbacks.zipIdx := by simp [split]
      refine ⟨⟨effect, List.mem_flatMap.mpr ⟨c.1, ?_, he⟩, rest'⟩, planned⟩
      exact List.mem_of_getElem? (List.mem_zipIdx_iff_getElem?.mp hc)
  · have count : w.callbacks.zipIdx.countP (·.1.trigger = .always) =
        w.callbacks.countP (·.trigger = .always) := by
      conv_rhs => rw [← List.zipIdx_map_fst 0 w.callbacks, List.countP_map]
      rfl
    rwa [count] at h

/-- The node of a slot that there is. -/
theorem node_ends {slot : Nat} (h : slot < s.elements.length) {E : Stop → Focus Pass → Prop}
    {P : Focus Pass → Prop} : Ends P (Holding.outside (s.node slot)) (fun _ => P) E := by
  refine Ends.outside fun q w hp => ?_
  rw [Setting.node, List.getElem?_eq_getElem h]
  exact hp

/-- A shield shows its node or hides it, and never stops. -/
theorem applyShield_ends {shield : Shield} (node : NodeId)
    (parent : ∀ plan ∈ shield.detach, plan.parent < s.elements.length)
    (tracker : ∀ plan ∈ shield.detach,
      (s.template.stash.map StashPlan.kind)[plan.tracker]? = some .tracker)
    {E : Stop → Focus Pass → Prop} :
    Ends (fun f => During s k p f.held) (applyShield s shield node)
      (fun visible f => visible =
        ((s.template.lookups.evaluate shield.query s.scope).value.isTruthy != shield.reverse) ∧
          During s k p f.held) E := by
  unfold applyShield isVisible
  refine Ends.bind (Q := fun visible f => visible =
    ((s.template.lookups.evaluate shield.query s.scope).value.isTruthy != shield.reverse) ∧
      During s k p f.held) ((evaluate_ends shield.query).bind fun v =>
        .pure fun f h => ⟨by rw [h.1], h.2⟩) fun visible => .assume fun hv => ?_
  split
  · next plan hplan =>
    have moved : Ends (fun f => During s k p f.held) (moveNode s plan node visible)
        (fun _ f => During s k p f.held) E := by
      refine (node_ends (parent plan hplan)).bind fun _ =>
        (fetch_ends_ok (tracker plan hplan) fun item hi => ?_).bind fun t =>
          Ends.bind (Q := fun _ f => During s k p f.held)
            (Ends.outside fun _ => Ends.modifyGet fun _ h => h) fun _ =>
              .change fun _ _ h => h.store (tracker plan hplan)
      cases item <;> simp_all [StashItem.tracker?, StashItem.kind]
    exact moved.bind fun _ => .pure fun _ h => ⟨hv, h⟩
  · refine Ends.bind (Q := fun _ f => During s k p f.held) (Ends.outside fun _ =>
      Ends.modify fun _ h => h) fun _ => .pure fun _ h => ⟨hv, h⟩

end Pass

namespace Setting

variable (s : Setting)

/-- How many of the `rest` watches after it a watch passes over. -/
def skips (w : Watch) (rest : Nat) : Nat :=
  if s.hides w then min (w.shield.elim 0 (·.skip)) rest else 0

/-- A visit skips no more watches than are left. -/
theorem skips_le (w : Watch) (rest : Nat) : s.skips w rest ≤ rest := by
  unfold skips
  split
  · exact Nat.min_le_right _ _
  · exact Nat.zero_le _

end Setting

namespace Pass

variable {s : Setting}

/-- Coming to a watch notes it, and what it passes over; only an effect of a watch that is not hidden
can stop that. -/
theorem visit_ends {k : Nat} {w : Watch} {p : Pass} (hp : p.Fits s)
    (slot : w.slot < s.elements.length)
    (parent : ∀ shield ∈ w.shield, ∀ plan ∈ shield.detach, plan.parent < s.elements.length)
    (tracker : ∀ shield ∈ w.shield, ∀ plan ∈ shield.detach,
      (s.template.stash.map StashPlan.kind)[plan.tracker]? = some .tracker) (rest : Nat) :
    Ends (fun f => f.held = p) (visit s k w rest)
      (fun skip f => skip = s.skips w rest ∧ During s k
        { p with
          visits := p.visits ++ [k], skipped := p.skipped + skip
          always := p.always + s.standing w } f.held)
      fun stop f => s.hides w = false ∧ Stops s (w.callbacks.flatMap (·.effects)) stop f := by
  unfold visit
  refine (node_ends slot).bind fun node => ?_
  refine Ends.bind (Q := fun _ f => During s k { p with visits := p.visits ++ [k] } f.held)
    (.change ?_) fun _ => ?_
  · rintro q w rfl
    exact .refl ⟨hp.memo, hp.stash⟩
  have run (hh : s.hides w = false) : Ends
      (fun f => During s k { p with visits := p.visits ++ [k] } f.held)
      (do runCallbacks s node k w; return 0)
      (fun skip f => skip = s.skips w rest ∧ During s k
        { p with
          visits := p.visits ++ [k], skipped := p.skipped + skip
          always := p.always + s.standing w } f.held)
      fun stop f => s.hides w = false ∧ Stops s (w.callbacks.flatMap (·.effects)) stop f := by
    refine ((runCallbacks_ends node w).mono (fun _ h => h) (fun _ _ h => h)
      fun _ _ h => ⟨hh, h⟩).bind fun _ => .pure fun f h => ⟨?_, ?_⟩
    · rw [Setting.skips, hh]
      rfl
    · rw [Setting.standing, hh]
      exact h
  split
  · next hw => exact run (by simp [Setting.hides, hw])
  · next shield hw =>
    refine (applyShield_ends node (parent shield hw) (tracker shield hw)).bind fun visible =>
      .assume fun hv => ?_
    have hh : s.hides w = !visible := by rw [Setting.hides_eq hw, hv]
    split
    · next hvis => exact run (by simp [hh, hvis])
    · next hvis =>
      refine Ends.bind (Q := fun _ f => During s k { p with visits := p.visits ++ [k] } f.held)
        (Ends.outside fun _ => Ends.modify fun _ h => h) fun _ => Ends.bind
          (Q := fun _ f => During s k { p with
            visits := p.visits ++ [k], skipped := p.skipped + min shield.skip rest } f.held)
          (.change fun q w h => ?_) fun _ => .pure fun _ h => ⟨?_, ?_⟩
      · exact ⟨⟨h.fits.memo, h.fits.stash⟩, h.visits,
          congrArg (· + min shield.skip rest) h.skipped, h.always, h.cache⟩
      · simp [Setting.skips, hh, hvis, hw]
      · simpa [Setting.standing, hh, hvis] using h

end Pass

/-! ## A window of watches -/

/-- In a window every shield passes over the watches below it, which come right after. -/
structure ExactWindow (ws : List (Watch × Nat)) : Prop where
  increasing : ws.Pairwise (·.2 < ·.2)
  skips : ∀ {l : List (Watch × Nat)} {x : Watch × Nat} {rest : List (Watch × Nat)},
    ws = l ++ x :: rest → ∀ shield ∈ x.1.shield,
      (∀ y ∈ rest.take shield.skip, y.1.address.extends? x.1.address = true) ∧
        ∀ y ∈ rest.drop shield.skip, y.1.address.extends? x.1.address = false

namespace ExactWindow

variable {ws rest : List (Watch × Nat)} {x : Watch × Nat}

/-- The end of an exact window is exact. -/
theorem of_append {l : List (Watch × Nat)} (h : ExactWindow (l ++ ws)) :
    ExactWindow ws where
  increasing := (List.pairwise_append.mp h.increasing).2.1
  skips he := h.skips (l := l ++ _) (by rw [he, List.append_assoc])

/-- What is left of an exact window is exact. -/
theorem drop (h : ExactWindow ws) (n : Nat) : ExactWindow (ws.drop n) :=
  of_append (l := ws.take n) (by rwa [List.take_append_drop])

/-- The first watch of a window is shown, and of the others those that it does not pass over and that
are shown without it. -/
theorem shown_cons (h : ExactWindow (x :: rest)) (s : Setting) :
    s.shown (x :: rest) = x :: s.shown (rest.drop (s.skips x.1 rest.length)) := by
  have later := List.pairwise_cons.mp h.increasing
  -- No watch of the window comes before its first.
  have first : ∀ y ∈ x :: rest, ¬ y.2 < x.2 := by
    intro y hy
    rcases List.mem_cons.mp hy with rfl | hy
    · exact Nat.lt_irrefl _
    · have := later.1 y hy
      omega
  unfold Setting.shown
  rw [List.filter_cons, if_pos (by
    rw [Bool.not_eq_true', List.any_eq_false]
    intro y hy
    simp [first y hy])]
  congr 1
  set n := s.skips x.1 rest.length
  rw [← List.take_append_drop n rest, List.filter_append, List.take_append_drop]
  have below : ∀ y ∈ rest.take n, s.hides x.1 = true ∧ y.1.address.extends? x.1.address = true := by
    intro y hy
    unfold n Setting.skips at hy
    split at hy
    · next hh =>
      obtain ⟨shield, hw⟩ := Setting.exists_shield hh
      rw [hw, Option.elim_some] at hy
      refine ⟨hh, (h.skips (l := []) rfl shield hw).1 y ?_⟩
      exact (List.take_sublist_take_left (Nat.min_le_left _ _)).subset hy
    · simp at hy
  have beside : ∀ y ∈ rest.drop n, s.hides x.1 = true →
      y.1.address.extends? x.1.address = false := by
    intro y hy hh
    unfold n Setting.skips at hy
    obtain ⟨shield, hw⟩ := Setting.exists_shield hh
    rw [if_pos hh, hw, Option.elim_some] at hy
    refine (h.skips (l := []) rfl shield hw).2 y ?_
    rcases Nat.le_total shield.skip rest.length with hle | hle
    · rwa [Nat.min_eq_left hle] at hy
    · rw [Nat.min_eq_right hle, List.drop_length] at hy
      cases hy
  rw [List.filter_eq_nil_iff.mpr, List.nil_append]
  · refine List.filter_congr fun y hy => congrArg (!·) ?_
    -- What the first watch, or one that it passes over, lies above is passed over itself.
    rw [List.any_cons, ← List.take_append_drop n rest, List.any_append, List.take_append_drop]
    have none : (decide (x.2 < y.2) && s.hides x.1 && y.1.address.extends? x.1.address) = false := by
      cases hh : s.hides x.1 with
      | true => rw [beside y hy hh, Bool.and_false]
      | false => simp
    have none' : (rest.take n).any (fun z =>
        decide (z.2 < y.2) && s.hides z.1 && y.1.address.extends? z.1.address) = false := by
      rw [List.any_eq_false]
      intro z hz hzy
      obtain ⟨hh, hzx⟩ := below z hz
      rw [Bool.and_eq_true] at hzy
      have := Address.extends?_trans hzy.2 hzx
      rw [beside y hy hh] at this
      cases this
    rw [none, none', Bool.false_or, Bool.false_or]
  · intro y hy
    obtain ⟨hh, hyx⟩ := below y hy
    have := later.1 y ((List.take_sublist n rest).subset hy)
    simp [hh, hyx, this]

end ExactWindow

namespace Template

/-- Every window of a template with exact shields is one. -/
theorem exactWindow {t : Template} (ht : t.ExactSkips) (start stop : Nat) :
    ExactWindow (t.window start stop) := by
  refine ExactWindow.drop (?_ : ExactWindow (t.watches.zipIdx.take stop)) start
  have increasing : t.watches.zipIdx.Pairwise (·.2 < ·.2) := by
    rw [List.pairwise_iff_getElem]
    intro i j hi hj hij
    simpa using hij
  refine ⟨increasing.sublist (List.take_sublist _ _), fun {before x rest} he shield hs => ?_⟩
  -- The entry of the window at a position is the watch at that position.
  have entry {i : Nat} {y : Watch × Nat} (hi : (before ++ x :: rest)[i]? = some y) :
      t.watches[i]? = some y.1 := by
    rw [← he, List.getElem?_take] at hi
    split at hi
    · obtain ⟨w, hw, rfl⟩ := Option.map_eq_some_iff.mp (List.getElem?_zipIdx ▸ hi)
      exact hw
    · cases hi
  have hx : t.watches[before.length]? = some x.1 := entry (by simp)
  have hy {m : Nat} {y : Watch × Nat} (hm : rest[m]? = some y) :
      t.watches[before.length + 1 + m]? = some y.1 := by
    refine entry ?_
    rw [List.getElem?_append_right (by omega), show before.length + 1 + m - before.length = m + 1
      by omega, List.getElem?_cons_succ, hm]
  constructor
  · intro y hm
    obtain ⟨m, hm⟩ := List.getElem?_of_mem hm
    rw [List.getElem?_take] at hm
    split at hm
    · exact (ht.block hx hs (hy hm) (by omega)).mpr (by omega)
    · cases hm
  · intro y hm
    obtain ⟨m, hm⟩ := List.getElem?_of_mem hm
    rw [List.getElem?_drop] at hm
    rw [Bool.eq_false_iff]
    intro hext
    have := (ht.block hx hs (hy hm) (by omega)).mp hext
    omega

end Template

namespace Pass

variable {s : Setting}

/-! ## The pass -/

/-- Passing over watches is going on after them. -/
theorem walk_eq_drop (skip : Nat) (ws : List (Watch × Nat)) :
    walk s skip ws = walk s 0 (ws.drop skip) := by
  induction ws generalizing skip with
  | nil => cases skip <;> simp [walk]
  | cons x ws ih => cases skip with
    | zero => rfl
    | succ skip => simpa [walk] using ih skip

/-- A walk comes to the watches that are shown, one after another. -/
theorem walk_shown {ws : List (Watch × Nat)} (exact : ExactWindow ws)
    {J : List (Watch × Nat) → Focus Pass → Prop} {E : Stop → Focus Pass → Prop}
    (step : ∀ done x rest n, s.shown ws = done ++ x :: rest → Ends (J done) (visit s x.2 x.1 n)
      (fun skip f => skip = s.skips x.1 n ∧ J (done ++ [x]) f) E) :
    Ends (J []) (walk s 0 ws) (fun _ => J (s.shown ws)) E := by
  -- What is left of the window after the watches in `done`.
  have onward (n : Nat) : ∀ done left, left.length = n → ExactWindow left →
      s.shown ws = done ++ s.shown left →
      Ends (J done) (walk s 0 left) (fun _ => J (s.shown ws)) E := by
    induction n using Nat.strongRecOn with
    | _ n ih =>
      intro done left hn exact split
      cases left with
      | nil =>
        rw [split]
        exact .pure fun _ h => by simpa [Setting.shown] using h
      | cons x left =>
        have shown := exact.shown_cons s
        rw [walk]
        rw [shown] at split
        refine (step done x _ left.length split).bind fun skip => .assume fun hskip => ?_
        rw [walk_eq_drop, hskip]
        refine ih _ ?_ (done ++ [x]) _ rfl ?_ (by rw [split]; simp)
        · rw [← hn, List.length_drop, List.length_cons]
          omega
        · exact ExactWindow.of_append (l := x :: left.take (s.skips x.1 left.length))
            (by simpa using exact)
  exact onward _ [] ws rfl exact rfl

/-- What is there when a pass that began with `p` has walked the window. -/
structure Walked (s : Setting) (ws : List (Watch × Nat)) (p q : Pass) : Prop where
  fits : q.Fits s
  visits : q.visits = p.visits ++ (s.shown ws).map (·.2)
  count : q.visits.length + q.skipped = p.visits.length + p.skipped + ws.length
  always : q.always = p.always + (s.shown ws).foldr (fun x n => s.standing x.1 + n) 0
  cache : ∀ i, i ∉ (s.shown ws).map (·.2) → q.cache[i]? = p.cache[i]?

/-- A pass visits the watches that are shown and passes over the others; only an effect of a watch
that is shown and not hidden can stop it. -/
theorem walk_ends {t : Template} (ht : s.template = t) (planned : t.WellPlanned)
    (elements : s.elements.length = t.slots.length) (ws : List (Watch × Nat))
    (known : ∀ x ∈ ws, x.1 ∈ t.watches) (exact : ExactWindow ws) {p : Pass} (hp : p.Fits s) :
    Ends (fun f => f.held = p) (walk s 0 ws) (fun _ f => Walked s ws p f.held)
      fun stop f => ∃ x ∈ s.shown ws, s.hides x.1 = false ∧
        Stops s (x.1.callbacks.flatMap (·.effects)) stop f := by
  induction hn : ws.length using Nat.strongRecOn generalizing ws p with
  | _ n ih =>
    subst hn
    cases ws with
    | nil =>
      refine .pure fun f hf => ?_
      subst hf
      exact ⟨hp, by simp [Setting.shown], by simp, by simp [Setting.shown], by simp⟩
    | cons x ws =>
      obtain ⟨w, k⟩ := x
      have hw := known (w, k) (by simp)
      have shown := exact.shown_cons s
      rw [walk]
      refine ((visit_ends hp (by rw [elements]; exact planned.slot w hw)
        (by rw [elements]; exact planned.parent w hw) (by rw [ht]; exact planned.tracker w hw)
        ws.length).mono (fun _ h => h) (fun _ _ h => h) fun stop f h =>
          ⟨(w, k), by simp [shown], h⟩).bind fun skip => .assume fun hskip f h => ?_
      rw [walk_eq_drop, hskip] at *
      have rest := ih (ws.drop (s.skips w ws.length)).length
        (by rw [List.length_drop, List.length_cons]; omega) _
        (fun x hx => known x (List.mem_cons_of_mem _ ((List.drop_sublist _ _).subset hx)))
        (ExactWindow.of_append (l := (w, k) :: ws.take (s.skips w ws.length))
          (by simpa using exact)) h.fits rfl
      refine (rest.mono (fun _ h => h) (fun _ later r => ?_) fun stop later => ?_) f rfl
      · refine ⟨r.fits, ?_, ?_, ?_, fun i hi => ?_⟩
        · rw [r.visits, h.visits, shown, List.map_cons, List.append_assoc, List.singleton_append]
        · have count := r.count
          have visits : f.held.visits = p.visits ++ [k] := h.visits
          have skipped : f.held.skipped = p.skipped + s.skips w ws.length := h.skipped
          have := s.skips_le w ws.length
          rw [visits, skipped, List.length_append, List.length_singleton,
            List.length_drop] at count
          rw [count, List.length_cons]
          omega
        · rw [r.always, h.always, shown, List.foldr_cons, Nat.add_assoc]
        · rw [shown, List.map_cons, List.mem_cons, not_or] at hi
          rw [r.cache i hi.2, h.cache i hi.1]
      · rintro ⟨x, hx, hstop⟩
        exact ⟨x, by rw [shown]; exact List.mem_cons_of_mem _ hx, hstop⟩

end Pass

/-! ## Updates of an instance -/

namespace Setting

variable {s : Setting} {t : Template}

/-- The positions that a window shows are in order. -/
theorem pairwise_shown {ws : List (Watch × Nat)} (h : ExactWindow ws) :
    ((s.shown ws).map (·.2)).Pairwise (· < ·) :=
  List.pairwise_map.mpr (h.increasing.sublist List.filter_sublist)

/-- The watches of a window by their positions. -/
theorem mem_window {start stop : Nat} {x : Watch × Nat} :
    x ∈ t.window start stop ↔
      start ≤ x.2 ∧ x.2 < min stop t.watches.length ∧ t.watches[x.2]? = some x.1 := by
  obtain ⟨w, k⟩ := x
  have entry (i : Nat) : t.watches.zipIdx[i]? = some (w, k) ↔ i = k ∧ t.watches[k]? = some w := by
    rw [List.getElem?_zipIdx, Option.map_eq_some_iff]
    constructor
    · rintro ⟨v, hv, he⟩
      obtain ⟨rfl, rfl⟩ := Prod.mk.inj he
      exact ⟨by omega, by simpa using hv⟩
    · rintro ⟨rfl, hw⟩
      exact ⟨w, hw, by simp⟩
  rw [Template.window, List.mem_iff_getElem?]
  constructor
  · rintro ⟨i, hi⟩
    rw [List.getElem?_drop, List.getElem?_take] at hi
    split at hi
    · next hlt =>
      obtain ⟨hk, hw⟩ := (entry _).mp hi
      have := (List.getElem?_eq_some_iff.mp hw).1
      dsimp only
      exact ⟨by omega, by omega, hw⟩
    · cases hi
  · rintro ⟨hstart, hstop, hw⟩
    dsimp only at hstart hstop hw
    refine ⟨k - start, ?_⟩
    rw [List.getElem?_drop, List.getElem?_take, if_pos (by omega)]
    exact (entry _).mpr ⟨by omega, hw⟩

/-- A window has as many watches as it spans, as far as there are any. -/
theorem length_window (start stop : Nat) :
    (t.window start stop).length = min stop t.watches.length - start := by
  simp [Template.window]

/-- Whether a watch of a window is hidden by an earlier one of the window that lies above it. -/
def Covered (s : Setting) (t : Template) (start k : Nat) : Prop :=
  ∃ j above below, start ≤ j ∧ j < k ∧ t.watches[j]? = some above ∧ t.watches[k]? = some below ∧
    s.hides above = true ∧ below.address.extends? above.address = true

/-- A window shows the positions that no earlier position of it covers. -/
theorem mem_shown {start stop k : Nat} :
    k ∈ (s.shown (t.window start stop)).map (·.2) ↔
      start ≤ k ∧ k < min stop t.watches.length ∧ ¬ s.Covered t start k := by
  constructor
  · intro hk
    obtain ⟨⟨w, k⟩, hx, rfl⟩ := List.mem_map.mp hk
    obtain ⟨hx, hall⟩ := List.mem_filter.mp hx
    obtain ⟨hstart, hstop, hw⟩ := mem_window.mp hx
    refine ⟨hstart, hstop, ?_⟩
    rintro ⟨j, above, below, hj, hjk, ha, hb, hh, he⟩
    obtain rfl : w = below := Option.some.inj (hw.symm.trans hb)
    rw [Bool.not_eq_true', List.any_eq_false] at hall
    refine hall (above, j) (mem_window.mpr ⟨hj, by dsimp only at hstop hjk ⊢; omega, ha⟩) ?_
    simp_all
  · rintro ⟨hstart, hstop, hc⟩
    have hw := List.getElem?_eq_getElem (show k < t.watches.length by omega)
    refine List.mem_map.mpr ⟨(t.watches[k], k), List.mem_filter.mpr
      ⟨mem_window.mpr ⟨hstart, hstop, hw⟩, ?_⟩, rfl⟩
    rw [Bool.not_eq_true', List.any_eq_false]
    rintro ⟨above, j⟩ hj hall
    obtain ⟨hj, -, ha⟩ := mem_window.mp hj
    simp only [Bool.and_eq_true, decide_eq_true_eq] at hall
    exact hc ⟨j, above, t.watches[k], hj, hall.1.1, ha, hw, hall.1.2, hall.2⟩

/-- A pass over all watches comes to watch `k`, which is not hidden, and its callback at a position
watches a lookup that has a value. -/
def Sees (s : Setting) (k position : Nat) (c : Callback) (value : Value) : Prop :=
  ∃ w key, s.template.watches[k]? = some w ∧ ¬ s.Covered s.template 0 k ∧ s.hides w = false ∧
    w.callbacks[position]? = some c ∧ c.trigger = .lookup key ∧ value = s.value key

/-- What a pass comes to depends on the definition and the scope alone. -/
theorem Sees.congr {s' : Setting} {k position : Nat} {c : Callback} {value : Value}
    (h : s.Sees k position c value) (definition : s'.definition = s.definition)
    (scope : s'.scope = s.scope) : s'.Sees k position c value := by
  have template : s'.template = s.template := congrArg Definition.template definition
  have hides (w : Watch) : s'.hides w = s.hides w := by simp only [hides, template, scope]
  obtain ⟨w, key, hw, shown, visible, hc, ht, rfl⟩ := h
  refine ⟨w, key, by rw [template]; exact hw, fun ⟨j, above, below, hj⟩ => shown ⟨j, above, below, ?_⟩,
    (hides w).trans visible, hc, ht, by simp only [Setting.value, template, scope]⟩
  rwa [template, hides above] at hj

/-- What a pass sees belongs to a watch that it shows. -/
theorem Sees.mem_shown {k position : Nat} {c : Callback} {value : Value}
    (h : s.Sees k position c value) :
    ∃ w key, (w, k) ∈ s.shown (s.template.window 0 s.template.watches.length) ∧
      s.hides w = false ∧ w.callbacks[position]? = some c ∧ c.trigger = .lookup key ∧
      value = s.value key := by
  obtain ⟨w, key, hw, shown, rest⟩ := h
  obtain ⟨hk, -⟩ := List.getElem?_eq_some_iff.mp hw
  have listed : k ∈ (s.shown (s.template.window 0 s.template.watches.length)).map (·.2) :=
    Setting.mem_shown.mpr ⟨Nat.zero_le k, by rwa [Nat.min_self], shown⟩
  obtain ⟨x, hx, rfl⟩ := List.mem_map.mp listed
  obtain rfl : x.1 = w :=
    Option.some.inj ((mem_window.mp (List.mem_filter.mp hx).1).2.2.symm.trans hw)
  exact ⟨x.1, key, hx, rest⟩

end Setting

namespace Instance

/-- The instance has the nodes and the stash that its template asks for. -/
structure Fits (t : Template) (i : Instance) : Prop where
  elements : i.elements.length = t.slots.length
  stash : i.stash.map StashItem.kind = t.stash.map StashPlan.kind

/-- The definition of an instance is looked up. -/
theorem definition_eq {library : Library} {d : Definition} {i : Instance}
    (known : library[i.definition]? = some d) {w : World} :
    Holding.outside (library.definition i.definition) ⟨i, w⟩ = .ok d ⟨i, w⟩ := by
  unfold Library.definition
  rw [known]
  rfl

/-- An update of a window is a pass over it. -/
theorem updateWindow_eq {engine : Engine} {d : Definition} {i : Instance}
    (known : engine.library[i.definition]? = some d) {start stop : Nat} {w : World} :
    updateWindow engine start stop ⟨i, w⟩ =
      match Pass.walk (.ofInstance engine d i) 0 (d.template.window start stop)
        ⟨Pass.start d.template i, w⟩ with
      | .ok _ f => .ok f.held.stats ⟨f.held.finish i, f.world⟩
      | .error reason f => .error reason ⟨f.held.finish i, f.world⟩ := by
  unfold updateWindow
  rw [bind_ok (show Holding.held ⟨i, w⟩ = .ok i ⟨i, w⟩ from rfl), bind_ok (definition_eq known)]
  unfold Holding.within
  cases h : Pass.walk (.ofInstance engine d i) 0 (d.template.window start stop)
      ⟨Pass.start d.template i, w⟩ with
  | ok _ f => rw [bind_ok h]; rfl
  | error reason f => rw [bind_error h]

/-- An update is one of the window of all watches. -/
theorem update_eq {engine : Engine} {d : Definition} {i : Instance}
    (known : engine.library[i.definition]? = some d) {w : World} :
    update engine ⟨i, w⟩ = updateWindow engine 0 d.template.watches.length ⟨i, w⟩ := by
  unfold update
  rw [bind_ok (show Holding.held ⟨i, w⟩ = .ok i ⟨i, w⟩ from rfl), bind_ok (definition_eq known)]

/-- An update of a window visits, in order and each once, the watches of the window that no hidden
watch before them in the window lies above, passes over the others and touches no watch outside; and
nothing but an effect of a visited watch can stop it. Either way the instance still fits. -/
theorem visits_of_updateWindow {options : CompileSettings} {name : String} {root : Node}
    {engine : Engine} {d : Definition} {i : Instance}
    (compiled : Template.compile options name root = .ok d.template)
    (known : engine.library[i.definition]? = some d) (fits : i.Fits d.template)
    (start stop : Nat) (w : World) :
    let s := Setting.ofInstance engine d i
    match Pass.walk s 0 (d.template.window start stop) ⟨Pass.start d.template i, w⟩ with
    | .ok _ f =>
      updateWindow engine start stop ⟨i, w⟩ = .ok f.held.stats ⟨f.held.finish i, f.world⟩ ∧
      (f.held.finish i).Fits d.template ∧ f.held.visits.Pairwise (· < ·) ∧
      (∀ k, k ∈ f.held.visits ↔
        start ≤ k ∧ k < min stop d.template.watches.length ∧ ¬ s.Covered d.template start k) ∧
      f.held.stats.visited + f.held.stats.skipped = min stop d.template.watches.length - start ∧
      ∀ k, k ∉ f.held.visits → (f.held.finish i).cache[k]? = i.cache[k]?
    | .error reason f =>
      updateWindow engine start stop ⟨i, w⟩ = .error reason ⟨f.held.finish i, f.world⟩ ∧
      (f.held.finish i).Fits d.template ∧
      ∃ k watch, d.template.watches[k]? = some watch ∧ start ≤ k ∧ k < stop ∧
        ¬ s.Covered d.template start k ∧ s.hides watch = false ∧
        ∃ c ∈ watch.callbacks, ∃ effect ∈ c.effects, ∃ node value before,
          effect.run s node value before = .error reason f := by
  intro s
  have exact := Template.exactWindow (Template.exactSkips_of_compile compiled) start stop
  have ends := Pass.walk_ends (s := s) rfl (Template.wellPlanned_of_compile compiled)
    fits.elements (d.template.window start stop)
    (fun x hx => List.mem_of_getElem? (Setting.mem_window.mp hx).2.2) exact
    (p := Pass.start d.template i) ⟨Memo.keeps_empty _ _, fits.stash⟩
  rw [updateWindow_eq known]
  cases h : Pass.walk s 0 (d.template.window start stop) ⟨Pass.start d.template i, w⟩ with
  | ok _ f =>
    have walked := ends.of_ok rfl h
    have visits : f.held.visits = (s.shown (d.template.window start stop)).map (·.2) := by
      simpa [Pass.start] using walked.visits
    refine ⟨rfl, ⟨fits.elements, walked.fits.stash⟩, ?_, fun k => ?_, ?_, fun k hk => ?_⟩
    · rw [visits]
      exact Setting.pairwise_shown exact
    · rw [visits]
      exact Setting.mem_shown
    · have count := walked.count
      rw [Setting.length_window] at count
      simpa [Pass.start, Pass.stats] using count
    · exact walked.cache k (visits ▸ hk)
  | error reason f =>
    obtain ⟨⟨watch, k⟩, hx, hh, stops⟩ := ends.of_error rfl h
    have hk : k ∈ (s.shown (d.template.window start stop)).map (·.2) :=
      List.mem_map_of_mem hx
    have hw := (Setting.mem_window.mp (List.mem_filter.mp hx).1).2.2
    obtain ⟨hstart, hstop, hc⟩ := Setting.mem_shown.mp hk
    obtain ⟨effect, he, ran⟩ := stops.effect
    obtain ⟨c, hcw, he⟩ := List.mem_flatMap.mp he
    exact ⟨rfl, ⟨fits.elements, stops.planned⟩, k, watch, hw, hstart, by omega, hc, hh, c, hcw,
      effect, he, ran⟩

/-- A component of the card, before its first update. -/
def cardInstance : Instance :=
  { definition := 0, root := 0, props := .null, state := .null, controller := none
    elements := [1, 2], cache := [[], [none]], stash := [], mounted := false }

/-- The card is closed, so an update visits its paragraph and passes over the text in it. -/
theorem visits_of_card :
    let w := World.empty 1
    let d := Definition.new "Card"
      (.ofOutline {} Template.card (Outline.ofRoot Template.card))
    let engine := Engine.ofLibrary [d]
    Template.compile {} "Card" Template.card = .ok d.template ∧
      engine.library[cardInstance.definition]? = some d ∧ cardInstance.Fits d.template ∧
      ∃ stats f, updateWindow engine 0 5 ⟨cardInstance, w⟩ = .ok stats f ∧
        stats.visited = 1 ∧ stats.visited + stats.skipped = 2 := by
  intro w d engine
  have compiled : Template.compile {} "Card" Template.card = .ok d.template := rfl
  have known : engine.library[cardInstance.definition]? = some d := rfl
  have fits : cardInstance.Fits d.template := ⟨rfl, rfl⟩
  refine ⟨compiled, known, fits, ?_⟩
  have visits := visits_of_updateWindow compiled known fits 0 5 w
  obtain ⟨f, run, visited⟩ : ∃ f, Pass.walk (Setting.ofInstance engine d cardInstance) 0
      (d.template.window 0 5) ⟨Pass.start d.template cardInstance, w⟩ = .ok () f ∧
      f.held.visits = [0] := ⟨_, rfl, rfl⟩
  dsimp only at visits
  rw [run] at visits
  obtain ⟨updated, -, -, -, count, -⟩ := visits
  exact ⟨_, _, updated, by rw [Pass.stats, visited]; rfl, count⟩

end Instance

namespace Build

/-! ## New instances -/

/-- What an entry of the stash starts as is of the planned kind, and every slot keeps a node. -/
theorem entry_ends (build : DefinitionId → Run InstanceId) (d : Definition)
    (elements : List NodeId) (plan : StashPlan) :
    Ends (fun _ => True) (entry build d elements plan)
      (fun r _ => r.1.kind = plan.kind ∧ r.2.length = elements.length) fun _ _ => True := by
  cases plan with
  | child slot source startsDetached =>
    refine (Ends.trivially _).bind fun id => (Ends.trivially _).bind fun child => ?_
    refine Ends.bind (Q := fun r _ => r.length = elements.length) ?_
      fun r => .pure fun _ h => ⟨rfl, h⟩
    unfold takePlace
    refine (Ends.trivially _).bind fun root => ?_
    split
    · exact .throw fun _ _ => trivial
    · split
      · exact (Ends.trivially _).bind fun _ => .pure fun _ _ => List.length_set
      · exact (Ends.trivially _).bind fun _ => (Ends.trivially _).bind fun _ =>
          .pure fun _ _ => List.length_set
  | _ => exact .pure fun _ _ => ⟨rfl, rfl⟩

/-- The stash that is made is of the planned kinds, and every slot keeps a node. -/
theorem entries_ends (build : DefinitionId → Run InstanceId) (d : Definition) (root : NodeId)
    (made : List StashItem) (elements : List NodeId) (plans : List StashPlan) :
    Ends (fun _ => True) (entries build d root made elements plans)
      (fun r _ => r.1.map StashItem.kind = made.map StashItem.kind ++ plans.map StashPlan.kind ∧
        r.2.length = elements.length) fun _ _ => True := by
  induction plans generalizing made elements with
  | nil => exact .pure fun _ _ => ⟨by simp, rfl⟩
  | cons plan plans ih =>
    refine (Ends.attempt (entry_ends build d elements plan)).bind fun r => ?_
    cases r with
    | ok a =>
      obtain ⟨next, elements'⟩ := a
      intro w h
      obtain ⟨hkind, hlength⟩ := h.1 (next, elements') rfl
      refine ((ih (made ++ [next]) elements').post fun r _ hr => ?_) w trivial
      simpa [hkind, hlength] using hr
    | error fault =>
      exact ((Ends.trivially _).pre fun _ _ => trivial).bind fun _ => (Ends.trivially _).bind fun _ =>
        .throw fun _ _ => trivial

/-- As many elements are bound as there are ways. -/
theorem length_bindFrom {document : Document Listener} {root : NodeId} {slot : Nat}
    {ways : List (List Nat)} {elements : List NodeId}
    (h : bindFrom document root slot ways = .ok elements) : elements.length = ways.length := by
  induction ways generalizing slot elements with
  | nil => cases h; rfl
  | cons way ways ih =>
    unfold bindFrom at h
    split at h
    · cases h
    · cases hrest : bindFrom document root (slot + 1) ways with
      | error _ => rw [hrest] at h; cases h
      | ok rest =>
        rw [hrest] at h
        cases h
        rw [List.length_cons, ih hrest, List.length_cons]

end Build

end ComponentView
