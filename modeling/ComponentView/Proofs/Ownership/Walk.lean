import ComponentView.Proofs.Ownership.Pass

/-! # A walk keeps the order

A visit brings the node of its watch to where it has to be and runs the callbacks of the watch, so
that the watch has nothing left to do. What the visit does to the stash and the cache is the watch's
own, and the other watches are spared. So a walk leaves no watch that it has come to with anything
left to do (`Pass.walk_steady`). -/

namespace ComponentView

/-- The callback has nothing left to do. -/
structure Callback.Rests (s : Setting) (P : InstanceId → Value → Prop) (p : Pass)
    (k position : Nat) (c : Callback) : Prop where
  seen : ∀ key, c.trigger = .lookup key →
    (p.cache.get? k position).any (· == s.value key) = true
  rendered : c.trigger = .always → ∀ e ∈ c.effects, e.Rests s P p.stash

namespace Pass

variable {s : Setting} {frame : Frame} {busy hand : List InstanceId} {id : DefinitionId}
  {f later latest : Focus Pass} {v w : Watch} {k position : Nat} {key : StashIndex} {c : Callback}

/-- A callback of which the cache and what it renders are as they were still rests. -/
theorem callback_rests (h : c.Rests s (s.engine.Idle f.world s.controller) f.held k position)
    (cache : later.held.cache.get? k position = f.held.cache.get? k position)
    (kept : ∀ key ∈ c.entries, ∀ item, f.held.stash[key]? = some item → item.kind ≠ .tracker →
      later.held.stash[key]? = some item ∧ ∀ i ∈ item.held, f.world.Leaves later.world i) :
    c.Rests s (s.engine.Idle later.world s.controller) later.held k position where
  seen key ht := by rw [cache]; exact h.seen key ht
  rendered ht e he := (h.rendered ht e he).keep fun key item hkey hi hn => by
    obtain ⟨hi', leaves⟩ := kept key (List.mem_filterMap.mpr ⟨e, he, hkey⟩) item hi hn
    exact ⟨hi', fun i hm _ idle => idle.leaves (leaves i hm)⟩

/-- What is not a matter of watch `w`, the one at `k`, is as it was: trackers, and what watches need
that are apart from it. -/
structure Beside (w : Watch) (k : Nat) (f later : Focus Pass) : Prop where
  trackers : ∀ (key : StashIndex) (t : Tracker), f.held.stash[key]? = some (.tracker t) →
    later.held.stash[key]? = some (.tracker t)
  spares : ∀ v k', v.Apart w → k' ≠ k → Spares v k' f later

namespace Beside

/-- Two steps beside a watch are one. -/
theorem trans (h : Beside w k f later) (h' : Beside w k later latest) : Beside w k f latest where
  trackers key t ht := h'.trackers key t (h.trackers key t ht)
  spares v k' ha hk := (h.spares v k' ha hk).trans (h'.spares v k' ha hk)

/-- A mere look is beside every watch. -/
theorem of_looks (h : Looks s f later) (w : Watch) (k : Nat) : Beside w k f later where
  trackers key t ht := by rw [h.stash]; exact ht
  spares v k' _ _ := h.spares v k'

/-- A step aside at an entry of the watch is beside it. -/
theorem of_aside (h : Aside key f later) (hkey : key ∈ w.entries)
    (hn : ∀ t, f.held.stash[key]? ≠ some (.tracker t)) (k : Nat) : Beside w k f later where
  trackers key' t ht := by
    rw [h.stash key' fun he => hn t (he ▸ ht)]
    exact ht
  spares v k' ha _ := h.spares (fun hv => ha.entries key hv hkey) hn k'

end Beside

/-! ## Callbacks -/

/-- A callback has nothing left to do after it has run, and the other callbacks of its watch have not
come to anything to do. -/
theorem runCallback_steady (steady : s.engine.Steady) (hl : frame.library = s.engine.library)
    (apart : s.template.Apart) (hk : s.template.watches[k]? = some w)
    (hc : w.callbacks[position]? = some c) (stocked : Stocked s frame busy hand id f)
    (node : NodeId) :
    Ends (f = ·) (runCallback s node k position c)
      (fun _ later => Stocked s frame busy hand id later ∧ Beside w k f later ∧
        c.Rests s (s.engine.Idle later.world s.controller) later.held k position ∧
        ∀ other ≠ position, ∀ c', w.callbacks[other]? = some c' →
          c'.Rests s (s.engine.Idle f.world s.controller) f.held k other →
          c'.Rests s (s.engine.Idle later.world s.controller) later.held k other)
      (Failing (Stocked s frame busy hand id)) := by
  have hw := List.mem_of_getElem? hk
  have mem := List.mem_of_getElem? hc
  unfold runCallback
  split
  · next always =>
    have renders := apart.renders w hw c mem always
    have rests_of {later : Focus Pass}
        (h : ∀ e ∈ c.effects, e.Rests s (s.engine.Idle later.world s.controller)
          later.held.stash) :
        c.Rests s (s.engine.Idle later.world s.controller) later.held k position :=
      ⟨fun key ht => (by rw [always] at ht; cases ht), fun _ => h⟩
    -- The callback renders one entry, or nothing.
    have short := Watch.length_effects (apart.single w hw) mem renders
    cases he : c.effects with
    | nil =>
      refine Ends.bind (Q := fun _ g => f = g) (.pure fun _ h => h) fun _ => .change ?_
      rintro q u rfl
      have looks : Looks s ⟨q, u⟩ ⟨{ q with always := q.always + 1 }, u⟩ :=
        ⟨rfl, rfl, stocked.fits.memo, rfl, rfl, rfl⟩
      exact ⟨looks.stocked stocked, .of_looks looks w k, rests_of (by simp [he]),
        fun other _ c' _ h => callback_rests h rfl fun _ _ _ hi _ => ⟨hi, fun i _ => .refl _ i⟩⟩
    | cons e es =>
      obtain rfl : es = [] := List.length_eq_zero_iff.mp (by rw [he, List.length_cons] at short; omega)
      obtain ⟨key, hkey⟩ := Option.isSome_iff_exists.mp (renders e (by simp [he]))
      have entries : c.entries = [key] := by simp [Callback.entries, he, hkey]
      refine Ends.bind (Q := fun _ g => Stocked s frame busy hand id g ∧ Aside key f g ∧
        (∀ t, f.held.stash[key]? ≠ some (.tracker t)) ∧
          e.Rests s (s.engine.Idle g.world s.controller) g.held.stash)
        ((effect_steady steady hl stocked node .null hkey).bind fun _ => .pure fun _ h => h)
        fun _ => .change ?_
      rintro q u ⟨stocked', aside, hn, rests⟩
      have looks : Looks s ⟨q, u⟩ ⟨{ q with always := q.always + 1 }, u⟩ :=
        ⟨rfl, rfl, stocked'.fits.memo, rfl, rfl, rfl⟩
      have mine : key ∈ w.entries :=
        List.mem_flatMap.mpr ⟨c, mem, List.mem_filterMap.mpr ⟨e, by simp [he], hkey⟩⟩
      refine ⟨looks.stocked stocked', (Beside.of_aside aside mine hn k).trans (.of_looks looks w k),
        rests_of (by rw [he]; exact List.forall_mem_singleton.mpr rests),
        fun other hne c' hc' h => ?_⟩
      have none : c'.entries = [] :=
        Watch.alone (apart.single w hw) hc hc' hne (by simp [entries])
      refine callback_rests h ?_ fun key' hkey' => by rw [none] at hkey'; cases hkey'
      show q.cache.get? k other = _
      rw [show q.cache = f.held.cache from aside.cache]
  · next lookup ht =>
    refine ((evaluate_looks lookup).pre
      (by rintro _ rfl; exact Looks.refl stocked.fits)).bind fun value => .assume fun hv => ?_
    subst hv
    refine Ends.held.bind fun q => .pointwise fun g hg => ?_
    obtain ⟨rfl, looks⟩ := hg
    have other_rests {g : Focus Pass} (looks : Looks s f g) :
        ∀ other ≠ position, ∀ c', w.callbacks[other]? = some c' →
          c'.Rests s (s.engine.Idle f.world s.controller) f.held k other →
          c'.Rests s (s.engine.Idle g.world s.controller) g.held k other :=
      fun other _ c' _ h => callback_rests h (by rw [looks.cache]) fun _ _ item hi _ =>
        ⟨by rw [looks.stash]; exact hi, fun i _ => looks.leaves i⟩
    have rests_of {p : Pass} {P : InstanceId → Value → Prop}
        (h : (p.cache.get? k position).any (· == s.value lookup) = true) :
        c.Rests s P p k position :=
      ⟨fun key hc => (by rw [ht] at hc; cases hc; exact h), fun hc => by rw [ht] at hc; cases hc⟩
    split
    · next seen =>
      refine .pure ?_
      rintro _ rfl
      exact ⟨looks.stocked stocked, .of_looks looks w k, rests_of seen, other_rests looks⟩
    · have writes := apart.writes w hw c mem (by rw [ht]; exact nofun)
      refine Ends.bind (Q := fun _ => Looks s f) ((Ends.forM fun e he =>
        writes_looks node (s.value lookup) (writes e he)).pre (by rintro _ rfl; exact looks))
        fun _ => .change ?_
      intro q u looks
      have stocked' := looks.stocked stocked
      have shape : (q.cache.map List.length)[k]? = some w.callbacks.length := by
        rw [show q.cache.map List.length = _ from stocked'.cache, List.getElem?_map, hk]
        rfl
      refine ⟨⟨stocked'.stocks, ⟨stocked'.fits.memo, stocked'.fits.stash⟩, ?_⟩,
        (Beside.of_looks looks w k).trans ⟨fun _ _ ht => ht, fun v k' _ hk' => ?_⟩, rests_of ?_,
        fun other hne c' hc' h => callback_rests (other_rests looks other hne c' hc' h) ?_
          fun _ _ _ hi _ => ⟨hi, fun i _ => .refl _ i⟩⟩
      · exact Cache.map_length_set.trans stocked'.cache
      · exact ⟨fun _ _ t ht => ⟨t, ht, rfl⟩, Cache.getElem?_set_of_ne hk',
          fun _ _ _ hi _ => ⟨hi, fun i _ => .refl _ i⟩⟩
      · rw [Cache.get?_set_self shape (List.getElem?_eq_some_iff.mp hc).1]
        exact Value.equal_self _
      · exact Cache.get?_set_of_ne hne

/-- After its callbacks have run a watch has none left to run. -/
theorem runCallbacks_steady (steady : s.engine.Steady) (hl : frame.library = s.engine.library)
    (apart : s.template.Apart) (hk : s.template.watches[k]? = some w)
    (stocked : Stocked s frame busy hand id f) (node : NodeId) :
    Ends (f = ·) (runCallbacks s node k w)
      (fun _ later => Stocked s frame busy hand id later ∧ Beside w k f later ∧
        ∀ x ∈ w.callbacks.zipIdx,
          x.1.Rests s (s.engine.Idle later.world s.controller) later.held k x.2)
      (Failing (Stocked s frame busy hand id)) := by
  refine (Ends.forM_done (J := fun (done : List (Callback × Nat)) (later : Focus Pass) =>
    Stocked s frame busy hand id later ∧ Beside w k f later ∧ ∀ x ∈ done,
      x.1.Rests s (s.engine.Idle later.world s.controller) later.held k x.2)
    fun done x rest split => .pointwise fun g hg => ?_).pre ?_
  · obtain ⟨stocked', beside, rests⟩ := hg
    have place {y : Callback × Nat} (hy : y ∈ w.callbacks.zipIdx) :
        w.callbacks[y.2]? = some y.1 := List.mem_zipIdx_iff_getElem?.mp hy
    refine (runCallback_steady steady hl apart hk (place (by simp [split])) stocked' node).post
      fun _ later h => ?_
    obtain ⟨stocked'', beside', own, others⟩ := h
    refine ⟨stocked'', beside.trans beside', List.forall_mem_append.mpr
      ⟨fun y hy => ?_, List.forall_mem_singleton.mpr own⟩⟩
    exact others y.2 (ne_of_zipIdx split hy) y.1 (place (by simp [split, hy])) (rests y hy)
  · rintro _ rfl
    exact ⟨stocked, .of_looks (.refl stocked.fits) w k, by simp⟩

/-! ## Watches -/

/-- A node has been moved to where it has to be. -/
structure Moved (plan : DetachPlan) (visible : Bool) (f later : Focus Pass) : Prop where
  aside : Aside plan.tracker f later
  place : ∃ t t', f.held.stash[plan.tracker]? = some (.tracker t) ∧
    later.held.stash[plan.tracker]? = some (.tracker t') ∧
    t'.isAttached plan.position = visible ∧
    ∀ other ≠ plan.position, t'.isAttached other = t.isAttached other

/-- A watch with another place is spared when a node is moved. -/
theorem Moved.spares {plan : DetachPlan} {visible : Bool} (h : Moved plan visible f later)
    (hp : (plan.tracker, plan.position) ∉ v.place?) (k : Nat) : Spares v k f later where
  place p hv t ht := by
    by_cases he : p.1 = plan.tracker
    · obtain ⟨t₀, t', ht₀, ht', -, others⟩ := h.place
      obtain rfl : t₀ = t := by simpa [he ▸ ht₀] using ht
      refine ⟨t', he ▸ ht', others p.2 fun hpos => hp ?_⟩
      rwa [← he, ← hpos]
    · exact ⟨t, by rw [h.aside.stash _ he]; exact ht, rfl⟩
  cache := by rw [h.aside.cache]
  entries key _ item hi hn := by
    obtain ⟨t, -, ht, -⟩ := h.place
    have hne : key ≠ plan.tracker := by
      rintro rfl
      obtain rfl := Option.some.inj (hi.symm.trans ht)
      exact hn rfl
    exact ⟨by rw [h.aside.stash key hne]; exact hi, h.aside.leaves key hne item hi⟩

/-- Moving a node keeps the pass stocked. -/
theorem moveNode_steady (stocked : Stocked s frame busy hand id f) (plan : DetachPlan)
    (node : NodeId) (visible : Bool) :
    Ends (Looks s f) (moveNode s plan node visible)
      (fun _ later => Stocked s frame busy hand id later ∧ Moved plan visible f later)
      (Failing (Stocked s frame busy hand id)) := by
  have failed (stop : Stop) (g : Focus Pass) (h : Failing (Looks s f) stop g) :
      Failing (Stocked s frame busy hand id) stop g := h.mono fun h => h.stocked stocked
  unfold moveNode
  refine Ends.bind (Q := fun _ => Looks s f) ?_ fun parent => ?_
  · refine (outside_looks (Q := fun _ => True) fun u => ?_).mono (fun _ h => h)
      (fun _ _ h => h.2) failed
    unfold Setting.node
    split
    · exact .pure (by rintro _ rfl; exact ⟨trivial, rfl, rfl, rfl⟩)
    · exact .giveUp
  refine (fetch_looks.mono (fun _ h => h) (fun _ _ h => h) failed).bind fun t => ?_
  refine .assume fun found => ?_
  obtain ⟨item, hi, ht⟩ := found
  obtain rfl : item = .tracker t := by cases item <;> simp_all [StashItem.tracker?]
  refine Ends.bind (Q := fun t' g => (t'.isAttached plan.position = visible ∧
    ∀ other ≠ plan.position, t'.isAttached other = t.isAttached other) ∧ Looks s f g) ?_
    fun t' => .assume fun ht' => .change fun q u looks => ?_
  · refine .outside fun q => .modifyGet fun u looks => ?_
    exact ⟨t.isAttached_apply u.document plan.position parent node visible,
      looks.stash, looks.cache, looks.memo, looks.instances, looks.pools, looks.busy⟩
  · have stocked' := looks.stocked stocked
    have hi' : q.stash[plan.tracker]? = some (.tracker t) := by
      rw [show q.stash = _ from looks.stash]; exact hi
    obtain ⟨stocked'', aside⟩ := stocked'.join hi' (rfl : (StashItem.tracker t').kind = _) (w := u) (by
      have split := stocked'.stocks.split hi'
      exact ⟨split.orderly, List.forall_mem_singleton.mpr trivial, split.aside⟩)
    refine ⟨stocked'', looks.aside aside, t, t', hi, ?_, ht'⟩
    show (q.stash.set plan.tracker _)[plan.tracker]? = _
    rw [List.getElem?_set_self (List.getElem?_eq_some_iff.mp hi').1]

/-- A shield brings the node of its watch to where it has to be. -/
theorem applyShield_steady {shield : Shield} (hs : w.shield = some shield)
    (stocked : Stocked s frame busy hand id f) (node : NodeId) :
    Ends (Looks s f) (applyShield s shield node)
      (fun visible later => s.hides w = !visible ∧ Stocked s frame busy hand id later ∧
        (∀ plan ∈ shield.detach, ∃ t, later.held.stash[plan.tracker]? = some (.tracker t) ∧
          t.isAttached plan.position = visible) ∧
        ∀ v k', v.Apart w → Spares v k' f later)
      (Failing (Stocked s frame busy hand id)) := by
  unfold applyShield isVisible
  refine Ends.bind (Q := fun visible later => s.hides w = !visible ∧ Looks s f later)
    ((evaluate_looks shield.query).bind fun a => .pure fun g h =>
      ⟨by rw [Setting.hides_eq hs, h.1, Setting.value], h.2⟩) fun visible => .assume fun hides => ?_
  split
  · next plan hplan =>
    refine (moveNode_steady stocked plan node visible).bind fun _ => .pure fun g h => ?_
    obtain ⟨stocked', moved⟩ := h
    obtain ⟨t, t', -, ht', attached, -⟩ := moved.place
    refine ⟨hides, stocked', fun plan' hp => ?_, fun v k' ha => moved.spares (fun hp => ?_) k'⟩
    · obtain rfl := Option.some.inj (hplan.symm.trans hp)
      exact ⟨t', ht', attached⟩
    · refine ha.places _ hp ?_
      simp [Watch.place?, hs, hplan]
  · next hn =>
    refine (onDocument_looks _).bind fun _ => .pure fun g looks => ?_
    exact ⟨hides, looks.stocked stocked, (by simp [hn]), fun v k' _ => looks.spares v k'⟩

/-- A watch that has been visited has nothing left to do, and the others are spared. -/
theorem visit_steady (steady : s.engine.Steady) (hl : frame.library = s.engine.library)
    (apart : s.template.Apart) (hk : s.template.watches[k]? = some w)
    (stocked : Stocked s frame busy hand id f) (rest : Nat) :
    Ends (f = ·) (visit s k w rest)
      (fun skip later => skip = s.skips w rest ∧ Stocked s frame busy hand id later ∧
        w.Rests s (s.engine.Idle later.world s.controller) later.held k ∧
        ∀ v k', v.Apart w → k' ≠ k → Spares v k' f later)
      (Failing (Stocked s frame busy hand id)) := by
  unfold visit
  refine Ends.bind (Q := fun _ => (f = ·)) (.outside fun q => ?_) fun node => ?_
  · unfold Setting.node
    split
    · exact .pure fun _ h => h
    · exact .giveUp
  refine Ends.bind (Q := fun _ => Looks s f) (.change ?_) fun _ => ?_
  · rintro q u rfl
    exact ⟨rfl, rfl, stocked.fits.memo, rfl, rfl, rfl⟩
  -- The callbacks run after the node has been brought to its place.
  have run {g : Focus Pass} (stocked' : Stocked s frame busy hand id g)
      (shown : s.hides w = false)
      (moved : ∀ shield ∈ w.shield, ∀ plan ∈ shield.detach, ∃ t,
        g.held.stash[plan.tracker]? = some (.tracker t) ∧
          t.isAttached plan.position = !s.hides w)
      (spares : ∀ v k', v.Apart w → Spares v k' f g) :
      Ends (g = ·) (do runCallbacks s node k w; return 0)
        (fun skip later => skip = s.skips w rest ∧ Stocked s frame busy hand id later ∧
          w.Rests s (s.engine.Idle later.world s.controller) later.held k ∧
          ∀ v k', v.Apart w → k' ≠ k → Spares v k' f later)
        (Failing (Stocked s frame busy hand id)) := by
    refine (runCallbacks_steady steady hl apart hk stocked' node).bind fun _ =>
      .pure fun later h => ?_
    obtain ⟨stocked'', beside, rests⟩ := h
    have at_place {position : Nat} {c : Callback} (hc : w.callbacks[position]? = some c) :=
      rests (c, position) (List.mem_zipIdx_iff_getElem?.mpr hc)
    refine ⟨by simp [Setting.skips, shown], stocked'', ⟨fun shield hs plan hp => ?_,
      fun _ position c key hc ht => (at_place hc).seen key ht, fun _ c hc ht => ?_⟩,
      fun v k' ha hne => (spares v k' ha).trans (beside.spares v k' ha hne)⟩
    · obtain ⟨t, ht, attached⟩ := moved shield hs plan hp
      exact ⟨t, beside.trackers _ t ht, attached⟩
    · obtain ⟨position, hc⟩ := List.getElem?_of_mem hc
      exact (at_place hc).rendered ht
  split
  · next hs =>
    refine .pointwise fun g looks => run (looks.stocked stocked) (by simp [Setting.hides, hs])
      (by simp [hs]) fun v k' _ => looks.spares v k'
  · next shield hs =>
    refine (applyShield_steady hs stocked node).bind fun visible => .assume fun hides => ?_
    have moved {g : Focus Pass} (h : ∀ plan ∈ shield.detach, ∃ t,
        g.held.stash[plan.tracker]? = some (.tracker t) ∧ t.isAttached plan.position = visible) :
        ∀ shield ∈ w.shield, ∀ plan ∈ shield.detach, ∃ t,
          g.held.stash[plan.tracker]? = some (.tracker t) ∧
            t.isAttached plan.position = !s.hides w := by
      intro shield' hs' plan hp
      obtain rfl := Option.some.inj (hs.symm.trans hs')
      rw [hides, Bool.not_not]
      exact h plan hp
    split
    · next hv =>
      exact .pointwise fun g h => run h.1 (by rw [hides, hv]; rfl) (moved h.2.1) h.2.2
    · next hv =>
      have hidden : s.hides w = true := by simpa [hides] using hv
      refine .pointwise fun g h => ?_
      obtain ⟨stocked', place, spares⟩ := h
      refine Ends.bind (Q := fun _ => Looks s g) ?_ fun _ =>
        Ends.bind (Q := fun _ => Looks s g) (.change fun q u looks =>
          ⟨looks.stash, looks.cache, looks.memo, looks.instances, looks.pools, looks.busy⟩)
          fun _ => .pure fun later looks => ?_
      · refine .outside fun q => .modify ?_
        rintro u rfl
        exact ⟨rfl, rfl, stocked'.fits.memo, rfl, rfl, rfl⟩
      · refine ⟨by simp [Setting.skips, hidden, hs], looks.stocked stocked',
          ⟨?_, fun shown => ?_, fun shown => ?_⟩,
          fun v k' ha _ => (spares v k' ha).trans (looks.spares v k')⟩
        · rw [looks.stash]
          exact moved place
        · rw [hidden] at shown
          cases shown
        · rw [hidden] at shown
          cases shown

/-! ## Walks -/

/-- After a walk over a window none of the watches that are shown has anything left to do. -/
theorem walk_steady (steady : s.engine.Steady) (hl : frame.library = s.engine.library)
    (apart : s.template.Apart) {ws : List (Watch × Nat)} (exact : ExactWindow ws)
    (place : ∀ x ∈ ws, s.template.watches[x.2]? = some x.1) :
    Ends (Stocked s frame busy hand id) (walk s 0 ws)
      (fun _ later => Stocked s frame busy hand id later ∧ ∀ x ∈ s.shown ws,
        x.1.Rests s (s.engine.Idle later.world s.controller) later.held x.2)
      (Failing (Stocked s frame busy hand id)) := by
  refine (walk_shown (J := fun done later => Stocked s frame busy hand id later ∧ ∀ x ∈ done,
    x.1.Rests s (s.engine.Idle later.world s.controller) later.held x.2) exact
    fun done x rest n split => .pointwise fun g hg => ?_).pre fun _ h => ⟨h, by simp⟩
  obtain ⟨stocked, rests⟩ := hg
  have known {y : Watch × Nat} (hy : y ∈ s.shown ws) : s.template.watches[y.2]? = some y.1 :=
    place y (List.mem_filter.mp hy).1
  refine (visit_steady steady hl apart (known (by simp [split])) stocked n).post fun skip later h => ?_
  obtain ⟨hskip, stocked', own, spares⟩ := h
  refine ⟨hskip, stocked', List.forall_mem_append.mpr
    ⟨fun y hy => ?_, List.forall_mem_singleton.mpr own⟩⟩
  -- What comes before in the window comes before in the template.
  have before : y.2 < x.2 := by
    have increasing : (s.shown ws).Pairwise (·.2 < ·.2) := exact.increasing.filter _
    rw [split] at increasing
    exact (List.pairwise_append.mp increasing).2.2 y hy x List.mem_cons_self
  have distinct : y.1.Apart x.1 := by
    obtain ⟨hy', hye⟩ := List.getElem?_eq_some_iff.mp (known (y := y) (by simp [split, hy]))
    obtain ⟨hx', hxe⟩ := List.getElem?_eq_some_iff.mp (known (y := x) (by simp [split]))
    have := List.pairwise_iff_getElem.mp apart.pairwise y.2 x.2 hy' hx' before
    rwa [hye, hxe] at this
  exact (spares y.1 y.2 distinct (Nat.ne_of_lt before)).rests (rests y hy)

end Pass

end ComponentView
