import ComponentView.Proofs.Layout.Apart
import ComponentView.Proofs.Ownership.Patch
import ComponentView.Proofs.Stillness.Pass

/-! # A pass keeps the order

A visit brings the node of its watch to its place, runs the effects that write, and renders what the
watch renders. What other watches need stays as it was (`Pass.Spares`), so that after a pass every
watch that it has come to has nothing left to do (`Pass.walk_steady`). -/

namespace ComponentView

/-- Moving a node notes its position, and no other. -/
theorem Tracker.isAttached_apply {L : Type} (t : Tracker) (d : Document L) (position : Nat)
    (parent target : NodeId) (visible : Bool) :
    (t.apply d position parent target visible).1.isAttached position = visible ∧
      ∀ other ≠ position,
        (t.apply d position parent target visible).1.isAttached other = t.isAttached other := by
  unfold apply
  split
  · next h => exact ⟨h, fun _ _ => rfl⟩
  · split
    · next hv => exact ⟨by simp [hv], fun _ ho => isAttached_set_of_ne ho t true⟩
    · next hv =>
      exact ⟨by simp [Bool.eq_false_iff.mpr hv], fun _ ho => isAttached_set_of_ne ho t false⟩

/-- An effect rests where it finds what it renders as it was. -/
theorem Effect.Rests.keep {s : Setting} {P Q : InstanceId → Value → Prop}
    {stash later : List StashItem} {e : Effect} (h : e.Rests s P stash)
    (kept : ∀ key item, e.entry? = some key → stash[key]? = some item → item.kind ≠ .tracker →
      later[key]? = some item ∧ ∀ i ∈ item.held, ∀ value, P i value → Q i value) :
    e.Rests s Q later := by
  cases e with
  | renderChild key props =>
    obtain ⟨i, hi, hp⟩ := h
    obtain ⟨hi', imp⟩ := kept key _ rfl hi (by simp [StashItem.kind])
    exact ⟨i, hi', imp i (List.mem_singleton_self i) _ hp⟩
  | renderSequence key items =>
    obtain ⟨r, list, hr, hlist, rests⟩ := h
    obtain ⟨hr', imp⟩ := kept key _ rfl hr (by simp [StashItem.kind])
    exact ⟨r, list, hr', hlist, rests.imp imp⟩
  | renderKeyed key items =>
    obtain ⟨r, list, hr, hlist, rests⟩ := h
    obtain ⟨hr', imp⟩ := kept key _ rfl hr (by simp [StashItem.kind])
    exact ⟨r, list, hr', hlist, rests.imp imp⟩
  | _ => cases h

/-- The entries of the stash that the callback renders. -/
def Callback.entries (c : Callback) : List StashIndex := c.effects.filterMap Effect.entry?

/-- If a watch renders one entry at most, only one of its callbacks renders. -/
theorem Watch.alone {w : Watch} (single : w.entries.length ≤ 1) {position other : Nat}
    {c c' : Callback} (hc : w.callbacks[position]? = some c)
    (hc' : w.callbacks[other]? = some c') (hne : other ≠ position) (renders : c.entries ≠ []) :
    c'.entries = [] := by
  obtain ⟨hlt, rfl⟩ := List.getElem?_eq_some_iff.mp hc
  have perm : ((w.callbacks[position] :: w.callbacks.eraseIdx position).flatMap
      Callback.entries).Perm w.entries := (List.getElem_cons_eraseIdx_perm hlt).flatMap_right _
  have length := perm.length_eq
  rw [List.flatMap_cons, List.length_append] at length
  have none : (w.callbacks.eraseIdx position).flatMap Callback.entries = [] := by
    have := List.length_pos_iff.mpr renders
    exact List.length_eq_zero_iff.mp (by omega)
  exact List.flatMap_eq_nil_iff.mp none c' (List.mem_eraseIdx_iff_getElem?.mpr ⟨other, hne, hc'⟩)

/-- If a watch renders one entry at most, a callback of it that only renders has one effect at
most. -/
theorem Watch.length_effects {w : Watch} (single : w.entries.length ≤ 1) {c : Callback}
    (hc : c ∈ w.callbacks) (renders : ∀ e ∈ c.effects, e.entry?.isSome) :
    c.effects.length ≤ 1 := by
  rw [← List.filterMap_length_eq_length.mpr renders]
  refine Nat.le_trans (List.Sublist.length_le ?_) single
  obtain ⟨pre, post, he⟩ := List.append_of_mem hc
  rw [entries, he, List.flatMap_append, List.flatMap_cons]
  exact (List.sublist_append_left _ _).trans (List.sublist_append_right _ _)

namespace Pass

variable {s : Setting} {frame : Frame} {busy hand : List InstanceId} {id : DefinitionId}
  {f later latest : Focus Pass} {v w : Watch} {k n : Nat} {key : StashIndex}

/-- What the pass holds is in hand, and the pass fits its template. -/
structure Stocked (s : Setting) (frame : Frame) (busy hand : List InstanceId) (id : DefinitionId)
    (f : Focus Pass) : Prop where
  stocks : f.world.Stocks frame busy hand id f.held.stash
  fits : f.held.Fits s
  cache : f.held.cache.map List.length = s.template.watches.map (·.callbacks.length)

/-- What a watch needs is as it was: the place of its node, what its callbacks have seen, and what it
renders. -/
structure Spares (v : Watch) (k : Nat) (f later : Focus Pass) : Prop where
  place : ∀ p ∈ v.place?, ∀ t, f.held.stash[p.1]? = some (.tracker t) →
    ∃ t', later.held.stash[p.1]? = some (.tracker t') ∧ t'.isAttached p.2 = t.isAttached p.2
  cache : later.held.cache[k]? = f.held.cache[k]?
  entries : ∀ key ∈ v.entries, ∀ item, f.held.stash[key]? = some item → item.kind ≠ .tracker →
    later.held.stash[key]? = some item ∧ ∀ i ∈ item.held, f.world.Leaves later.world i

/-- What two steps spare they spare together. -/
theorem Spares.trans (h : Spares v k f later) (h' : Spares v k later latest) :
    Spares v k f latest where
  place p hp t ht := by
    obtain ⟨t', ht', same⟩ := h.place p hp t ht
    obtain ⟨t'', ht'', same'⟩ := h'.place p hp t' ht'
    exact ⟨t'', ht'', same'.trans same⟩
  cache := h'.cache.trans h.cache
  entries key hkey item hi hn := by
    obtain ⟨hi', leaves⟩ := h.entries key hkey item hi hn
    obtain ⟨hi'', leaves'⟩ := h'.entries key hkey item hi' hn
    exact ⟨hi'', fun i hm => (leaves i hm).trans (leaves' i hm)⟩

/-- A watch that is spared has still nothing left to do. -/
theorem Spares.rests (h : Spares v k f later)
    (rests : v.Rests s (s.engine.Idle f.world s.controller) f.held k) :
    v.Rests s (s.engine.Idle later.world s.controller) later.held k where
  moved shield hs plan hp := by
    obtain ⟨t, ht, attached⟩ := rests.moved shield hs plan hp
    have place : (plan.tracker, plan.position) ∈ v.place? := by
      simp [Watch.place?, Option.mem_def.mp hs, Option.mem_def.mp hp]
    obtain ⟨t', ht', same⟩ := h.place _ place t ht
    exact ⟨t', ht', same.trans attached⟩
  seen hh position c key hc ht := by
    have := rests.seen hh position c key hc ht
    rwa [Cache.get?, ← h.cache] at this
  rendered hh c hc ht e he := by
    refine (rests.rendered hh c hc ht e he).keep fun key item hkey hi hn => ?_
    have mem : key ∈ v.entries :=
      List.mem_flatMap.mpr ⟨c, hc, List.mem_filterMap.mpr ⟨e, he, hkey⟩⟩
    obtain ⟨hi', leaves⟩ := h.entries key mem item hi hn
    exact ⟨hi', fun i hm _ idle => idle.leaves (leaves i hm)⟩

/-- Nothing that matters has changed but what the pass keeps in its memo. -/
structure Looks (s : Setting) (f later : Focus Pass) : Prop where
  stash : later.held.stash = f.held.stash
  cache : later.held.cache = f.held.cache
  memo : later.held.memo.Keeps s.template.lookups s.scope
  instances : later.world.instances = f.world.instances
  pools : later.world.pools = f.world.pools
  busy : later.world.busy = f.world.busy

namespace Looks

/-- A pass that stays as it is only looks. -/
theorem refl (h : f.held.Fits s) : Looks s f f := ⟨rfl, rfl, h.memo, rfl, rfl, rfl⟩

/-- A pass that only looks stays stocked. -/
theorem stocked (h : Looks s f later) (stocked : Stocked s frame busy hand id f) :
    Stocked s frame busy hand id later where
  stocks := by rw [h.stash]; exact stocked.stocks.congr h.instances h.pools h.busy
  fits := ⟨h.memo, by rw [h.stash]; exact stocked.fits.stash⟩
  cache := by rw [h.cache]; exact stocked.cache

/-- A pass that only looks leaves every instance as it is. -/
theorem leaves (h : Looks s f later) (i : InstanceId) : f.world.Leaves later.world i :=
  .of_instances h.instances h.busy i

/-- A pass that only looks spares every watch. -/
theorem spares (h : Looks s f later) (v : Watch) (k : Nat) : Spares v k f later where
  place p _ t ht := ⟨t, by rw [h.stash]; exact ht, rfl⟩
  cache := by rw [h.cache]
  entries key _ item hi _ := ⟨by rw [h.stash]; exact hi, fun i _ => h.leaves i⟩

end Looks

/-! ## Looking things up -/

section Steps

variable {E : Stop → Focus Pass → Prop}

/-- Evaluating an expression only looks, and finds its value. -/
theorem evaluate_looks (key : LookupKey) :
    Ends (Looks s f) (evaluate s key) (fun value later => value = s.value key ∧ Looks s f later)
      E := by
  rintro ⟨q, w⟩ h
  obtain ⟨value, keeps⟩ := Memo.evaluate_spec h.memo key
  exact ⟨value, h.stash, h.cache, keeps, h.instances, h.pools, h.busy⟩

/-- What goes on outside without touching instances and pools does not matter. -/
theorem outside_looks {α : Type} {x : Run α} {Q : α → Prop}
    (h : ∀ w, Ends (w = ·) x
      (fun a v => Q a ∧ v.instances = w.instances ∧ v.pools = w.pools ∧ v.busy = w.busy)
      (Failing fun v => v.instances = w.instances ∧ v.pools = w.pools ∧ v.busy = w.busy)) :
    Ends (Looks s f) (Holding.outside x) (fun a later => Q a ∧ Looks s f later)
      (Failing (Looks s f)) := by
  rintro ⟨q, w⟩ hq
  have run := h w w rfl
  unfold Holding.outside
  cases hx : x w <;> rw [hx] at run
  · obtain ⟨hQ, instances, pools, busy⟩ := run
    exact ⟨hQ, hq.stash, hq.cache, hq.memo, instances.trans hq.instances, pools.trans hq.pools,
      busy.trans hq.busy⟩
  · refine run.mono fun ⟨instances, pools, busy⟩ => ?_
    exact ⟨hq.stash, hq.cache, hq.memo, instances.trans hq.instances, pools.trans hq.pools,
      busy.trans hq.busy⟩

/-- A change to the document leaves the pass as it is. -/
theorem onDocument_looks (g : Document Listener → Document Listener) :
    Ends (Looks s f) (Holding.outside (Run.onDocument g)) (fun _ => Looks s f) E :=
  .outside fun _ => .modify fun _ h => ⟨h.stash, h.cache, h.memo, h.instances, h.pools, h.busy⟩

/-- Fetching an entry only looks, and finds the one at the key. -/
theorem fetch_looks {α : Type} {key : StashIndex} {expected : StashKind}
    {pick : StashItem → Option α} :
    Ends (Looks s f) (fetch s key expected pick)
      (fun a later => (∃ item, f.held.stash[key]? = some item ∧ pick item = some a) ∧
        Looks s f later) (Failing (Looks s f)) := by
  refine Ends.held.bind fun q => ?_
  rintro g ⟨rfl, h⟩
  refine (outside_looks (Q := fun a => ∃ item, f.held.stash[key]? = some item ∧
    pick item = some a) fun w => ?_) g h
  rw [h.stash]
  unfold Run.fetch
  dsimp only
  split
  · next a ha =>
    refine .pure ?_
    rintro _ rfl
    exact ⟨Option.bind_eq_some_iff.mp ha, rfl, rfl, rfl⟩
  · refine Ends.bind (Q := fun _ v => v.instances = w.instances ∧ v.pools = w.pools ∧
      v.busy = w.busy) (.modify ?_) fun _ => .fail
    rintro _ rfl
    exact ⟨rfl, rfl, rfl⟩

/-- Asking for the items of a value only looks. -/
theorem items_looks (value : Value) :
    Ends (Looks s f) (Holding.outside (Effect.itemsOf value))
      (fun list later => Effect.items? value = some list ∧ Looks s f later)
      (Failing (Looks s f)) := by
  refine outside_looks fun w => ?_
  cases value with
  | null | list => exact .pure (by rintro _ rfl; exact ⟨rfl, rfl, rfl, rfl⟩)
  | _ =>
    refine Ends.fail.mono (fun _ h => h) (fun _ _ h => h) fun _ _ h => h.mono ?_
    rintro rfl
    exact ⟨rfl, rfl, rfl⟩

/-- Looking for an anchor only looks. -/
theorem anchorIn_looks (container : NodeId) (stash : List StashItem) (anchors : List Anchor) :
    Ends (Looks s f) (Holding.outside (Effect.anchorIn s stash container anchors))
      (fun _ => Looks s f) (Failing (Looks s f)) := by
  refine (outside_looks (Q := fun _ => True) fun w => ?_).post fun _ _ h => h.2
  refine Ends.mono (P := (w = ·)) (Q := fun _ => (w = ·)) (E := Failing (w = ·)) ?_ (fun _ h => h)
    (by rintro _ _ rfl; exact ⟨trivial, rfl, rfl, rfl⟩)
    fun _ _ h => h.mono (by rintro rfl; exact ⟨rfl, rfl, rfl⟩)
  induction anchors with
  | nil => exact .pure fun _ h => h
  | cons a anchors ih =>
    cases a with
    | slot slot =>
      refine Ends.get.bind fun v => ?_
      dsimp only
      split
      · exact .pure fun _ h => h.2
      · exact ih.pre fun _ h => h.2
    | repeater key =>
      unfold Effect.anchorIn
      split
      · exact (Ends.rootOf (fun _ _ => .of_abort) fun _ _ => .of_abort).bind fun _ =>
          .pure fun _ h => h.2.2
      · exact ih

/-- Writing changes nothing but the document. -/
theorem writes_looks (node : NodeId) (value : Value) {e : Effect} (he : e.Writes) :
    Ends (Looks s f) (e.run s node value) (fun _ => Looks s f) E := by
  cases e with
  | switchClasses names => exact .forM fun _ _ => onDocument_looks _
  | setText | setAttribute | switchClass | setStyle =>
    unfold Effect.run
    exact onDocument_looks _
  | _ => cases he

end Steps

/-! ## Renders -/

/-- One entry of the stash has been worked on, and the others have been left alone. -/
structure Aside (key : StashIndex) (f later : Focus Pass) : Prop where
  stash : ∀ k ≠ key, later.held.stash[k]? = f.held.stash[k]?
  cache : later.held.cache = f.held.cache
  leaves : ∀ k ≠ key, ∀ item, f.held.stash[k]? = some item →
    ∀ i ∈ item.held, f.world.Leaves later.world i

/-- After a mere look a step aside is a step aside. -/
theorem Looks.aside (h : Looks s f later) (h' : Aside key later latest) : Aside key f latest where
  stash k hk := (h'.stash k hk).trans (by rw [h.stash])
  cache := h'.cache.trans h.cache
  leaves k hk item hi i hm :=
    (h.leaves i).trans (h'.leaves k hk item (by rw [h.stash]; exact hi) i hm)

/-- A watch that renders another entry, none of them a tracker, is spared. -/
theorem Aside.spares (h : Aside key f later) (hkey : key ∉ v.entries)
    (hn : ∀ t, f.held.stash[key]? ≠ some (.tracker t)) (k : Nat) : Spares v k f later where
  place p _ t ht :=
    ⟨t, by rw [h.stash _ fun he => hn t (he ▸ ht)]; exact ht, rfl⟩
  cache := by rw [h.cache]
  entries key' hk' item hi _ := by
    have hne : key' ≠ key := fun he => hkey (he ▸ hk')
    exact ⟨by rw [h.stash key' hne]; exact hi, h.leaves key' hne item hi⟩

/-- An entry of the stash that was worked on comes back into the stash. -/
theorem Stocked.put (h : Stocked s frame busy hand id f) {entry entry' : StashItem}
    (hk : f.held.stash[key]? = some entry) (kind : entry'.kind = entry.kind) {w : World}
    {others : List InstanceId} (h' : w.Stocks (frame.widen f.world others) busy
      (World.Stocks.besides f.held.stash key ++ hand) id [entry']) :
    Stocked s frame busy hand id ⟨f.held.store key entry', w⟩ ∧
      World.Since others f.world w := by
  obtain ⟨stocks, since⟩ := h.stocks.join hk h'
  obtain ⟨hlt, hk'⟩ := List.getElem?_eq_some_iff.mp hk
  refine ⟨⟨stocks, ⟨h.fits.memo, ?_⟩, h.cache⟩, since⟩
  show (f.held.stash.set key entry').map StashItem.kind = _
  rw [List.map_set, kind, ← hk', ← h.fits.stash]
  exact List.ext_getElem? fun k => by
    rw [List.getElem?_set]
    split
    · next he => subst he; simp [hlt]
    · rfl

/-- An entry comes back into the stash beside others that joined the frame. -/
theorem Stocked.join (h : Stocked s frame busy hand id f) {entry entry' : StashItem}
    (hk : f.held.stash[key]? = some entry) (kind : entry'.kind = entry.kind) {w : World}
    (h' : w.Stocks (frame.widen f.world (World.Stocks.besides f.held.stash key)) busy
      (World.Stocks.besides f.held.stash key ++ hand) id [entry']) :
    let later : Focus Pass := ⟨f.held.store key entry', w⟩
    Stocked s frame busy hand id later ∧ Aside key f later := by
  obtain ⟨stocked, since⟩ := h.put hk kind h'
  refine ⟨stocked, fun k hne => ?_, rfl, fun k hne item hi i hm => ?_⟩
  · show (f.held.stash.set key entry')[k]? = _
    rw [List.getElem?_set_ne hne.symm]
  · exact since.leaves i (World.Stocks.mem_besides hne hi hm)

/-- Showing the stash to the world only touches an instance that is held. -/
theorem showStash_steady (stocked : Stocked s frame busy hand id f) (stash : List StashItem) :
    Ends (f = ·) (Holding.outside (Run.showStash stash))
      (fun _ later => Stocked s frame busy hand id later ∧ later.held = f.held ∧
        ∀ i, f.world.Leaves later.world i)
      (Failing (Stocked s frame busy hand id)) := by
  refine .outside fun q => .modify ?_
  rintro w rfl
  split
  · next me rest hb =>
    have me_busy : me ∈ w.busy := by simp [hb]
    have orderly := stocked.stocks.orderly
    have held : me ∈ busy := orderly.busy_eq ▸ me_busy
    have touched := orderly.touch held (g := fun inst => { inst with stash }) fun _ => rfl
    refine ⟨⟨⟨touched, fun item hm => (stocked.stocks.ranks item hm).grows fun hd => ?_,
      stocked.stocks.aside⟩, stocked.fits, stocked.cache⟩, rfl, fun i => ⟨rfl, fun j _ hj => ?_⟩⟩
    · simp only [World.definition?, Array.getElem?_modify] at hd ⊢
      split
      · next he => subst he; simpa using hd
      · exact hd
    · have : me ≠ j := fun he => hj (he ▸ me_busy)
      simp [Array.getElem?_modify, this]
  · exact ⟨stocked, rfl, fun i => .refl _ i⟩

/-- Patching a repeater of the stash. -/
theorem revise_steady {α : Type} {entry : α → StashItem} {a : α} {x : Holding α Unit}
    {R : World → α → Prop} (stocked : Stocked s frame busy hand id f)
    (hk : f.held.stash[key]? = some (entry a)) (kind : ∀ a b, (entry a).kind = (entry b).kind)
    (hx : ∀ (frame' : Frame) (hand' : List InstanceId), frame'.library = frame.library →
      Ends (fun g => g.world.Stocks frame' busy hand' id [entry g.held]) x
        (fun _ g => g.world.Stocks frame' busy hand' id [entry g.held] ∧ R g.world g.held)
        (Failing fun g => g.world.Stocks frame' busy hand' id [entry g.held]))
    (hR : ∀ w v b, R w b → (∀ i, w.Leaves v i) → R v b) :
    Ends (f = ·) (revise key entry a x)
      (fun _ later => Stocked s frame busy hand id later ∧ Aside key f later ∧
        ∃ b, later.held.stash[key]? = some (entry b) ∧ R later.world b)
      (Failing (Stocked s frame busy hand id)) := by
  refine Ends.bind (Q := fun _ later => Stocked s frame busy hand id later ∧ Aside key f later ∧
    ∃ b, later.held.stash[key]? = some (entry b) ∧ R later.world b) ?_ fun _ => ?_
  · rintro _ rfl
    have run := hx (frame.widen f.world (World.Stocks.besides f.held.stash key))
      (World.Stocks.besides f.held.stash key ++ hand) rfl ⟨a, f.world⟩ (stocked.stocks.split hk)
    unfold Holding.within
    cases hx : x ⟨a, f.world⟩ with
    | ok b g =>
      rw [hx] at run
      obtain ⟨stocks, hr⟩ := run
      obtain ⟨joined, aside⟩ := stocked.join hk (kind g.held a) stocks
      refine ⟨joined, aside, g.held, ?_, hr⟩
      show (f.held.stash.set key _)[key]? = _
      rw [List.getElem?_set_self (List.getElem?_eq_some_iff.mp hk).1]
    | error stop g =>
      rw [hx] at run
      exact run.mono fun stocks => (stocked.join hk (kind g.held a) stocks).1
  · refine Ends.held.bind fun q => .pointwise fun g hg => ?_
    obtain ⟨rfl, joined, aside, b, hb, hr⟩ := hg
    refine (showStash_steady joined g.held.stash).post fun _ later h => ?_
    obtain ⟨stocked', held, leaves⟩ := h
    refine ⟨stocked', ⟨fun k hne => ?_, ?_, fun k hne item hi i hm => ?_⟩, b, ?_,
      hR g.world later.world b hr leaves⟩
    · rw [held]; exact aside.stash k hne
    · rw [held]; exact aside.cache
    · exact (aside.leaves k hne item hi i hm).trans (leaves i)
    · rw [held]; exact hb

/-- Before a repeat is patched, its items, its repeater and its anchor are looked up. -/
theorem repeat_ends {α : Type} {kind : StashKind} {pick : StashItem → Option α}
    (entry : α → StashItem) (picked : ∀ item a, pick item = some a → item = entry a)
    {anchors : α → List Anchor} {go : List Value → α → Option NodeId → Holding Pass Unit}
    {Q : Unit → Focus Pass → Prop} {E : Stop → Focus Pass → Prop} (fits : f.held.Fits s)
    (container : NodeId) (items : LookupKey)
    (stopped : ∀ stop g, Failing (Looks s f) stop g → E stop g)
    (go_ends : ∀ list a anchor g, Effect.items? (s.value items) = some list →
      f.held.stash[key]? = some (entry a) → Looks s f g → Ends (g = ·) (go list a anchor) Q E) :
    Ends (f = ·) (do
      let list ← Holding.outside (Effect.itemsOf (← evaluate s items))
      let a ← fetch s key kind pick
      let anchor ← Holding.outside
        (Effect.anchorIn s (← Holding.held).stash container (anchors a))
      go list a anchor) Q E := by
  refine ((evaluate_looks items).pre (by rintro _ rfl; exact Looks.refl fits)).bind fun value =>
    .assume fun hvalue => ?_
  subst hvalue
  refine ((items_looks _).mono (fun _ h => h) (fun _ _ h => h) stopped).bind fun list =>
    .assume fun hlist => ?_
  refine (fetch_looks.mono (fun _ h => h) (fun _ _ h => h) stopped).bind fun a =>
    .assume fun found => ?_
  obtain ⟨item, hi, ha⟩ := found
  obtain rfl := picked item a ha
  refine Ends.held.bind fun q => Ends.bind (Q := fun _ => Looks s f) ?_
    fun anchor => .pointwise fun g looks => go_ends list a anchor g hlist hi looks
  exact (anchorIn_looks container q.stash (anchors a)).mono (fun _ h => h.2) (fun _ _ h => h) stopped

/-- Rendering an entry of the stash leaves the others alone, and the effect has nothing left to do. -/
theorem effect_steady (steady : s.engine.Steady) (hl : frame.library = s.engine.library)
    (stocked : Stocked s frame busy hand id f) (node : NodeId) (value : Value) {e : Effect}
    (he : e.entry? = some key) :
    Ends (f = ·) (e.run s node value)
      (fun _ later => Stocked s frame busy hand id later ∧ Aside key f later ∧
        (∀ t, f.held.stash[key]? ≠ some (.tracker t)) ∧
        e.Rests s (s.engine.Idle later.world s.controller) later.held.stash)
      (Failing (Stocked s frame busy hand id)) := by
  have failed (stop : Stop) (g : Focus Pass) (h : Failing (Looks s f) stop g) :
      Failing (Stocked s frame busy hand id) stop g := h.mono fun h => h.stocked stocked
  have begin : ∀ g, f = g → Looks s f g := by
    rintro _ rfl
    exact .refl stocked.fits
  cases e with
  | renderChild key' props =>
    obtain rfl := Option.some.inj he
    refine ((evaluate_looks props).pre begin).bind fun a => .assume fun ha => ?_
    subst ha
    refine (fetch_looks.mono (fun _ h => h) (fun _ _ h => h) failed).bind fun i =>
      .pointwise fun g hg => ?_
    obtain ⟨⟨item, hi, hc⟩, looks⟩ := hg
    obtain rfl : item = .child i := by cases item <;> simp_all [StashItem.child?]
    have stocked' := looks.stocked stocked
    have hi' : g.held.stash[key']? = some (.child i) := by rw [looks.stash]; exact hi
    refine Ends.bind (Q := fun _ later => Stocked s frame busy hand id later ∧
      Aside key' f later ∧ (∀ t, f.held.stash[key']? ≠ some (.tracker t)) ∧
        (Effect.renderChild key' props).Rests s (s.engine.Idle later.world s.controller)
          later.held.stash) ?_ fun _ => .pure fun _ h => h
    refine .outside fun q => .pointwise fun w hw => ?_
    obtain rfl : g = ⟨q, w⟩ := hw
    have split := stocked'.stocks.split hi'
    -- The child is the same afterwards, so that the stash is, too.
    have stored : q.store key' (.child i) = q := by
      obtain ⟨hlt, hq⟩ := List.getElem?_eq_some_iff.mp hi'
      unfold Pass.store
      rw [← hq, List.set_getElem_self]
    have back {v : World} (orderly : v.Orderly
        (frame.widen w (World.Stocks.besides q.stash key')) busy
        ([StashItem.child i].flatMap StashItem.held ++
          (World.Stocks.besides q.stash key' ++ hand))) :
        Stocked s frame busy hand id ⟨q, v⟩ ∧ Aside key' ⟨q, w⟩ ⟨q, v⟩ := by
      have joined := stocked'.join hi' rfl (w := v)
        ⟨orderly, fun item hm => (split.ranks item hm).grows orderly.grown, split.aside⟩
      rwa [stored] at joined
    refine Ends.mono (P := World.Orderly (frame.widen w (World.Stocks.besides q.stash key')) busy
      ([StashItem.child i].flatMap StashItem.held ++ (World.Stocks.besides q.stash key' ++ hand)))
      (steady.render i (s.value props) s.controller hl (split.aside i (by simp [StashItem.held])))
      (by rintro _ rfl; exact split.orderly) (fun _ v hv => ?_)
      fun _ v hv => hv.mono fun hv => (back hv).1
    obtain ⟨stocked'', aside⟩ := back hv.1
    exact ⟨stocked'', looks.aside aside, (fun t ht => by rw [hi] at ht; cases ht),
      ⟨i, hi', hv.2⟩⟩
  | renderSequence key' items =>
    obtain rfl := Option.some.inj he
    refine repeat_ends .sequential
      (fun item r h => by cases item <;> simp_all [StashItem.sequential?]) stocked.fits node items
      failed fun list r anchor g hlist hi looks => ?_
    refine (revise_steady (R := fun w r => r.Rests (s.engine.Idle w s.controller) list)
      (looks.stocked stocked) (by rw [looks.stash]; exact hi) (fun _ _ => rfl)
      (fun frame' hand' hl' => Sequential.patch_steady steady (hl'.trans hl) node anchor list)
      fun w v r rests leaves => rests.imp fun i _ _ idle => idle.leaves (leaves i)).post
      fun _ later h => ?_
    obtain ⟨stocked', aside, r', hr', rests⟩ := h
    exact ⟨stocked', looks.aside aside, (fun t ht => by rw [hi] at ht; cases ht),
      ⟨r', list, hr', hlist, rests⟩⟩
  | renderKeyed key' items =>
    obtain rfl := Option.some.inj he
    refine repeat_ends .keyed
      (fun item r h => by cases item <;> simp_all [StashItem.keyed?]) stocked.fits node items
      failed fun list r anchor g hlist hi looks => ?_
    refine (revise_steady (R := fun w r => r.Rests (s.engine.Idle w s.controller)
        s.engine.library r.order.length [] 0 list)
      (looks.stocked stocked) (by rw [looks.stash]; exact hi) (fun _ _ => rfl)
      (fun frame' hand' hl' => Keyed.patch_steady steady (hl'.trans hl) node anchor list)
      fun w v r rests leaves => rests.imp fun i _ _ idle => idle.leaves (leaves i)).post
      fun _ later h => ?_
    obtain ⟨stocked', aside, r', hr', rests⟩ := h
    exact ⟨stocked', looks.aside aside, (fun t ht => by rw [hi] at ht; cases ht),
      ⟨r', list, hr', hlist, rests⟩⟩
  | _ => cases he

end Pass

end ComponentView
