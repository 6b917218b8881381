import ComponentView.Proofs.Stillness

/-! # A pass that changes nothing

A watch rests if its node is where it has to be, its callbacks have seen the values that their
lookups have, and what it renders has nothing left to do. A pass over watches that rest leaves the
instance and the world as they are (`Pass.walk_still`). -/

namespace ComponentView

namespace Effect

/-- The items of a repeat, if the value has items. -/
def items? : Value → Option (List Value)
  | .null => some []
  | .list items => some items
  | _ => none

/-- The effect renders something with nothing left to do. -/
def Rests (s : Setting) (P : InstanceId → Value → Prop) (stash : List StashItem) : Effect → Prop
  | renderChild key props => ∃ i, stash[key]? = some (.child i) ∧ P i (s.value props)
  | renderSequence key items => ∃ r list, stash[key]? = some (.sequential r) ∧
      items? (s.value items) = some list ∧ r.Rests P list
  | renderKeyed key items => ∃ r list, stash[key]? = some (.keyed r) ∧
      items? (s.value items) = some list ∧ r.Rests P s.engine.library r.order.length [] 0 list
  | _ => False

end Effect

/-- The watch has nothing left to do. -/
structure Watch.Rests (s : Setting) (P : InstanceId → Value → Prop) (p : Pass) (k : Nat)
    (w : Watch) : Prop where
  moved : ∀ shield ∈ w.shield, ∀ plan ∈ shield.detach, ∃ t,
    p.stash[plan.tracker]? = some (.tracker t) ∧ t.isAttached plan.position = !s.hides w
  seen : s.hides w = false → ∀ (position : Nat) (c : Callback) (key : LookupKey),
    w.callbacks[position]? = some c → c.trigger = .lookup key →
      (p.cache.get? k position).any (· == s.value key) = true
  rendered : s.hides w = false → ∀ c ∈ w.callbacks, c.trigger = .always →
    ∀ f ∈ c.effects, f.Rests s P p.stash

namespace Pass

/-- The pass has changed nothing of its instance, and the world is like `v`. -/
structure Unmoved (s : Setting) (p : Pass) (v : World) (f : Focus Pass) : Prop where
  stash : f.held.stash = p.stash
  cache : f.held.cache = p.cache
  effects : f.held.effects = p.effects
  memo : f.held.memo.Keeps s.template.lookups s.scope
  alike : v.Alike f.world

/-- What the pass holds is there and is not held, and the world shows its stash. -/
structure Settled (p : Pass) (v : World) : Prop where
  available : ∀ i ∈ p.stash.flatMap StashItem.held, (v.instances[i]?).isSome ∧ i ∉ v.busy
  shown : ∃ me rest inst, v.busy = me :: rest ∧ v.instances[me]? = some inst ∧
    inst.stash = p.stash

variable {s : Setting} {p : Pass} {v : World} {E : Stop → Focus Pass → Prop}

/-- Evaluating an expression moves nothing. -/
theorem evaluate_unmoved (key : LookupKey) :
    Ends (Unmoved s p v) (evaluate s key) (fun a f => a = s.value key ∧ Unmoved s p v f) E := by
  rintro ⟨q, w⟩ h
  obtain ⟨value, keeps⟩ := Memo.evaluate_spec h.memo key
  exact ⟨value, h.stash, h.cache, h.effects, keeps, h.alike.put (.refl _)⟩

/-- What leaves the world alike moves nothing. -/
theorem outside_unmoved {α : Type} {x : Run α} {Q : α → Prop}
    (h : Ends v.Alike x (fun a w => Q a ∧ v.Alike w) fun _ _ => False) :
    Ends (Unmoved s p v) (Holding.outside x) (fun a f => Q a ∧ Unmoved s p v f)
      fun _ _ => False := by
  rintro ⟨q, w⟩ hq
  have := h w hq.alike
  unfold Holding.outside
  cases hx : x w <;> rw [hx] at this
  · exact ⟨this.1, hq.stash, hq.cache, hq.effects, hq.memo, this.2⟩
  · exact this

/-- Fetching an entry that is there moves nothing. -/
theorem fetch_unmoved {α : Type} {key : StashIndex} {expected : StashKind}
    {pick : StashItem → Option α} {item : StashItem} {a : α} (hi : p.stash[key]? = some item)
    (ha : pick item = some a) :
    Ends (Unmoved s p v) (fetch s key expected pick) (fun b f => b = a ∧ Unmoved s p v f)
      fun _ _ => False := by
  refine Ends.held.bind fun q => ?_
  intro f h
  obtain ⟨rfl, h⟩ := h
  have found : f.held.stash[key]?.bind pick = some a := by
    rw [h.stash, hi, Option.bind_some, ha]
  refine outside_unmoved (Q := (· = a)) ?_ f h
  unfold Run.fetch
  simp only [found]
  exact .pure fun _ h => ⟨rfl, h⟩

/-! ## Renders -/

/-- The head of an entry is among what it holds. -/
theorem head?_mem_held {item : StashItem} {i : InstanceId} (h : item.head? = some i) :
    i ∈ item.held := by
  cases item with
  | sequential r =>
    simp only [StashItem.head?, Sequential.head?] at h
    split at h
    · cases h
    · exact List.mem_of_mem_head? h
  | keyed r =>
    obtain ⟨key, -, h⟩ := Option.bind_eq_some_iff.mp h
    obtain ⟨front, back, he, -⟩ := List.lookup_eq_some_iff.mp h
    simp [StashItem.held, he]
  | _ => cases h

/-- Looking for an anchor moves nothing. -/
theorem anchorIn_unmoved (settled : Settled p v) (container : NodeId) (anchors : List Anchor) :
    Ends v.Alike (Effect.anchorIn s p.stash container anchors) (fun _ => v.Alike)
      fun _ _ => False := by
  induction anchors with
  | nil => exact .pure fun _ h => h
  | cons a anchors ih =>
    cases a with
    | slot slot =>
      refine Ends.get.bind fun w => ?_
      dsimp only
      split
      · exact .pure fun _ h => h.2
      · exact ih.pre fun _ h => h.2
    | repeater key =>
      unfold Effect.anchorIn
      split
      · next i hi =>
        obtain ⟨item, hm, hi⟩ := Option.bind_eq_some_iff.mp hi
        obtain ⟨there, free⟩ := settled.available i
          (List.mem_flatMap.mpr ⟨item, List.mem_of_getElem? hm, head?_mem_held hi⟩)
        exact (World.Alike.rootOf there free).bind fun _ => .pure fun _ h => h
      · exact ih

/-- Working on an entry of the stash without changing it changes nothing. -/
theorem revise_unmoved {α : Type} (settled : Settled p v) {key : StashIndex}
    {entry : α → StashItem} {a : α} {x : Holding α Unit} (hi : p.stash[key]? = some (entry a))
    (h : Ends (ComponentView.Unmoved a v) x (fun _ => ComponentView.Unmoved a v)
      fun _ _ => False) :
    Ends (Unmoved s p v) (revise key entry a x) (fun _ => Unmoved s p v) fun _ _ => False := by
  refine Ends.bind (Q := fun _ => Unmoved s p v) ?_ fun _ => ?_
  · rintro ⟨q, w⟩ hq
    have := h ⟨a, w⟩ ⟨rfl, hq.alike⟩
    unfold Holding.within
    cases hx : x ⟨a, w⟩ with
    | ok b g =>
      rw [hx] at this
      obtain ⟨held, alike⟩ := this
      refine ⟨?_, hq.cache, hq.effects, hq.memo, alike⟩
      obtain ⟨hlt, hi⟩ := List.getElem?_eq_some_iff.mp hi
      have stash : q.stash = p.stash := hq.stash
      show q.stash.set key (entry g.held) = p.stash
      rw [held, ← hi, stash]
      exact List.set_getElem_self hlt
    | error stop g =>
      rw [hx] at this
      exact this
  · refine Ends.held.bind fun q => ?_
    intro f h
    obtain ⟨rfl, h⟩ := h
    obtain ⟨me, rest, inst, busy, hme, stash⟩ := settled.shown
    have shown : Ends v.Alike (Run.showStash f.held.stash) (fun _ w => True ∧ v.Alike w)
        fun _ _ => False := by
      refine .modify fun w hw => ⟨trivial, ?_⟩
      have same : w.instances.modify me (fun inst => { inst with stash := f.held.stash })
          = w.instances := by
        refine Array.ext_getElem? fun j => ?_
        rw [Array.getElem?_modify]
        split
        · next he =>
          subst he
          rw [hw.instances, hme, h.stash, ← stash]
          rfl
        · rfl
      split
      · next i _ hi =>
        rw [hw.busy, busy] at hi
        obtain ⟨rfl, -⟩ := List.cons.inj hi
        rw [same]
        exact hw
      · exact hw
    exact ((outside_unmoved shown).post fun _ _ h => h.2) f h

/-- Asking for the items of a list moves nothing. -/
theorem items_unmoved {value : Value} {list : List Value} (h : Effect.items? value = some list) :
    Ends v.Alike (Effect.itemsOf value) (fun a w => a = list ∧ v.Alike w) fun _ _ => False := by
  cases value with
  | null => exact .pure fun _ hw => ⟨Option.some.inj h, hw⟩
  | list items => exact .pure fun _ hw => ⟨Option.some.inj h, hw⟩
  | _ => cases h

/-- Rendering what has nothing left to do changes nothing. -/
theorem effect_unmoved (settled : Settled p v) (node : NodeId) (value : Value) {f : Effect}
    (rests : f.Rests s (s.engine.Still v s.controller) p.stash) :
    Ends (Unmoved s p v) (f.run s node value) (fun _ => Unmoved s p v) fun _ _ => False := by
  -- The anchor of a repeater is looked up in the stash of the pass.
  have anchor (anchors : List Anchor) : Ends (Unmoved s p v)
      (do Holding.outside (Effect.anchorIn s (← Holding.held).stash node anchors))
      (fun _ => Unmoved s p v) fun _ _ => False := by
    refine Ends.held.bind fun q => ?_
    intro f h
    obtain ⟨rfl, h⟩ := h
    rw [h.stash]
    exact (outside_unmoved (Q := fun _ => True) ((anchorIn_unmoved settled node anchors).post
      fun _ _ h => ⟨trivial, h⟩)).post (fun _ _ h => h.2) f h
  cases f with
  | renderChild key props =>
    obtain ⟨i, hi, still⟩ := rests
    refine (evaluate_unmoved props).bind fun a => .assume fun ha => ?_
    subst ha
    refine (fetch_unmoved hi (rfl : StashItem.child? (.child i) = some i)).bind fun j =>
      .assume fun hj => ?_
    subst hj
    refine ((outside_unmoved (Q := fun _ => True) (still.render.post fun _ _ h => ⟨trivial, h⟩)).post
      fun _ _ h => h.2).bind fun _ => .pure fun _ h => h
  | renderSequence key items =>
    obtain ⟨r, list, hi, hlist, rests⟩ := rests
    refine (evaluate_unmoved items).bind fun a => .assume fun ha => ?_
    subst ha
    refine (outside_unmoved (items_unmoved hlist)).bind fun b => .assume fun hb => ?_
    subst hb
    refine (fetch_unmoved hi (rfl : StashItem.sequential? (.sequential r) = some r)).bind
      fun r' => .assume fun hr => ?_
    subst hr
    exact (anchor r'.anchors).bind fun before =>
      revise_unmoved settled hi (Sequential.patch_still node before rests)
  | renderKeyed key items =>
    obtain ⟨r, list, hi, hlist, rests⟩ := rests
    refine (evaluate_unmoved items).bind fun a => .assume fun ha => ?_
    subst ha
    refine (outside_unmoved (items_unmoved hlist)).bind fun b => .assume fun hb => ?_
    subst hb
    refine (fetch_unmoved hi (rfl : StashItem.keyed? (.keyed r) = some r)).bind
      fun r' => .assume fun hr => ?_
    subst hr
    exact (anchor r'.anchors).bind fun before =>
      revise_unmoved settled hi (Keyed.patch_still node before rests)
  | _ => cases rests

/-! ## Watches -/

/-- A callback with nothing left to do changes nothing. -/
theorem runCallback_unmoved (settled : Settled p v) (node : NodeId) {k position : Nat}
    {c : Callback}
    (seen : ∀ key, c.trigger = .lookup key →
      (p.cache.get? k position).any (· == s.value key) = true)
    (rendered : c.trigger = .always →
      ∀ f ∈ c.effects, f.Rests s (s.engine.Still v s.controller) p.stash) :
    Ends (Unmoved s p v) (runCallback s node k position c) (fun _ => Unmoved s p v)
      fun _ _ => False := by
  unfold runCallback
  split
  · next ht =>
    refine (Ends.forM fun f hf => effect_unmoved settled node .null (rendered ht f hf)).bind
      fun _ => .change fun q w h => ?_
    exact ⟨h.stash, h.cache, h.effects, h.memo, h.alike⟩
  · next key ht =>
    refine (evaluate_unmoved key).bind fun a => .assume fun ha => ?_
    subst ha
    refine Ends.held.bind fun q => ?_
    intro f h
    obtain ⟨rfl, h⟩ := h
    rw [if_pos (by rw [h.cache]; exact seen key ht)]
    exact h

variable {k : Nat} {w : Watch}

/-- The callbacks of a watch that rests move nothing. -/
theorem runCallbacks_unmoved (settled : Settled p v) (node : NodeId)
    (rests : w.Rests s (s.engine.Still v s.controller) p k) (shown : s.hides w = false) :
    Ends (Unmoved s p v) (runCallbacks s node k w) (fun _ => Unmoved s p v) fun _ _ => False := by
  refine .forM fun c hc => runCallback_unmoved settled node (fun key ht => ?_) fun ht f hf => ?_
  · exact rests.seen shown c.2 c.1 key (List.mem_zipIdx_iff_getElem?.mp hc) ht
  · exact rests.rendered shown c.1
      (List.mem_of_getElem? (List.mem_zipIdx_iff_getElem?.mp hc)) ht f hf

/-- A node that is where it has to be is not moved. -/
theorem moveNode_unmoved {plan : DetachPlan} (node : NodeId) {visible : Bool}
    (parent : plan.parent < s.elements.length) {t : Tracker}
    (ht : p.stash[plan.tracker]? = some (.tracker t))
    (attached : t.isAttached plan.position = visible) :
    Ends (Unmoved s p v) (moveNode s plan node visible) (fun _ => Unmoved s p v)
      fun _ _ => False := by
  unfold moveNode
  refine (node_ends parent).bind fun parent => ?_
  refine (fetch_unmoved ht (rfl : StashItem.tracker? (.tracker t) = some t)).bind fun t' =>
    .assume fun ht' => ?_
  subst ht'
  refine (outside_unmoved (Q := (· = t')) (.modifyGet fun w h => ?_)).bind fun u =>
    .assume fun hu => .change fun q w h => ?_
  · simp only [Tracker.apply, attached, if_true]
    exact ⟨trivial, h⟩
  subst hu
  refine ⟨?_, h.cache, h.effects, h.memo, h.alike⟩
  obtain ⟨hlt, ht⟩ := List.getElem?_eq_some_iff.mp ht
  have stash : q.stash = p.stash := h.stash
  show q.stash.set plan.tracker (.tracker u) = p.stash
  rw [← ht, stash]
  exact List.set_getElem_self hlt

/-- A watch with nothing left to do is visited without changing anything. -/
theorem visit_unmoved (settled : Settled p v) (slot : w.slot < s.elements.length)
    (parent : ∀ shield ∈ w.shield, ∀ plan ∈ shield.detach, plan.parent < s.elements.length)
    (rests : w.Rests s (s.engine.Still v s.controller) p k) (rest : Nat) :
    Ends (Unmoved s p v) (visit s k w rest)
      (fun skip f => skip = s.skips w rest ∧ Unmoved s p v f) fun _ _ => False := by
  unfold visit
  refine (node_ends slot).bind fun node => ?_
  refine Ends.bind (Q := fun _ => Unmoved s p v)
    (.change fun q w h => ⟨h.stash, h.cache, h.effects, h.memo, h.alike⟩) fun _ => ?_
  have run (hh : s.hides w = false) : Ends (Unmoved s p v)
      (do runCallbacks s node k w; return 0)
      (fun skip f => skip = s.skips w rest ∧ Unmoved s p v f) fun _ _ => False := by
    refine (runCallbacks_unmoved settled node rests hh).bind fun _ => .pure fun f h => ⟨?_, h⟩
    simp [Setting.skips, hh]
  split
  · next hw => exact run (by simp [Setting.hides, hw])
  · next shield hw =>
    have hides (visible : Bool) (hv : visible = ((s.value shield.query).isTruthy != shield.reverse)) :
        s.hides w = !visible := by rw [Setting.hides_eq hw, hv, Setting.value]
    refine Ends.bind (Q := fun visible f => s.hides w = !visible ∧ Unmoved s p v f) ?_
      fun visible => .assume fun hh => ?_
    · refine Ends.bind (Q := fun visible f => s.hides w = !visible ∧ Unmoved s p v f)
        ((evaluate_unmoved shield.query).bind fun a => .pure fun f h =>
          ⟨hides _ (by rw [h.1]), h.2⟩) fun visible => .assume fun hh => ?_
      split
      · next plan hplan =>
        obtain ⟨t, ht, attached⟩ := rests.moved shield hw plan hplan
        exact (moveNode_unmoved node (parent shield hw plan hplan) ht
          (by rw [attached, hh, Bool.not_not])).bind fun _ => .pure fun _ h => ⟨hh, h⟩
      · refine Ends.bind (Q := fun _ => Unmoved s p v) ?_ fun _ => .pure fun _ h => ⟨hh, h⟩
        have shown : Ends v.Alike (Run.onDocument (·.setAttribute node s.template.hideAttribute
            (if visible then none else some ""))) (fun _ w => True ∧ v.Alike w)
            fun _ _ => False :=
          .modify fun _ h => ⟨trivial, h.put (Document.alike_setAttribute ..)⟩
        exact (outside_unmoved shown).post fun _ _ h => h.2
    split
    · next hv => exact run (by rw [hh, hv]; rfl)
    · next hv =>
      have logged : Ends v.Alike (Run.log .trace
          (s.definition.name ++ ": watch " ++ Decimal.natText k ++ " hidden, skipping "
            ++ Decimal.natText (min shield.skip rest))) (fun _ w => True ∧ v.Alike w)
          fun _ _ => False := (World.Alike.say _).post fun _ _ h => ⟨trivial, h⟩
      refine ((outside_unmoved logged).post fun _ _ h => h.2).bind fun _ =>
        Ends.bind (Q := fun _ => Unmoved s p v) (.change fun q w h =>
          ⟨h.stash, h.cache, h.effects, h.memo, h.alike⟩) fun _ => .pure fun f h => ⟨?_, h⟩
      simp [Setting.skips, hh, hv, hw]

/-- A pass over watches with nothing left to do changes nothing. -/
theorem walk_still {t : Template} (planned : t.WellPlanned)
    (elements : s.elements.length = t.slots.length) (ws : List (Watch × Nat))
    (known : ∀ x ∈ ws, x.1 ∈ t.watches) (exact : ExactWindow ws) (settled : Settled p v)
    (rests : ∀ x ∈ s.shown ws, x.1.Rests s (s.engine.Still v s.controller) p x.2) :
    Ends (Unmoved s p v) (walk s 0 ws) (fun _ => Unmoved s p v) fun _ _ => False := by
  refine walk_shown (J := fun _ => Unmoved s p v) exact fun done x rest n hs => ?_
  have hx : x ∈ s.shown ws := by simp [hs]
  have hw := known x (List.mem_filter.mp hx).1
  exact visit_unmoved settled (elements ▸ planned.slot x.1 hw)
    (by rw [elements]; exact planned.parent x.1 hw) (rests x hx) n

end Pass

end ComponentView
