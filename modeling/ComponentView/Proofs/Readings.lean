import ComponentView.Proofs.Lasting

/-! # What is remembered of a pass

Only callbacks that watch a lookup change the cache, each at its own place and once all its effects
have run. After a pass that goes well, the cache holds the values of the lookups for all watches that
the pass came to and that are not hidden, whatever their effects are (`Pass.walk_reads`). -/

namespace ComponentView

namespace Pass

variable {s : Setting} {α β : Type}

/-- The values with which effects last ran are those of before. -/
def Remembers (f g : Focus Pass) : Prop := g.held.cache = f.held.cache

instance : IsPreorder (Focus Pass) Remembers where
  refl _ := rfl
  trans _ _ _ h h' := Eq.trans h' h

/-- What goes on outside a pass leaves its cache alone. -/
theorem outside_remembers (x : Run α) : Lasting Remembers (Holding.outside x : Holding Pass α) := by
  rintro f _ rfl
  unfold Holding.outside
  cases x f.world <;> rfl

/-- A change that keeps the cache remembers. -/
theorem change_remembers {g : Pass → Pass} (h : ∀ p, (g p).cache = p.cache) :
    Lasting Remembers (Holding.change g) := Lasting.modify fun _ => h _

/-- Looking at the pass first leaves its cache alone. -/
theorem held_bind_remembers {f : Pass → Holding Pass α} (h : ∀ p, Lasting Remembers (f p)) :
    Lasting Remembers (Holding.held >>= f) := (Lasting.get.bind fun _ => .pure _).bind h

/-- Evaluating an expression leaves the cache alone. -/
theorem evaluate_remembers (key : LookupKey) : Lasting Remembers (evaluate s key) :=
  held_bind_remembers fun _ => (outside_remembers _).bind fun _ =>
    Lasting.bind (change_remembers fun _ => rfl) fun _ => .pure _

/-- Fetching an entry leaves the cache alone. -/
theorem fetch_remembers (key : StashIndex) (expected : StashKind) (pick : StashItem → Option α) :
    Lasting Remembers (fetch s key expected pick) := held_bind_remembers fun _ => outside_remembers _

/-- Revising an entry leaves the cache alone. -/
theorem revise_remembers (key : StashIndex) (entry : α → StashItem) (a : α) (x : Holding α Unit) :
    Lasting Remembers (revise key entry a x) := by
  refine Lasting.bind ?_ fun _ => held_bind_remembers fun _ => outside_remembers _
  rintro f _ rfl
  unfold Holding.within
  cases x ⟨a, f.world⟩ <;> rfl

/-- No effect changes the cache of the pass that runs it. -/
theorem effect_remembers (node : NodeId) (value : Value) (f : Effect) :
    Lasting Remembers (f.run s node value) := by
  cases f with
  | switchClasses names => exact .forM fun _ _ => outside_remembers _
  | renderChild key props =>
    exact (evaluate_remembers _).bind fun _ => (fetch_remembers _ _ _).bind fun _ =>
      (outside_remembers _).bind fun _ => .pure _
  | renderSequence key items | renderKeyed key items =>
    exact (evaluate_remembers _).bind fun _ => (outside_remembers _).bind fun _ =>
      (fetch_remembers _ _ _).bind fun _ => held_bind_remembers fun _ =>
        (outside_remembers _).bind fun _ => revise_remembers _ _ _ _
  | failWhen message =>
    show Lasting _ (if value.isTruthy then _ else _)
    split
    · exact outside_remembers _
    · exact .pure _
  | recordLookup key => exact (evaluate_remembers key).bind fun _ => outside_remembers _
  | _ =>
    unfold Effect.run
    exact outside_remembers _

/-- Nor does a callback that runs on every visit. -/
theorem always_remembers (node : NodeId) (k position : Nat) {c : Callback} (always : c.trigger = .always) :
    Lasting Remembers (runCallback s node k position c) := by
  unfold runCallback
  simp only [always]
  exact Lasting.bind (.forM fun e _ => effect_remembers node .null e) fun _ =>
    change_remembers fun _ => rfl

/-- Moving a node leaves the cache alone. -/
theorem moveNode_remembers (plan : DetachPlan) (node : NodeId) (visible : Bool) :
    Lasting Remembers (moveNode s plan node visible) :=
  (outside_remembers _).bind fun _ => (fetch_remembers _ _ _).bind fun _ =>
    (outside_remembers _).bind fun _ => change_remembers fun _ => rfl

/-- Applying a shield leaves the cache alone. -/
theorem applyShield_remembers (shield : Shield) (node : NodeId) :
    Lasting Remembers (applyShield s shield node) := by
  unfold applyShield isVisible
  refine Lasting.bind ((evaluate_remembers _).bind fun _ => .pure _) fun visible => ?_
  split
  · exact (moveNode_remembers _ _ _).bind fun _ => .pure _
  · exact (outside_remembers _).bind fun _ => .pure _

/-! ## Passes that go well -/

/-- A pass of a template whose cache has a place for every callback. -/
structure Ready (s : Setting) (p : Pass) : Prop where
  fits : p.Fits s
  shape : p.cache.map List.length = s.template.watches.map (·.callbacks.length)

/-- What is remembered of a callback is the value of its lookup. -/
def Has (s : Setting) (p : Pass) (k : Nat) (x : Callback × Nat) : Prop :=
  ∀ key, x.1.trigger = .lookup key → (p.cache.get? k x.2).any (· == s.value key) = true

variable {k : Nat} {w : Watch}

/-- What lets a pass fit and does not change its cache keeps it ready. -/
theorem Ready.keep {x : Holding Pass α} {f : Focus Pass} (ready : f.held.Ready s)
    {Q : α → Prop} {E : Stop → Focus Pass → Prop}
    (fits : Ends (fun g => During s k f.held g.held) x (fun a g => Q a ∧ During s k f.held g.held) E)
    (same : Lasting Remembers x) :
    Ends (f = ·) x (fun a g => Q a ∧ g.held.Ready s ∧ Remembers f g) fun _ _ => True :=
  (fits.and (same f)).mono (by rintro _ rfl; exact ⟨.refl ready.fits, rfl⟩)
    (fun _ _ h => ⟨h.1.1, ⟨h.1.2.fits, by rw [h.2]; exact ready.shape⟩, h.2⟩) fun _ _ _ => trivial

/-- Effects leave the pass ready and its cache alone. -/
theorem effects_ready (node : NodeId) (value : Value) (fs : List Effect) {f : Focus Pass}
    (ready : f.held.Ready s) :
    Ends (f = ·) (fs.forM (Effect.run s node value))
      (fun _ g => True ∧ g.held.Ready s ∧ Remembers f g) fun _ _ => True :=
  ready.keep (k := 0) ((effects_ends node value fs).post fun _ _ h => ⟨trivial, h⟩)
    (.forM fun e _ => effect_remembers node value e)

/-- After a callback has run, the value of its lookup is remembered of it, and of the other callbacks
what was remembered before. -/
theorem runCallback_reads (hk : s.template.watches[k]? = some w) {c : Callback} {position : Nat}
    (hc : w.callbacks[position]? = some c) (node : NodeId) {f : Focus Pass} (ready : f.held.Ready s) :
    Ends (f = ·) (runCallback s node k position c)
      (fun _ g => g.held.Ready s ∧ g.held.Has s k (c, position) ∧
        ∀ other ≠ position, g.held.cache.get? k other = f.held.cache.get? k other)
      fun _ _ => True := by
  unfold runCallback
  split
  · next always =>
    refine (effects_ready node .null c.effects ready).bind fun _ => .change fun q v h => ?_
    obtain ⟨-, ready', same⟩ := h
    refine ⟨⟨⟨ready'.fits.memo, ready'.fits.stash⟩, ready'.shape⟩, fun key ht => ?_, fun other _ => ?_⟩
    · rw [always] at ht
      cases ht
    · exact congrArg (Cache.get? · k other) same
  · next key ht =>
    refine (ready.keep (k := k) (Q := (· = s.value key)) (E := fun _ _ => True) (evaluate_ends key)
      (evaluate_remembers key)).bind fun value => .assume fun hv => ?_
    subst hv
    refine Ends.held.bind fun q => .pointwise fun g hg => ?_
    obtain ⟨rfl, ready', same⟩ := hg
    split
    · next seen =>
      refine .pure ?_
      rintro _ rfl
      refine ⟨ready', fun key' ht' => ?_, fun other _ => congrArg (Cache.get? · k other) same⟩
      obtain rfl : key = key' := by rw [ht] at ht'; exact Trigger.lookup.inj ht'
      exact seen
    · refine (effects_ready node (s.value key) c.effects ready').bind fun _ => .change fun q v h => ?_
      obtain ⟨-, ready'', same'⟩ := h
      have row : (q.cache.map List.length)[k]? = some w.callbacks.length := by
        rw [show q.cache.map List.length = _ from ready''.shape, List.getElem?_map, hk]
        rfl
      refine ⟨⟨⟨ready''.fits.memo, ready''.fits.stash⟩, Cache.map_length_set.trans ready''.shape⟩,
        fun key' ht' => ?_, fun other hne => ?_⟩
      · obtain rfl : key = key' := by rw [ht] at ht'; exact Trigger.lookup.inj ht'
        dsimp only
        rw [Cache.get?_set_self row (List.getElem?_eq_some_iff.mp hc).1]
        exact Value.equal_self _
      · exact (Cache.get?_set_of_ne hne).trans (congrArg (Cache.get? · k other) (same'.trans same))

/-- After the callbacks of a watch have run, the values of its lookups are remembered. -/
theorem runCallbacks_reads (hk : s.template.watches[k]? = some w) (node : NodeId) :
    Ends (fun f => f.held.Ready s) (runCallbacks s node k w)
      (fun _ g => g.held.Ready s ∧ ∀ x ∈ w.callbacks.zipIdx, g.held.Has s k x) fun _ _ => True := by
  refine (Ends.forM_done (J := fun (done : List (Callback × Nat)) (g : Focus Pass) =>
    g.held.Ready s ∧ ∀ x ∈ done, g.held.Has s k x) fun done x rest split => .pointwise fun g hg => ?_).pre
      fun f h => ⟨h, List.forall_mem_nil _⟩
  obtain ⟨ready, has⟩ := hg
  have place : w.callbacks[x.2]? = some x.1 := List.mem_zipIdx_iff_getElem?.mp (by simp [split])
  refine (runCallback_reads hk place node ready).post fun _ later h => ?_
  obtain ⟨ready', own, others⟩ := h
  refine ⟨ready', List.forall_mem_append.mpr ⟨fun y hy key ht => ?_, List.forall_mem_singleton.mpr own⟩⟩
  rw [others y.2 (ne_of_zipIdx split hy)]
  exact has y hy key ht

/-- A watch that has been visited and is not hidden has been read. -/
def Read (s : Setting) (p : Pass) (x : Watch × Nat) : Prop :=
  s.hides x.1 = false → ∀ y ∈ x.1.callbacks.zipIdx, p.Has s x.2 y

/-- What goes on outside leaves a pass ready. -/
theorem outside_ready (x : Run α) :
    Ends (fun f : Focus Pass => f.held.Ready s) (Holding.outside x) (fun _ f => f.held.Ready s)
      fun _ _ => True := by
  intro f ready
  unfold Holding.outside
  cases x f.world with
  | ok a w => exact ready
  | error stop w => trivial

/-- A watch that has been visited has been read. -/
theorem visit_reads {t : Template} (ht : s.template = t) (planned : t.WellPlanned)
    (elements : s.elements.length = t.slots.length) (hk : t.watches[k]? = some w) (rest : Nat) :
    Ends (fun f => f.held.Ready s) (visit s k w rest)
      (fun _ g => g.held.Ready s ∧ g.held.Read s (w, k)) fun _ _ => True := by
  subst ht
  have hw := List.mem_of_getElem? hk
  unfold visit
  refine (outside_ready _).bind fun node => Ends.bind (Q := fun _ g => g.held.Ready s)
    (.change fun q v ready => ⟨⟨ready.fits.memo, ready.fits.stash⟩, ready.shape⟩) fun _ => ?_
  have run : Ends (fun f => f.held.Ready s) (do runCallbacks s node k w; return 0)
      (fun (_ : Nat) g => g.held.Ready s ∧ g.held.Read s (w, k)) fun _ _ => True :=
    (runCallbacks_reads hk node).bind fun _ => .pure fun _ h => ⟨h.1, fun _ => h.2⟩
  split
  · exact run
  · next shield hs =>
    refine .pointwise fun f ready => ?_
    refine (ready.keep (k := k) (E := fun _ _ => True) (applyShield_ends node
      (fun plan hp => elements ▸ planned.parent w hw shield hs plan hp)
      (planned.tracker w hw shield hs)) (applyShield_remembers shield node)).bind fun visible =>
        .assume fun hv => ?_
    have hides : s.hides w = !visible := by rw [Setting.hides_eq hs, hv]
    split
    · exact run.pre fun _ h => h.1
    · next hidden =>
      refine ((outside_ready _).pre fun _ h => h.1).bind fun _ => Ends.bind
        (Q := fun _ g => g.held.Ready s) (.change fun q v ready =>
          ⟨⟨ready.fits.memo, ready.fits.stash⟩, ready.shape⟩) fun _ => .pure fun g ready =>
            ⟨ready, fun shown => ?_⟩
      rw [hides, Bool.not_eq_true] at *
      simp_all

/-- After a pass that goes well all watches that were shown have been read. -/
theorem walk_reads {t : Template} (ht : s.template = t) (planned : t.WellPlanned)
    (elements : s.elements.length = t.slots.length) {ws : List (Watch × Nat)}
    (known : ∀ x ∈ ws, t.watches[x.2]? = some x.1) (exact : ExactWindow ws) :
    Ends (fun f => f.held.Ready s) (walk s 0 ws)
      (fun _ g => g.held.Ready s ∧ ∀ x ∈ s.shown ws, g.held.Read s x) fun _ _ => True := by
  refine (walk_shown (J := fun done g => g.held.Ready s ∧ ∀ x ∈ done, g.held.Read s x)
    (E := fun _ _ => True) exact fun done x rest n split => .pointwise fun f hf => ?_).pre
      fun _ ready => ⟨ready, List.forall_mem_nil _⟩
  obtain ⟨ready, read⟩ := hf
  have member {y : Watch × Nat} (hy : y ∈ s.shown ws) := (List.mem_filter.mp hy).1
  have place := known x (member (by simp [split]))
  have hw := List.mem_of_getElem? place
  refine ((visit_ends ready.fits (elements ▸ planned.slot x.1 hw) (elements ▸ planned.parent x.1 hw)
    (ht ▸ planned.tracker x.1 hw) n).and (visit_reads ht planned elements place n)).mono
      (by rintro _ rfl; exact ⟨rfl, ready⟩) (fun skip g h => ?_) fun _ _ _ => trivial
  obtain ⟨⟨hskip, during⟩, ready', own⟩ := h
  refine ⟨hskip, ready', List.forall_mem_append.mpr
    ⟨fun y hy visible c hc key trigger => ?_, List.forall_mem_singleton.mpr own⟩⟩
  -- No two watches of a window have the same position.
  have distinct : y.2 ≠ x.2 := by
    have sorted := List.pairwise_map.mp (Setting.pairwise_shown (s := s) exact)
    rw [split] at sorted
    exact Nat.ne_of_lt ((List.pairwise_append.mp sorted).2.2 y hy x List.mem_cons_self)
  have same : g.held.cache.get? y.2 c.2 = f.held.cache.get? y.2 c.2 := by
    unfold Cache.get?
    rw [during.cache y.2 distinct]
  rw [same]
  exact read y hy visible c hc key trigger

end Pass

end ComponentView
