import ComponentView.Proofs.Layout

/-! # Steps of the walk over an outline

Each step of the walk keeps the layout regular (`Layout.Regular`): a slot belongs to one node that
is there once, a place in the stash to one tracker, child or repeater. `Lay.watch` collects what the
directives of one node ask for, and `watch_gives` says that the watch it makes does just that. -/

namespace ComponentView

/-! ## Regular layouts -/

namespace Outline

/-- What the checks make sure of for the walk: a node below another is met after it and not below a
child component, and a repeated node stands below another and is always visible. -/
structure Sound (o : Outline) : Prop where
  parent : ∀ {i : Nat} {e : OutlineEntry} {p : Nat}, o[i]? = some e → e.parent = some p →
    p < i ∧ ∃ above, o[p]? = some above ∧ above.node.head.isComponent = false
  repeated : ∀ {i : Nat} {e : OutlineEntry}, o[i]? = some e → e.node.head.isRepeated = true →
    e.parent.isSome = true ∧ e.node.head.visibility = none

/-- The entry is there, and it is no repeated node. -/
def Plain (o : Outline) (i : Nat) : Prop :=
  ∃ e, o[i]? = some e ∧ e.node.head.isRepeated = false

end Outline

namespace Layout

/-- The layout after the entries before position `n`. -/
structure Regular (o : Outline) (n : Nat) (l : Layout) : Prop where
  aligned : l.lookups.Aligned
  owners_nodup : l.owners.Nodup
  owners_plain : ∀ i ∈ l.owners, o.Plain i
  trackers : ∀ p ∈ l.trackers, l.Plans p.2 (.tracker [])
  trackers_nodup : (l.trackers.map (·.2)).Nodup
  /-- A nested child stands in place of one node, which has no other. -/
  child : ∀ {key slot : Nat} {source : ChildSource} {startsDetached : Bool},
    l.Plans key (.child slot source startsDetached) → ∃ i < n, ∃ e, l.Owns slot i ∧
      o[i]? = some e ∧ e.node.head.isComponent = true ∧ startsDetached = e.node.head.canDetach
  child_unique : ∀ {key key' slot : Nat} {source source' : ChildSource} {b b' : Bool},
    l.Plans key (.child slot source b) → l.Plans key' (.child slot source' b') → key = key'
  child_total : ∀ {i : Nat} {e : OutlineEntry}, i < n → o[i]? = some e →
    e.node.head.isComponent = true → e.node.head.isRepeated = false →
      ∃ key slot source, l.Plans key (.child slot source e.node.head.canDetach) ∧ l.Owns slot i
  repeats : ∀ {i key : Nat}, l.Repeats i key → i < n ∧ ∃ e, o[i]? = some e ∧
    e.node.head.isRepeated = true ∧ ∃ p, l.Plans key p ∧ p.isRepeater = true
  repeats_nodup : (l.repeats.map (·.1)).Nodup ∧ (l.repeats.map (·.2)).Nodup
  repeats_total : ∀ {i : Nat} {e : OutlineEntry}, i < n → o[i]? = some e →
    e.node.head.isRepeated = true → ∃ key, l.Repeats i key
  repeater : ∀ {key : Nat} {p : StashPlan}, l.Plans key p → p.isRepeater = true →
    ∃ i, l.Repeats i key

/-- The layout before the walk. -/
theorem Regular.empty (o : Outline) : Regular o 0 {} where
  aligned := LookupTable.aligned_empty
  owners_nodup := List.nodup_nil
  owners_plain := by simp
  trackers := by simp
  trackers_nodup := List.nodup_nil
  child h := by simp [Plans] at h
  child_unique h := by simp [Plans] at h
  child_total h := absurd h (Nat.not_lt_zero _)
  repeats h := by simp [Repeats] at h
  repeats_nodup := ⟨List.nodup_nil, List.nodup_nil⟩
  repeats_total h := absurd h (Nat.not_lt_zero _)
  repeater h := by simp [Plans] at h

variable {o : Outline} {n : Nat} {l later : Layout}

/-- One more plan is the plan of the next place in the stash. -/
theorem plans_of_append {p : StashPlan} (h : later.stash = l.stash ++ [p]) {key : StashIndex}
    {q : StashPlan} :
    later.Plans key q ↔ l.Plans key q ∨ key = l.stash.length ∧ q = p.bare := by
  rw [Plans, Plans, h, List.map_append, List.map_singleton, List.getElem?_append]
  split
  · next hlt => simp_all [Nat.ne_of_lt]
  · next hge =>
    rw [List.getElem?_eq_none (Nat.not_lt.mp hge), List.getElem?_singleton]
    grind [List.length_map]

/-- A layout stays regular when slots, keys, listeners and trackers are added. -/
theorem Regular.grows (h : l.Regular o n) (g : Grows l later)
    (nodup : later.owners.Nodup) (plain : ∀ i ∈ later.owners, o.Plain i)
    (trackers : ∀ p ∈ later.trackers, later.Plans p.2 (.tracker []))
    (trackers_nodup : (later.trackers.map (·.2)).Nodup)
    (repeats : later.repeats = l.repeats)
    (plans : ∀ {key p}, later.Plans key p → l.Plans key p ∨ p = .tracker []) :
    later.Regular o n where
  aligned := g.lookups.aligned h.aligned
  owners_nodup := nodup
  owners_plain := plain
  trackers := trackers
  trackers_nodup := trackers_nodup
  child hk := by
    obtain ⟨i, hi, e, ho, he⟩ := h.child ((plans hk).resolve_right (by simp))
    exact ⟨i, hi, e, ho.grows g, he⟩
  child_unique hk hk' :=
    h.child_unique ((plans hk).resolve_right (by simp)) ((plans hk').resolve_right (by simp))
  child_total hi he hc hr := by
    obtain ⟨key, slot, source, hp, ho⟩ := h.child_total hi he hc hr
    exact ⟨key, slot, source, hp.grows g, ho.grows g⟩
  repeats hk := by
    rw [Repeats, repeats] at hk
    obtain ⟨hi, e, he, hr, p, hp, hpr⟩ := h.repeats hk
    exact ⟨hi, e, he, hr, p, hp.grows g, hpr⟩
  repeats_nodup := by rw [repeats]; exact h.repeats_nodup
  repeats_total hi he hr := by
    obtain ⟨key, hk⟩ := h.repeats_total hi he hr
    exact ⟨key, hk.grows g⟩
  repeater hk hp := by
    rcases plans hk with hk | rfl
    · obtain ⟨i, hi⟩ := h.repeater hk hp
      exact ⟨i, hi.grows g⟩
    · exact absurd hp (by simp [StashPlan.isRepeater])

/-- A layout stays regular when something is added that is no part of the stash. -/
theorem Regular.of_same_plans (h : l.Regular o n) (g : Grows l later)
    (nodup : later.owners.Nodup) (plain : ∀ i ∈ later.owners, o.Plain i)
    (trackers : later.trackers = l.trackers) (repeats : later.repeats = l.repeats)
    (stash : later.stash.map StashPlan.bare = l.stash.map StashPlan.bare) :
    later.Regular o n :=
  h.grows g nodup plain (fun p hp => (h.trackers p (trackers ▸ hp)).grows g)
    (trackers ▸ h.trackers_nodup) repeats
    fun hk => Or.inl (by rwa [Plans, stash] at hk)

/-! ### The component of one node

The three ways in which a layout stays regular when the walk goes on to the next node: the node has
no component of its own, a nested child, or a repeat. -/

/-- A key with a plan is a number of the stash. -/
theorem lt_of_plans {key : StashIndex} {p : StashPlan} (h : l.Plans key p) :
    key < l.stash.length := by
  simpa using (List.getElem?_eq_some_iff.mp h).1

/-- An entry without a component leaves a regular layout regular. -/
theorem Regular.next (h : l.Regular o n) {e : OutlineEntry} (he : o[n]? = some e)
    (hc : e.node.head.isComponent = false) : l.Regular o (n + 1) where
  aligned := h.aligned
  owners_nodup := h.owners_nodup
  owners_plain := h.owners_plain
  trackers := h.trackers
  trackers_nodup := h.trackers_nodup
  child hk := by
    obtain ⟨i, hi, rest⟩ := h.child hk
    exact ⟨i, by omega, rest⟩
  child_unique := h.child_unique
  child_total hi he' hc' hr := by
    rcases Nat.lt_succ_iff_lt_or_eq.mp hi with hi | rfl
    · exact h.child_total hi he' hc' hr
    · simp_all
  repeats hk := by
    obtain ⟨hi, rest⟩ := h.repeats hk
    exact ⟨by omega, rest⟩
  repeats_nodup := h.repeats_nodup
  repeats_total hi he' hr := by
    rcases Nat.lt_succ_iff_lt_or_eq.mp hi with hi | rfl
    · exact h.repeats_total hi he' hr
    · simp_all [NodeHead.isComponent, NodeHead.isRepeated]
  repeater := h.repeater

/-- The component of an entry is planned, and the layout is regular after it. -/
theorem Regular.next_child (h : l.Regular o n) {e : OutlineEntry} (he : o[n]? = some e)
    (hc : e.node.head.isComponent = true) (hr : e.node.head.isRepeated = false) {slot : Nat}
    (ho : l.Owns slot n) (source : ChildSource) :
    Regular o (n + 1)
      { l with stash := l.stash ++ [.child slot source e.node.head.canDetach] } := by
  set later : Layout := { l with stash := l.stash ++ [.child slot source e.node.head.canDetach] }
  have added {key : StashIndex} {q : StashPlan} : later.Plans key q ↔
      l.Plans key q ∨ key = l.stash.length ∧ q = .child slot source e.node.head.canDetach :=
    plans_of_append (p := .child slot source e.node.head.canDetach) rfl
  have old {key : StashIndex} {q : StashPlan} (hk : l.Plans key q) : later.Plans key q :=
    added.mpr (Or.inl hk)
  -- No child made before stands at this slot, for it belongs to an earlier node.
  have fresh {key : StashIndex} {source' : ChildSource} {b : Bool}
      (hk : l.Plans key (.child slot source' b)) : False := by
    obtain ⟨i, hi, -, ho', -⟩ := h.child hk
    obtain rfl : i = n := Option.some.inj (ho'.symm.trans ho)
    exact Nat.lt_irrefl i hi
  refine
    { aligned := h.aligned, owners_nodup := h.owners_nodup, owners_plain := h.owners_plain
      trackers := fun p hp => old (h.trackers p hp), trackers_nodup := h.trackers_nodup
      child := fun hk => ?_
      child_unique := fun hk hk' => ?_, child_total := fun hi he' hc' hr' => ?_
      repeats := fun hk => ?_, repeats_nodup := h.repeats_nodup
      repeats_total := fun hi he' hr' => ?_, repeater := fun hk hp => ?_ }
  · rcases added.mp hk with hk | ⟨-, hk⟩
    · obtain ⟨i, hi, rest⟩ := h.child hk
      exact ⟨i, by omega, rest⟩
    · obtain ⟨rfl, rfl, rfl⟩ := StashPlan.child.inj hk
      exact ⟨n, by omega, e, ho, he, hc, rfl⟩
  · rcases added.mp hk with old₁ | ⟨hk₁, new₁⟩ <;> rcases added.mp hk' with old₂ | ⟨hk₂, new₂⟩
    · exact h.child_unique old₁ old₂
    · obtain ⟨rfl, -⟩ := StashPlan.child.inj new₂
      exact (fresh old₁).elim
    · obtain ⟨rfl, -⟩ := StashPlan.child.inj new₁
      exact (fresh old₂).elim
    · exact hk₁.trans hk₂.symm
  · rcases Nat.lt_succ_iff_lt_or_eq.mp hi with hi | rfl
    · obtain ⟨key, slot', source', hk, ho'⟩ := h.child_total hi he' hc' hr'
      exact ⟨key, slot', source', old hk, ho'⟩
    · obtain rfl : e = _ := Option.some.inj (he.symm.trans he')
      exact ⟨l.stash.length, slot, source, added.mpr (Or.inr ⟨rfl, rfl⟩), ho⟩
  · obtain ⟨hi, e', he', hr', p, hp, hpr⟩ := h.repeats hk
    exact ⟨by omega, e', he', hr', p, old hp, hpr⟩
  · rcases Nat.lt_succ_iff_lt_or_eq.mp hi with hi | rfl
    · exact h.repeats_total hi he' hr'
    · simp_all
  · rcases added.mp hk with hk | ⟨-, rfl⟩
    · exact h.repeater hk hp
    · exact absurd hp (by simp [StashPlan.isRepeater])

/-- The repeater of an entry is planned, and the layout is regular after it. -/
theorem Regular.next_repeat (h : l.Regular o n) {e : OutlineEntry} (he : o[n]? = some e)
    (hr : e.node.head.isRepeated = true) {p : StashPlan} (hp : p.isRepeater = true)
    (hb : p.bare = p) :
    Regular o (n + 1)
      { l with stash := l.stash ++ [p], repeats := l.repeats ++ [(n, l.stash.length)] } := by
  set later : Layout :=
    { l with stash := l.stash ++ [p], repeats := l.repeats ++ [(n, l.stash.length)] }
  have added {key : StashIndex} {q : StashPlan} :
      later.Plans key q ↔ l.Plans key q ∨ key = l.stash.length ∧ q = p := by
    rw [plans_of_append rfl, hb]
  have old {key : StashIndex} {q : StashPlan} (hk : l.Plans key q) : later.Plans key q :=
    added.mpr (Or.inl hk)
  have repeated {i : Nat} {key : StashIndex} :
      later.Repeats i key ↔ l.Repeats i key ∨ i = n ∧ key = l.stash.length := by
    simp [later, Repeats]
  have ofChild {key slot : Nat} {source : ChildSource} {b : Bool}
      (hk : later.Plans key (.child slot source b)) : l.Plans key (.child slot source b) := by
    rcases added.mp hk with hk | ⟨-, rfl⟩
    · exact hk
    · exact absurd hp (by simp [StashPlan.isRepeater])
  refine
    { aligned := h.aligned, owners_nodup := h.owners_nodup, owners_plain := h.owners_plain
      trackers := fun p hp => old (h.trackers p hp), trackers_nodup := h.trackers_nodup
      child := fun hk => ?_
      child_unique := fun hk hk' => h.child_unique (ofChild hk) (ofChild hk')
      child_total := fun hi he' hc' hr' => ?_
      repeats := fun hk => ?_, repeats_nodup := ?_
      repeats_total := fun hi he' hr' => ?_, repeater := fun hk hp' => ?_ }
  · obtain ⟨i, hi, rest⟩ := h.child (ofChild hk)
    exact ⟨i, by omega, rest⟩
  · rcases Nat.lt_succ_iff_lt_or_eq.mp hi with hi | rfl
    · obtain ⟨key, slot', source', hk, ho'⟩ := h.child_total hi he' hc' hr'
      exact ⟨key, slot', source', old hk, ho'⟩
    · simp_all
  · rcases repeated.mp hk with hk | ⟨rfl, rfl⟩
    · obtain ⟨hi, e', he', hr', q, hq, hqr⟩ := h.repeats hk
      exact ⟨by omega, e', he', hr', q, old hq, hqr⟩
    · exact ⟨by omega, e, he, hr, p, added.mpr (Or.inr ⟨rfl, rfl⟩), hp⟩
  · simp only [later, List.map_append, List.map_singleton, List.nodup_append, List.mem_singleton]
    refine ⟨⟨h.repeats_nodup.1, by simp, ?_⟩, h.repeats_nodup.2, by simp, ?_⟩
    · rintro i hi _ rfl rfl
      obtain ⟨⟨i, key⟩, hm, rfl⟩ := List.mem_map.mp hi
      exact Nat.lt_irrefl _ (h.repeats hm).1
    · rintro key hk _ rfl rfl
      obtain ⟨⟨i, key⟩, hm, hk⟩ := List.mem_map.mp hk
      obtain ⟨-, -, -, -, q, hq, -⟩ := h.repeats hm
      exact Nat.ne_of_lt (lt_of_plans hq) hk
  · rcases Nat.lt_succ_iff_lt_or_eq.mp hi with hi | rfl
    · obtain ⟨key, hk⟩ := h.repeats_total hi he' hr'
      exact ⟨key, repeated.mpr (Or.inl hk)⟩
    · exact ⟨l.stash.length, repeated.mpr (Or.inr ⟨rfl, rfl⟩)⟩
  · rcases added.mp hk with hk | ⟨rfl, -⟩
    · obtain ⟨i, hi⟩ := h.repeater hk hp'
      exact ⟨i, repeated.mpr (Or.inl hi)⟩
    · exact ⟨n, repeated.mpr (Or.inr ⟨rfl, rfl⟩)⟩

end Layout

/-! ## What a step gives -/

namespace Lay

variable {α β : Type} {o : Outline} {n : Nat}

/-- From a regular layout in which `P` holds, the step makes a regular layout that has grown, and
`Q` holds of its result there. -/
def Gives (o : Outline) (n : Nat) (P : Layout → Prop) (x : Lay α) (Q : α → Layout → Prop) : Prop :=
  ∀ l, l.Regular o n → P l →
    (x.run l).2.Regular o n ∧ l.Grows (x.run l).2 ∧ Q (x.run l).1 (x.run l).2

/-- What holds of a layout still holds when it has grown. -/
def Stable (P : Layout → Prop) : Prop := ∀ {l later : Layout}, P l → l.Grows later → P later

namespace Gives

variable {P : Layout → Prop} {x : Lay α} {Q : α → Layout → Prop}

/-- A result gives what holds. -/
theorem pure {a : α} (h : ∀ l, P l → Q a l) : Gives o n P (pure a) Q :=
  fun l hl hp => ⟨hl, .refl l, h l hp⟩

/-- What the first step gives the second goes on with. -/
theorem bind {f : α → Lay β} {R : β → Layout → Prop} (hx : Gives o n P x Q)
    (hf : ∀ a, Gives o n (Q a) (f a) R) : Gives o n P (x >>= f) R := by
  intro l hl hp
  obtain ⟨h₁, g₁, q⟩ := hx l hl hp
  obtain ⟨h₂, g₂, r⟩ := hf _ _ h₁ q
  exact ⟨h₂, g₁.trans g₂, r⟩

/-- What every step of a loop gives back, the loop gives back. -/
theorem forM {γ : Type} {f : γ → Lay PUnit} {S : Layout → Prop} {cs : List γ}
    (hf : ∀ c ∈ cs, Gives o n S (f c) fun _ => S) : Gives o n S (cs.forM f) fun _ => S := by
  induction cs with
  | nil => exact .pure fun _ h => h
  | cons c cs ih =>
    rw [List.forall_mem_cons] at hf
    exact hf.1.bind fun _ => ih hf.2

/-- What every step of a loop gives again, the loop gives. -/
theorem foldlM {γ : Type} {f : α → γ → Lay α} {Q : α → Layout → Prop} {cs : List γ}
    (hf : ∀ a, ∀ c ∈ cs, Gives o n (Q a) (f a c) Q) (a : α) :
    Gives o n (Q a) (cs.foldlM f a) Q := by
  induction cs generalizing a with
  | nil => exact .pure fun _ h => h
  | cons c cs ih =>
    rw [List.foldlM_cons]
    exact (hf a c List.mem_cons_self).bind
      fun a => ih (fun a c hc => hf a c (List.mem_cons_of_mem _ hc)) a

end Gives

/-! ## The steps -/

/-- An entry has its slot from its first use on. -/
theorem slot_gives {S : Layout → Prop} (hs : Stable S) {i : Nat} (hi : o.Plain i) :
    Gives o n S (slot i) fun slot l => S l ∧ l.Owns slot i := by
  intro l hl hS
  simp only [StateT.run, slot]
  split
  · next slot h =>
    refine ⟨hl, .refl l, hS, ?_⟩
    rw [List.idxOf?, List.findIdx?_eq_some_iff_getElem] at h
    obtain ⟨hlt, heq, -⟩ := h
    rw [Layout.Owns, List.getElem?_eq_getElem hlt]
    exact congrArg some (by simpa using heq)
  · next h =>
    rw [List.idxOf?_eq_none_iff] at h
    have g : l.Grows { l with owners := l.owners ++ [i] } :=
      ⟨List.prefix_append _ _, .refl _, List.prefix_rfl, List.prefix_rfl,
        List.prefix_rfl, rfl⟩
    refine ⟨hl.of_same_plans g ?_ ?_ rfl rfl rfl, g, hs hS g, by simp [Layout.Owns]⟩
    · exact List.nodup_append.mpr ⟨hl.owners_nodup, by simp, by
        rintro a ha b hb rfl
        exact h (List.mem_singleton.mp hb ▸ ha)⟩
    · intro j hj
      rcases List.mem_append.mp hj with hj | hj
      · exact hl.owners_plain j hj
      · exact List.mem_singleton.mp hj ▸ hi

/-- An expression has its key from its first use on. -/
theorem intern_gives {S : Layout → Prop} (hs : Stable S) (e : Expr) :
    Gives o n S (intern e) fun key l => S l ∧ l.Looks key e := by
  intro l hl h
  have g : l.Grows { l with lookups := (l.lookups.intern e).1 } :=
    ⟨List.prefix_rfl, LookupTable.grows_intern l.lookups e, List.prefix_rfl, List.prefix_rfl,
      List.prefix_rfl, rfl⟩
  exact ⟨hl.of_same_plans g hl.owners_nodup hl.owners_plain rfl rfl rfl, g, hs h g,
    LookupTable.expr?_intern hl.aligned e⟩

/-- A listener is no part of the plan. -/
theorem listen_gives {S : Layout → Prop} (hs : Stable S) (slot : Nat) (event : String)
    (handler : Handler) : Gives o n S (listen slot event handler) fun _ => S := by
  intro l hl h
  have g : l.Grows { l with listeners := l.listeners ++ [⟨slot, event, handler⟩] } :=
    ⟨List.prefix_rfl, .refl _, List.prefix_rfl, List.prefix_rfl, List.prefix_rfl, rfl⟩
  exact ⟨hl.of_same_plans g hl.owners_nodup hl.owners_plain rfl rfl rfl, g, hs h g⟩

/-- The name of a slot is no part of the plan. -/
theorem refs_gives {S : Layout → Prop} (hs : Stable S) (name : String) (slot : Nat) :
    Gives o n S (modify fun l => { l with refs := l.refs ++ [(name, slot)] }) fun _ => S := by
  intro l hl h
  have g : l.Grows { l with refs := l.refs ++ [(name, slot)] } :=
    ⟨List.prefix_rfl, .refl _, List.prefix_rfl, List.prefix_rfl, List.prefix_rfl, rfl⟩
  exact ⟨hl.of_same_plans g hl.owners_nodup hl.owners_plain rfl rfl rfl, g, hs h g⟩

/-- A parent has its tracker from its first use on. -/
theorem tracker_gives {S : Layout → Prop} (hs : Stable S) (parent : Nat) :
    Gives o n S (tracker parent) fun key l =>
      S l ∧ l.Plans key (.tracker []) ∧ l.Tracks parent key := by
  intro l hl h
  cases hk : l.trackers.lookup parent with
  | some key =>
    have run : (tracker parent).run l = (key, l) := by
      simp only [tracker, StateT.run_bind, StateT.run_get, pure_bind, hk]
      rfl
    obtain ⟨before, after, he, -⟩ := List.lookup_eq_some_iff.mp hk
    have listed : (parent, key) ∈ l.trackers := by simp [he]
    rw [run]
    exact ⟨hl, .refl l, h, hl.trackers _ listed, listed⟩
  | none =>
    let later : Layout := { l with
      stash := l.stash ++ [.tracker []], trackers := l.trackers ++ [(parent, l.stash.length)] }
    have run : (tracker parent).run l = (l.stash.length, later) := by
      simp only [tracker, StateT.run_bind, StateT.run_get, pure_bind, hk]
      rfl
    have g : l.Grows later :=
      ⟨List.prefix_rfl, .refl _, List.prefix_append _ _, List.prefix_rfl, by simp [later],
        rfl⟩
    have hp : later.Plans l.stash.length (.tracker []) :=
      (Layout.plans_of_append rfl).mpr (Or.inr ⟨rfl, rfl⟩)
    rw [run]
    refine ⟨hl.grows g hl.owners_nodup hl.owners_plain ?_ ?_ rfl ?_, g, hs h g, hp, ?_⟩
    · intro p hm
      rcases List.mem_append.mp hm with hm | hm
      · exact (hl.trackers p hm).grows g
      · exact List.mem_singleton.mp hm ▸ hp
    · rw [List.map_append, List.map_singleton, List.nodup_append]
      refine ⟨hl.trackers_nodup, by simp, fun key hk other ho he => ?_⟩
      obtain ⟨p, hm, rfl⟩ := List.mem_map.mp hk
      exact Nat.ne_of_lt (Layout.lt_of_plans (hl.trackers p hm)) (he.trans (List.mem_singleton.mp ho))
    · intro key p hk
      rcases (Layout.plans_of_append rfl).mp hk with hk | ⟨-, rfl⟩
      · exact Or.inl hk
      · exact Or.inr rfl
    · exact List.mem_append_right _ (List.mem_singleton_self _)

/-- The stash keeps its plans when only what is found out later is added to one of them. -/
theorem bare_modify {f : StashPlan → StashPlan} (hf : ∀ p, (f p).bare = p.bare)
    {stash : List StashPlan} {key : StashIndex} :
    (stash.modify key f).map StashPlan.bare = stash.map StashPlan.bare := by
  apply List.ext_getElem?
  intro i
  rw [List.getElem?_map, List.getElem?_map, List.getElem?_modify]
  cases stash[i]? with
  | none => rfl
  | some p => by_cases hi : key = i <;> simp [hi, hf]

/-- That a position starts detached is found out after the tracker was planned. -/
theorem startDetached_gives {S : Layout → Prop} (hs : Stable S) (key : StashIndex)
    (position : Nat) :
    Gives o n S
      (modify fun l => { l with stash := l.stash.modify key (StashPlan.startDetached position) })
      fun _ => S := by
  intro l hl h
  have bare : (l.stash.modify key (StashPlan.startDetached position)).map StashPlan.bare
      = l.stash.map StashPlan.bare := bare_modify fun p => StashPlan.bare_startDetached position p
  have g : l.Grows
      { l with stash := l.stash.modify key (StashPlan.startDetached position) } :=
    ⟨List.prefix_rfl, .refl _, List.prefix_rfl, List.prefix_rfl,
      bare.symm ▸ List.prefix_rfl, rfl⟩
  exact ⟨hl.of_same_plans g hl.owners_nodup hl.owners_plain rfl rfl bare, g, hs h g⟩

/-! ## One node -/

variable {i : Nat} {e : OutlineEntry}

/-- The plan of a node in detach mode. -/
theorem detachPlan_gives (ho : o.Sound) (hi : o[i]? = some e) {S : Layout → Prop} (hs : Stable S) :
    Gives o n S (detachPlan e) fun plan l => S l ∧ ∀ p ∈ plan, l.Detaches e p := by
  unfold detachPlan
  split
  · next parent position hd hp hs' =>
    obtain ⟨-, above, ha, hc⟩ := ho.parent hi hp
    have plain : o.Plain parent := ⟨above, ha, by
      simp_all [NodeHead.isComponent, NodeHead.isRepeated]⟩
    refine (tracker_gives hs parent).bind fun key => ?_
    refine (slot_gives (fun h g => ⟨hs h.1 g, h.2.1.grows g, h.2.2.grows g⟩) plain).bind
      fun slot => ?_
    have stable : Stable fun l =>
        (S l ∧ l.Plans key (.tracker []) ∧ l.Tracks parent key) ∧ l.Owns slot parent :=
      fun h g => ⟨⟨hs h.1.1 g, h.1.2.1.grows g, h.1.2.2.grows g⟩, h.2.grows g⟩
    have done : Gives o n
        (fun l => (S l ∧ l.Plans key (.tracker []) ∧ l.Tracks parent key) ∧ l.Owns slot parent)
        (return some ⟨position, key, slot⟩)
        fun plan l => S l ∧ ∀ p ∈ plan, l.Detaches e p := by
      refine .pure fun l h => ⟨h.1.1, fun p hm => ?_⟩
      obtain rfl := Option.mem_some_iff.mp hm
      exact ⟨hd, hs', ⟨parent, hp, h.2, h.1.2.2⟩, h.1.2.1⟩
    split
    · exact (startDetached_gives stable key position).bind fun _ => done
    · exact done
  · exact .pure fun l h => ⟨h, by simp⟩

/-- The shield of a node. -/
theorem shield_gives (ho : o.Sound) (hi : o[i]? = some e) {S : Layout → Prop} (hs : Stable S) :
    Gives o n S (shield e) fun s l => S l ∧ s.isSome = e.node.head.visibility.isSome ∧
      ∀ s' ∈ s, ∀ v ∈ e.node.head.visibility, l.Shields e v s' := by
  unfold shield
  split
  · next v hv =>
    refine (intern_gives hs v.query).bind fun query => ?_
    refine (detachPlan_gives ho hi (S := fun l => S l ∧ l.Looks query v.query)
      fun h g => ⟨hs h.1 g, h.2.grows g⟩).bind fun detach => ?_
    refine .pure fun l h => ⟨h.1.1, by rw [hv]; rfl, fun s hs' v' hv' => ?_⟩
    obtain rfl := Option.mem_some_iff.mp hs'
    obtain rfl : v = v' := by simpa [hv] using hv'
    exact ⟨h.1.2, rfl, h.2⟩
  · next hv =>
    exact .pure fun l h => ⟨h, by rw [hv]; rfl, by simp⟩

/-- What holds of a watch still holds when the layout has grown. -/
theorem stable_watches (w : Watch) : Stable fun l => l.Watches i e w := fun h g => h.grows g

/-- The watch directives of an entry keep its watch one of the entry. -/
theorem addWatches_gives {directives : List WatchDirective}
    (hd : ∀ d ∈ directives, d ∈ e.node.head.watches) (w : Watch) :
    Gives o n (fun l => l.Watches i e w) (addWatches directives w) fun w l => l.Watches i e w := by
  refine .foldlM (Q := fun w l => l.Watches i e w) (fun w d hm => ?_) w
  refine (intern_gives (stable_watches w) d.expr).bind fun key => ?_
  exact .pure fun l h => h.1.add (.watch (hd d hm) h.2)

/-- The bind directives of an entry keep its watch one of the entry. -/
theorem addBinds_gives {directives : List BindDirective}
    (hd : ∀ d ∈ directives, d ∈ e.node.head.binds) (w : Watch) :
    Gives o n (fun l => l.Watches i e w) (addBinds directives w) fun w l => l.Watches i e w := by
  refine .foldlM (Q := fun w l => l.Watches i e w) (fun w d hm => ?_) w
  refine (intern_gives (stable_watches w) (.state d.path)).bind fun key => ?_
  have shown : ∀ l : Layout, l.Watches i e w ∧ l.Looks key (.state d.path) →
      l.Watches i e (w.add (.lookup key) (.setAttribute d.attributeName)) :=
    fun l h => h.1.add (.bind (hd d hm) h.2)
  exact (listen_gives (fun h g => ⟨h.1.grows g, h.2.grows g⟩) _ _ _).bind
    fun _ => .pure fun l h => shown l h

/-- The toggle directives of an entry keep its watch one of the entry. -/
theorem addToggles_gives {directives : List ToggleDirective}
    (hd : ∀ d ∈ directives, d ∈ e.node.head.toggles) (w : Watch) :
    Gives o n (fun l => l.Watches i e w) (addToggles e.node.head.targets directives w)
      fun w l => l.Watches i e w := by
  refine .foldlM (Q := fun w l => l.Watches i e w) (fun w d hm => ?_) w
  refine (intern_gives (stable_watches w) d.expr).bind fun key => ?_
  exact .pure fun l h => h.1.add (.toggle (hd d hm) h.2)

/-- From a regular layout before entry `n` in which `P` holds, the step makes a regular layout after
it, and `Q` holds of its result there. -/
def Completes (o : Outline) (n : Nat) (P : Layout → Prop) (x : Lay α) (Q : α → Layout → Prop) :
    Prop :=
  ∀ l, l.Regular o n → P l →
    (x.run l).2.Regular o (n + 1) ∧ l.Grows (x.run l).2 ∧ Q (x.run l).1 (x.run l).2

/-- A step before the last may give what the last goes on with. -/
theorem Gives.completes {P : Layout → Prop} {x : Lay α} {Q : α → Layout → Prop}
    {f : α → Lay β} {R : β → Layout → Prop} (hx : Gives o n P x Q)
    (hf : ∀ a, Completes o n (Q a) (f a) R) : Completes o n P (x >>= f) R := by
  intro l hl hp
  obtain ⟨h₁, g₁, q⟩ := hx l hl hp
  obtain ⟨h₂, g₂, r⟩ := hf _ _ h₁ q
  exact ⟨h₂, g₁.trans g₂, r⟩

/-- A watch at its node works at the slot of that node, unless the node is repeated. -/
theorem owns_of_watches {l : Layout} {w : Watch} (h : l.Watches i e w)
    (hr : e.node.head.isRepeated = false) : l.Owns w.slot i := by
  have := h.slot
  rwa [Layout.workplace, if_neg (by simp [hr])] at this

/-- Planning a child component completes the entry. -/
theorem addChild_completes (hi : o[i]? = some e) (hc : e.node.head.isComponent = true)
    (hr : e.node.head.isRepeated = false) (source : ChildSource) (props : Expr) (w : Watch) :
    Completes o i (fun l => l.Watches i e w) (addChild source props e w)
      fun w l => l.Watches i e w := by
  refine (intern_gives (stable_watches w) props).completes fun key l hl h => ?_
  have ho := owns_of_watches h.1 hr
  have g : l.Grows { l with stash := l.stash ++ [.child w.slot source e.node.head.canDetach] } :=
    ⟨List.prefix_rfl, .refl _, List.prefix_rfl, List.prefix_rfl, by simp, rfl⟩
  have planned : Layout.Plans
      { l with stash := l.stash ++ [.child w.slot source e.node.head.canDetach] }
      l.stash.length (.child w.slot source e.node.head.canDetach) :=
    (Layout.plans_of_append rfl).mpr (Or.inr ⟨rfl, rfl⟩)
  exact ⟨hl.next_child hi hc hr ho source, g,
    (h.1.grows g).add (.child planned (ho.grows g) (h.2.grows g))⟩

/-- Planning a repeater completes the entry. -/
theorem addRepeat_completes (options : CompileSettings) (hi : o[i]? = some e)
    (hr : e.node.head.isRepeated = true) (definition : DefinitionId) (d : RepeatDirective)
    (w : Watch) :
    Completes o i (fun l => l.Watches i e w) (addRepeat options i definition d w)
      fun w l => l.Watches i e w := by
  refine (intern_gives (stable_watches w) d.items).completes fun items l hl h => ?_
  have grown (p : StashPlan) : l.Grows
      { l with stash := l.stash ++ [p], repeats := l.repeats ++ [(i, l.stash.length)] } :=
    ⟨List.prefix_rfl, .refl _, List.prefix_rfl, List.prefix_append _ _, by simp, rfl⟩
  have planned (p : StashPlan) (hb : p.bare = p) : Layout.Plans
      { l with stash := l.stash ++ [p], repeats := l.repeats ++ [(i, l.stash.length)] }
      l.stash.length p :=
    (Layout.plans_of_append rfl).mpr (Or.inr ⟨rfl, hb.symm⟩)
  cases hk : d.key with
  | none =>
    have g := grown (.sequential definition (d.share.getD options.sharePools) [])
    refine ⟨hl.next_repeat hi hr rfl rfl, g, (h.1.grows g).add ?_⟩
    exact .sequence (planned _ rfl) (by simp [Layout.Repeats]) (h.2.grows g)
  | some path =>
    have g := grown (.keyed definition path (d.share.getD options.sharePools) [])
    refine ⟨hl.next_repeat hi hr rfl rfl, g, (h.1.grows g).add ?_⟩
    exact .keyed (planned _ rfl) (by simp [Layout.Repeats]) (h.2.grows g)

/-- Whatever the component of an entry is, planning it completes the entry. -/
theorem addComponent_completes (options : CompileSettings) (hi : o[i]? = some e) (w : Watch) :
    Completes o i (fun l => l.Watches i e w) (addComponent options i e w)
      fun w l => l.Watches i e w := by
  unfold addComponent
  split
  · next n _ hn =>
    have hc : e.node.head.isComponent = true := by simp [NodeHead.isComponent, hn]
    split
    · next hd =>
      exact addChild_completes hi hc (by simp [NodeHead.isRepeated, hn, hd]) _ _ w
    · next d hd =>
      exact addRepeat_completes options hi (by simp [NodeHead.isRepeated, hn, hd]) _ d w
  · next s hn hs =>
    exact addChild_completes hi (by simp [NodeHead.isComponent, hs])
      (by simp [NodeHead.isRepeated, hn]) _ _ w
  · next hn hs =>
    intro l hl h
    exact ⟨hl.next hi (by simp [NodeHead.isComponent, hn, hs]), .refl l, h⟩

/-- The watch of a node, before it is known whether it has anything to do. -/
def watch (options : CompileSettings) (index : Nat) (e : OutlineEntry) : Lay Watch := do
  let head := e.node.head
  let slot ← slot (Layout.workplace index e)
  head.reference.forM fun name => modify fun l => { l with refs := l.refs ++ [(name, slot)] }
  head.listeners.forM fun d => listen slot d.event d.handler
  let shield ← shield e
  let w ← addWatches head.watches ⟨slot, e.address, [], shield⟩
  let w ← addBinds head.binds w
  let w ← addToggles head.targets head.toggles w
  addComponent options index e w

/-- The watch of a node does what its directives say. -/
theorem watch_completes (ho : o.Sound) (options : CompileSettings) (hi : o[i]? = some e) :
    Completes o i (fun _ => True) (watch options i e) fun w l => l.Watches i e w := by
  have plain : o.Plain (Layout.workplace i e) := by
    unfold Layout.workplace
    split
    · next hr =>
      obtain ⟨parent, hp⟩ := Option.isSome_iff_exists.mp (ho.repeated hi hr).1
      obtain ⟨-, above, ha, hc⟩ := ho.parent hi hp
      rw [hp, Option.getD_some]
      exact ⟨above, ha, by simp_all [NodeHead.isComponent, NodeHead.isRepeated]⟩
    · next hr => exact ⟨e, hi, by simpa using hr⟩
  refine (slot_gives (fun _ _ => trivial) plain).completes fun slot => ?_
  have stable : Stable fun l => True ∧ l.Owns slot (Layout.workplace i e) :=
    fun h g => ⟨trivial, h.2.grows g⟩
  refine Gives.completes (Q := fun _ l => True ∧ l.Owns slot (Layout.workplace i e)) ?_ fun _ => ?_
  · cases e.node.head.reference with
    | none => exact .pure fun _ h => h
    | some name => exact refs_gives stable name slot
  refine (Gives.forM fun d _ => listen_gives stable slot d.event d.handler).completes fun _ => ?_
  refine (shield_gives ho hi stable).completes fun shield => ?_
  have made (l : Layout) (h : (True ∧ l.Owns slot (Layout.workplace i e)) ∧
      shield.isSome = e.node.head.visibility.isSome ∧
      ∀ s ∈ shield, ∀ v ∈ e.node.head.visibility, l.Shields e v s) :
      l.Watches i e ⟨slot, e.address, [], shield⟩ :=
    ⟨h.1.2, rfl, h.2.1, h.2.2, by simp⟩
  have watched := addWatches_gives (o := o) (n := i) (i := i) (e := e) (fun _ h => h)
    ⟨slot, e.address, [], shield⟩
  refine Gives.completes (Q := fun w l => l.Watches i e w)
    (fun l hl h => watched l hl (made l h)) fun w => ?_
  refine (addBinds_gives (fun _ h => h) w).completes fun w => ?_
  refine (addToggles_gives (fun _ h => h) w).completes fun w => ?_
  exact addComponent_completes options hi w

end Lay

end ComponentView
