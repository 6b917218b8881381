import ComponentView.Proofs.Layout.Steps
import Mathlib.Data.List.Forall2

/-! # The walk over an outline

Entry by entry the walk makes at most one watch each, in the order of the entries
(`Layout.Covers`). After it the repeaters get their anchors: every later sibling is one, by its slot
or by its repeater (`Layout.Anchored`). `Layout.ofOutline` is what the walk ends with, and the
template of a component is read off from it. -/

namespace ComponentView

/-! ## Entry by entry -/

namespace Layout

/-- The layout after the entries before position `n`, with their watches. -/
structure Covers (o : Outline) (n : Nat) (l : Layout) : Prop where
  regular : l.Regular o n
  watches : ∀ w ∈ l.watches, ∃ i < n, ∃ e, o[i]? = some e ∧ l.Watches i e w
  addresses : List.Sublist (l.watches.map (·.address)) ((o.take n).map (·.address))

end Layout

namespace Lay

variable {o : Outline} {i : Nat} {e : OutlineEntry}

/-- Takes up a watch that has something to do. -/
def take (w : Watch) : Lay Unit :=
  if !w.callbacks.isEmpty || w.shield.isSome then
    modify fun l => { l with watches := l.watches ++ [w] }
  else return

/-- An entry that takes no slot is passed over, and the watch of another is taken. -/
theorem entry_eq (options : CompileSettings) (index : Nat) (e : OutlineEntry) :
    entry options index e =
      if e.node.takesSlot then watch options index e >>= take else return := by
  simp only [entry, watch, Layout.workplace, bind_assoc]
  rfl

/-- A node with any feature but the name of a part is kept hold of. -/
theorem takesSlot_of_has {n : Node} {f : Feature} (hf : n.has f = true) (hp : f ≠ .part) :
    n.takesSlot = true := by
  rw [Node.takesSlot, List.any_eq_true]
  exact ⟨f, List.mem_filter.mpr ⟨by cases f <;> simp [Feature.all], hf⟩, by simpa using hp⟩

/-- A node with a child component is kept hold of. -/
theorem takesSlot_of_isComponent {n : Node} (h : n.head.isComponent = true) :
    n.takesSlot = true := by
  rw [NodeHead.isComponent, Bool.or_eq_true] at h
  rcases h with h | h
  · cases hr : n.head.isRepeated with
    | true => exact takesSlot_of_has (f := .repeated) hr (by simp)
    | false => exact takesSlot_of_has (f := .nested) (by simp [Node.has, h, hr]) (by simp)
  · exact takesSlot_of_has (f := .stub) h (by simp)

/-- Laying out one entry covers it. -/
theorem entry_covers (ho : o.Sound) (options : CompileSettings) (hi : o[i]? = some e)
    {l : Layout} (hl : l.Covers o i) : ((entry options i e).run l).2.Covers o (i + 1) := by
  have taken : (o.take (i + 1)).map (·.address)
      = (o.take i).map (·.address) ++ [e.address] := by
    rw [List.take_add_one, hi, Option.toList_some, List.map_append, List.map_singleton]
  rw [entry_eq]
  split
  · -- The watch is made in `later`, which has the watches of `l`.
    obtain ⟨regular, grows, watched⟩ := watch_completes ho options hi l hl.regular trivial
    rw [StateT.run_bind]
    generalize (watch options i e).run l = made at regular grows watched ⊢
    obtain ⟨w, later⟩ := made
    have old : ∀ w ∈ later.watches, ∃ j < i + 1, ∃ e, o[j]? = some e ∧ later.Watches j e w := by
      intro w hw
      obtain ⟨j, hj, e, he, h⟩ := hl.watches w (by rwa [grows.watches] at hw)
      exact ⟨j, by omega, e, he, h.grows grows⟩
    show ((take w).run later).2.Covers o (i + 1)
    unfold take
    split
    · refine ⟨?_, ?_, ?_⟩
      · exact { regular with }
      · intro v hv
        rcases List.mem_append.mp hv with hv | hv
        · obtain ⟨j, hj, e, he, h⟩ := old v hv
          exact ⟨j, hj, e, he, h.beside _⟩
        · obtain rfl := List.mem_singleton.mp hv
          exact ⟨i, by omega, e, hi, watched.beside _⟩
      · show List.Sublist ((later.watches ++ [w]).map (·.address)) _
        rw [List.map_append, taken, grows.watches, List.map_singleton, watched.address]
        exact hl.addresses.append_right _
    · refine ⟨regular, old, ?_⟩
      show List.Sublist (later.watches.map (·.address)) _
      rw [grows.watches, taken]
      exact hl.addresses.trans (List.sublist_append_left _ _)
  · next hn =>
    refine ⟨hl.regular.next hi ?_, ?_, ?_⟩
    · exact Bool.eq_false_iff.mpr fun hc => hn (takesSlot_of_isComponent hc)
    · intro w hw
      obtain ⟨j, hj, rest⟩ := hl.watches w hw
      exact ⟨j, by omega, rest⟩
    · rw [taken]
      exact hl.addresses.trans (List.sublist_append_left _ _)

/-! ## From entry to entry -/

/-- A loop of the walk is a fold over layouts. -/
theorem run_forIn {γ : Type} (cs : List γ) {g : γ → PUnit → Lay (ForInStep PUnit)}
    (next : γ → Layout → Layout) (h : ∀ c u l, (g c u).run l = (.yield PUnit.unit, next c l))
    (l : Layout) :
    (forIn cs PUnit.unit g : Lay PUnit).run l = (PUnit.unit, cs.foldl (fun l c => next c l) l) := by
  induction cs generalizing l with
  | nil => rfl
  | cons c cs ih =>
    rw [List.forIn_cons, StateT.run_bind, h]
    exact ih (next c l)

/-- The layout after all entries. -/
def walked (options : CompileSettings) (o : Outline) : Layout :=
  o.zipIdx.foldl (fun l x => ((entry options x.2 x.1).run l).2) {}

/-- What holds before the first entry and goes from each entry to the next holds after the walk. -/
theorem walked_induction {P : Nat → Layout → Prop} (options : CompileSettings) (o : Outline)
    (first : P 0 {}) (next : ∀ {i : Nat} {e : OutlineEntry} {l : Layout}, o[i]? = some e → P i l →
      P (i + 1) ((entry options i e).run l).2) :
    P o.length (walked options o) := by
  -- The entries from `n` on take a layout after those before to one after all.
  have step (n : Nat) (rest : List OutlineEntry) (hr : o.drop n = rest) {l : Layout} (hl : P n l) :
      P (n + rest.length)
        ((rest.zipIdx n).foldl (fun l x => ((entry options x.2 x.1).run l).2) l) := by
    induction rest generalizing n l with
    | nil => simpa using hl
    | cons e rest ih =>
      have hi : o[n]? = some e := by rw [← List.head?_drop, hr]; rfl
      have hr' : o.drop (n + 1) = rest := by rw [← List.tail_drop, hr]; rfl
      have := ih (n + 1) hr' (next hi hl)
      simpa [Nat.add_assoc, Nat.add_comm 1] using this
  simpa [walked] using step 0 o List.drop_zero first

/-- The walk covers the outline. -/
theorem walked_covers (ho : o.Sound) (options : CompileSettings) :
    (walked options o).Covers o o.length :=
  walked_induction options o ⟨.empty o, by simp, by simp⟩ fun hi hl => entry_covers ho options hi hl

end Lay

/-! ## Anchors -/

/-- The anchors of a repeater. -/
def StashPlan.anchors : StashPlan → List Anchor
  | sequential _ _ anchors | keyed _ _ _ anchors => anchors
  | _ => []

/-- A repeater that is anchored has the anchors that were found. -/
theorem StashPlan.anchors_anchored {p : StashPlan} (h : p.isRepeater = true)
    (found : List Anchor) : (p.anchored found).anchors = found := by
  cases p <;> simp_all [isRepeater, anchored, anchors]

namespace Layout

/-- An anchor stands for an entry: by its slot, or, if the entry is repeated, by its repeater. -/
def Marks (o : Outline) (l : Layout) (entry : Nat) : Anchor → Prop
  | .slot slot => o.Plain entry ∧ l.Owns slot entry
  | .repeater key => l.Repeats entry key

/-- An anchor still marks its entry when the layout grows. -/
theorem Marks.grows {o : Outline} {l later : Layout} {entry : Nat} {a : Anchor}
    (h : l.Marks o entry a) (g : Grows l later) : later.Marks o entry a := by
  cases a with
  | slot slot => exact ⟨h.1, h.2.grows g⟩
  | repeater key => exact Repeats.grows h g

/-- The anchors of the repeater of an entry are its later siblings, in order. -/
def Anchored (o : Outline) (l : Layout) (i : Nat) (key : StashIndex) : Prop :=
  ∃ p, l.stash[key]? = some p ∧ ∀ e parent, o[i]? = some e → e.parent = some parent →
    List.Forall₂ (l.Marks o) ((o.childrenOf parent).filter (i < ·)) p.anchors

end Layout

namespace Lay

variable {o : Outline} {l : Layout}

/-- Looking up the anchors of a repeat gives slots to later siblings and changes nothing else. -/
theorem laterSiblings_run (hl : l.Regular o o.length) (i : Nat) :
    ∃ owners anchors, (laterSiblings o i).run l = (anchors, { l with owners }) ∧
      l.Grows { l with owners } ∧ Layout.Regular o o.length { l with owners } ∧
      ∀ e parent, o[i]? = some e → e.parent = some parent →
        List.Forall₂ (Layout.Marks o { l with owners }) ((o.childrenOf parent).filter (i < ·))
          anchors := by
  unfold laterSiblings
  split
  · next h =>
    refine ⟨l.owners, [], rfl, .refl l, hl, fun e parent he hp => ?_⟩
    simp [he, hp] at h
  · next parent h =>
    -- The siblings are entries of the outline, wherever the list of them begins.
    have known : ∀ s ∈ (o.childrenOf parent).filter (i < ·), ∃ e, o[s]? = some e := by
      intro s hs
      have hlt : s < o.length := by
        have := (List.mem_filter.mp (List.mem_filter.mp hs).1).1
        simpa using this
      exact ⟨o[s], List.getElem?_eq_getElem hlt⟩
    have found (siblings : List Nat) (hs : ∀ s ∈ siblings, ∃ e, o[s]? = some e) {l : Layout}
        (hl : l.Regular o o.length) :
        ∃ owners anchors, (siblings.filterMapM fun sibling => do
            if o[sibling]?.any (·.node.head.isRepeated) then
              return ((← get).repeats.lookup sibling).map .repeater
            else
              return some (.slot (← slot sibling)) : Lay (List Anchor)).run l
            = (anchors, { l with owners }) ∧
          l.Grows { l with owners } ∧ Layout.Regular o o.length { l with owners } ∧
          List.Forall₂ (Layout.Marks o { l with owners }) siblings anchors := by
      induction siblings generalizing l with
      | nil => exact ⟨l.owners, [], rfl, .refl l, hl, .nil⟩
      | cons s rest ih =>
        rw [List.forall_mem_cons] at hs
        obtain ⟨⟨e, he⟩, hs⟩ := hs
        rw [List.filterMapM_cons]
        cases hr : e.node.head.isRepeated with
        | true =>
          obtain ⟨key, hk⟩ := hl.repeats_total (List.getElem?_eq_some_iff.mp he).1 he hr
          obtain ⟨key, hk⟩ : ∃ key, l.repeats.lookup s = some key := by
            rw [← Option.isSome_iff_exists, List.lookup_isSome_iff]
            exact ⟨(s, key), hk, by simp⟩
          obtain ⟨before, after, hm, -⟩ := List.lookup_eq_some_iff.mp hk
          obtain ⟨owners, anchors, run, g, regular, marks⟩ := ih hs hl
          refine ⟨owners, .repeater key :: anchors, ?_, g, regular, .cons ?_ marks⟩
          · simp only [he, hr, Option.any_some, if_true, bind_assoc, pure_bind, StateT.run_bind,
              StateT.run_get, hk, Option.map_some]
            rw [run]
            rfl
          · simp [Layout.Marks, Layout.Repeats, hm]
        | false =>
          have gives := slot_gives (o := o) (n := o.length) (S := fun _ => True)
            (fun _ _ => trivial) ⟨e, he, hr⟩ l hl trivial
          obtain ⟨owners₁, run₁⟩ : ∃ owners k, (slot s).run l = (k, { l with owners }) := by
            simp only [StateT.run, slot]
            split
            · exact ⟨_, _, rfl⟩
            · exact ⟨_, _, rfl⟩
          obtain ⟨k, run₁⟩ := run₁
          rw [run₁] at gives
          obtain ⟨regular₁, g₁, -, owns⟩ := gives
          obtain ⟨owners, anchors, run, g, regular, marks⟩ := ih hs regular₁
          refine ⟨owners, .slot k :: anchors, ?_, g₁.trans g, regular, .cons ?_ marks⟩
          · simp only [he, hr, Option.any_some, Bool.false_eq_true, if_false, bind_assoc,
              pure_bind, StateT.run_bind, run₁]
            exact congrArg (fun r => (Anchor.slot k :: r.1, r.2)) run
          · exact ⟨⟨e, he, hr⟩, owns.grows g⟩
    obtain ⟨owners, anchors, run, g, regular, marks⟩ := found _ known hl
    refine ⟨owners, anchors, run, g, regular, fun e p he hp => ?_⟩
    obtain rfl : parent = p := by simpa [he, hp] using h.symm
    exact marks

/-- A repeater gets its anchors. -/
def anchor (o : Outline) (i : Nat) (key : StashIndex) (l : Layout) : Layout :=
  let found := (laterSiblings o i).run l
  { found.2 with stash := found.2.stash.modify key (StashPlan.anchored found.1) }

/-- The repeaters get their anchors one after another. -/
theorem anchors_run (o : Outline) (l : Layout) :
    ((anchors o).run l).2 = l.repeats.foldl (fun l x => anchor o x.1 x.2 l) l := by
  have h := run_forIn l.repeats (fun x l => anchor o x.1 x.2 l)
    (g := fun x _ => do
      let found ← laterSiblings o x.1
      modify fun l => { l with stash := l.stash.modify x.2 (StashPlan.anchored found) }
      return .yield PUnit.unit) (fun _ _ _ => rfl) l
  exact congrArg Prod.snd h

/-- Giving a repeater its anchors leaves the other repeaters theirs. -/
theorem anchor_covers {i : Nat} {key : StashIndex} (hl : l.Regular o o.length)
    (hk : l.Repeats i key) :
    Layout.Regular o o.length (anchor o i key l) ∧ l.Grows (anchor o i key l) ∧
      (anchor o i key l).repeats = l.repeats ∧ Layout.Anchored o (anchor o i key l) i key ∧
      ∀ i' key', key' ≠ key → l.Anchored o i' key' →
        Layout.Anchored o (anchor o i key l) i' key' := by
  obtain ⟨owners, found, run, g, regular, marks⟩ := laterSiblings_run hl i
  have anchored : anchor o i key l =
      { l with owners, stash := l.stash.modify key (StashPlan.anchored found) } := by
    unfold anchor
    rw [run]
  rw [anchored]
  have bare : (l.stash.modify key (StashPlan.anchored found)).map StashPlan.bare
      = l.stash.map StashPlan.bare := bare_modify fun p => StashPlan.bare_anchored found p
  have g' : Layout.Grows { l with owners }
      { l with owners, stash := l.stash.modify key (StashPlan.anchored found) } :=
    ⟨List.prefix_rfl, .refl _, List.prefix_rfl, List.prefix_rfl,
      bare.symm ▸ List.prefix_rfl, rfl⟩
  refine ⟨regular.of_same_plans g' regular.owners_nodup regular.owners_plain rfl rfl bare,
    g.trans g', rfl, ?_, ?_⟩
  · obtain ⟨-, -, -, -, p, hp, hr⟩ := hl.repeats hk
    rw [Layout.Plans, List.getElem?_map, Option.map_eq_some_iff] at hp
    obtain ⟨q, hq, rfl⟩ := hp
    refine ⟨q.anchored found, by simp [hq], fun e parent he hp => ?_⟩
    rw [StashPlan.anchors_anchored (by cases q <;> simp_all [StashPlan.isRepeater, StashPlan.bare])]
    exact (marks e parent he hp).imp fun _ _ h => h.grows g'
  · rintro i' key' hne ⟨p, hp, ha⟩
    refine ⟨p, by simp [hne.symm, hp], fun e parent he hp => ?_⟩
    exact (ha e parent he hp).imp fun _ _ h => h.grows (g.trans g')

/-- The layout with the anchors of its repeaters. -/
def finished (options : CompileSettings) (o : Outline) : Layout :=
  ((anchors o).run (walked options o)).2

/-- In the end the layout is regular, and every repeater has its anchors. -/
theorem finished_anchored (ho : o.Sound) (options : CompileSettings) :
    Layout.Regular o o.length (finished options o) ∧
      (walked options o).Grows (finished options o) ∧
      ∀ i key, (finished options o).Repeats i key →
        Layout.Anchored o (finished options o) i key := by
  have hl := (walked_covers ho options).regular
  -- The repeaters in `done` have their anchors, those in `rest` get them.
  have step (rest done : List (Nat × StashIndex)) {l : Layout} (hl : l.Regular o o.length)
      (hr : l.repeats = done ++ rest) (hd : ∀ x ∈ done, l.Anchored o x.1 x.2) :
      let later := rest.foldl (fun l x => anchor o x.1 x.2 l) l
      Layout.Regular o o.length later ∧ l.Grows later ∧ later.repeats = l.repeats ∧
        ∀ x ∈ l.repeats, Layout.Anchored o later x.1 x.2 := by
    induction rest generalizing done l with
    | nil =>
      rw [List.append_nil] at hr
      exact ⟨hl, .refl l, rfl, hr ▸ hd⟩
    | cons x rest ih =>
      obtain ⟨i, key⟩ := x
      obtain ⟨regular, g, same, own, others⟩ := anchor_covers hl
        (show (i, key) ∈ l.repeats by rw [hr]; simp)
      have fresh : ∀ x ∈ done, x.2 ≠ key := by
        intro x hx he
        have := hl.repeats_nodup.2
        rw [hr, List.map_append, List.nodup_append] at this
        exact this.2.2 x.2 (List.mem_map_of_mem hx) key (by simp) he
      have := ih (done ++ [(i, key)]) regular (by rw [same, hr]; simp) (by
        intro y hy
        rcases List.mem_append.mp hy with hy | hy
        · exact others y.1 y.2 (fresh y hy) (hd y hy)
        · obtain rfl := List.mem_singleton.mp hy
          exact own)
      rw [same] at this
      exact ⟨this.1, g.trans this.2.1, this.2.2⟩
  rw [finished, anchors_run]
  obtain ⟨regular, g, same, all⟩ := step _ [] hl rfl (by simp)
  exact ⟨regular, g, fun i key hk => all (i, key) (same ▸ hk)⟩

end Lay

/-! ## The template -/

namespace Template

/-- The template of a component is read off from the layout of its outline. -/
theorem ofOutline_eq (options : CompileSettings) (root : Node) (o : Outline) :
    ofOutline options root o =
      let l := Lay.finished options o
      { markup := root.markup
        watches := Watch.withSkips l.watches
        lookups := l.lookups
        slots := l.owners.map fun owner => (o[owner]?.map (·.place)).getD []
        stash := l.stash
        listeners := l.listeners
        refs := l.refs
        parts := o.filterMap fun e =>
          e.node.head.part.map fun name =>
            (name, Watch.partWindow (l.watches.map (·.address)) e.address)
        hideAttribute := options.hideAttribute } := by
  have walk := Lay.run_forIn o.zipIdx (fun x l => ((Lay.entry options x.2 x.1).run l).2)
    (g := fun x _ => do
      Lay.entry options x.2 x.1
      return .yield PUnit.unit) (fun _ _ _ => rfl) {}
  exact congrArg (fun r : PUnit × Layout =>
    let l := ((Lay.anchors o).run r.2).2
    ({ markup := root.markup
       watches := Watch.withSkips l.watches
       lookups := l.lookups
       slots := l.owners.map fun owner => (o[owner]?.map (·.place)).getD []
       stash := l.stash
       listeners := l.listeners
       refs := l.refs
       parts := o.filterMap fun e =>
        e.node.head.part.map fun name =>
          (name, Watch.partWindow (l.watches.map (·.address)) e.address)
       hideAttribute := options.hideAttribute } : Template)) walk

end Template

end ComponentView
