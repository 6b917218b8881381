import ComponentView.Proofs.Loss

/-! # Slots stay bound

The slots of an instance are bound to nodes when it is built, and to the same nodes for as long as it is
not destroyed. In a library in which watches only write to their nodes, and write texts only where there
is nothing else, no upkeep releases any of these nodes: they are live, they are what they were, and no
slot of an instance that has nothing to do with this one is bound to any of them
(`Session.bound_of_upkept`). -/

namespace ComponentView

/-! ## Whose nodes they are -/

namespace World

variable {L : Reserve} {δ δ' : Deeds} {busy lost hand : List InstanceId} {w later : World}
  {i j : InstanceId} {inst inst' : Instance}

/-- Two instances that have a node in common are the same, or one holds the other. -/
theorem Tidy.holds_of_common (h : w.Tidy L δ [] lost hand) (hi : δ.alive i) (hj : δ.alive j)
    (get : w.instances[i]? = some inst) (get' : w.instances[j]? = some inst') {x : NodeId}
    (hx : x ∈ inst.elements) (hx' : x ∈ inst'.elements) :
    j = i ∨ j ∈ inst.held ∨ i ∈ inst'.held := by
  -- A node of an instance of its own is the root of no other.
  have own {i k : InstanceId} {inst : Instance} (hi : δ.alive i) (get : w.instances[i]? = some inst)
      (hk : δ.alive k) {n : Nat} (hn : δ.node inst.root n = some (w.root k)) : k = i := by
    have same := (h.valid.inj hn (h.node_root hk)).1
    exact h.apart hk hi (by rw [root_of_get get, same])
  have free {k : InstanceId} : k ∉ ([] : List InstanceId) := List.not_mem_nil
  obtain ⟨n, hn⟩ | ⟨k, hk, alive, rfl⟩ := h.whose hi free get hx <;>
    obtain ⟨n', hn'⟩ | ⟨k', hk', alive', hroot⟩ := h.whose hj free get' hx'
  · have same := (h.valid.inj hn hn').1
    exact Or.inl (h.apart hj hi (by rw [root_of_get get, root_of_get get', same]))
  · exact Or.inr (Or.inr (own hi get alive' (hroot ▸ hn) ▸ hk'))
  · exact Or.inr (Or.inl (own hj get' alive hn' ▸ hk))
  · -- Nobody is held twice.
    obtain rfl := h.apart alive' alive hroot
    have atRest {j : InstanceId} : j ∉ w.busy := h.orderly.busy_eq ▸ free
    have placed {j : InstanceId} {inst : Instance} (get : w.instances[j]? = some inst)
        (hk : k' ∈ inst.held) : k' ∈ w.placed (lost ++ hand) (.stash j) :=
      (mem_placed_stash atRest get).symm ▸ hk
    exact Or.inl (Place.stash.inj (h.orderly.spread.apart (placed get' hk') (placed get hk)))

end World

namespace World

variable {L : Reserve} {δ δ' : Deeds} {lost lost' hand hand' : List InstanceId} {w later : World}
  {i : InstanceId} {inst inst' : Instance}

/-- A node of an instance is of the kind that its component says. -/
theorem Tidy.kind_of_node (h : w.Tidy L δ [] lost hand) (hi : δ.alive i)
    (get : w.instances[i]? = some inst) {n : Nat} {x : NodeId} (own : δ.node inst.root n = some x) :
    (w.document.node x).kind =
      (L.plan inst.definition).outline[n]?.map fun e => e.node.head.docKind := by
  obtain ⟨e, he, hk⟩ := h.valid.kind own
  rw [Deeds.outline, h.definition_of_get hi get] at he
  rw [he, hk, Option.map_some]

/-- What a slot of an instance is bound to: a node of the instance, or the root of a nested child. -/
theorem Tidy.slot_cases (h : w.Tidy L δ [] lost hand) (hi : δ.alive i)
    (get : w.instances[i]? = some inst) {slot : Nat} {x : NodeId}
    (hx : inst.elements[slot]? = some x) {n : Nat}
    (owns : (L.plan inst.definition).layout.Owns slot n) :
    ((L.plan inst.definition).layout.keyOf n = none ∧ δ.node inst.root n = some x) ∨
      ∃ key k, (L.plan inst.definition).layout.keyOf n = some key ∧
        inst.stash[key]? = some (.child k) ∧ δ.alive k ∧ w.root k = x := by
  obtain ⟨shows, held⟩ := h.shows hi List.not_mem_nil get
  obtain ⟨d, hd, -⟩ := (h.orderly.sound get List.not_mem_nil).shaped
  obtain ⟨y, hy, hcell⟩ := shows.slots owns
  obtain rfl : y = x := Option.some.inj (hy.symm.trans hx)
  cases hk : (L.plan inst.definition).layout.keyOf n with
  | none =>
    rw [Blueprint.cell_of_none hk, Option.toList_eq_singleton_iff] at hcell
    exact Or.inl ⟨rfl, hcell⟩
  | some key =>
    obtain ⟨s, source, detached, plan⟩ := (h.draws hd).child_of_owns owns hk
    obtain ⟨item, hs⟩ := shows.full (List.getElem?_eq_some_iff.mp plan).1
    have kind := (shows.plans hs plan).1
    cases item with
    | child k =>
      rw [Blueprint.cell_of_key hk hs] at hcell
      exact Or.inr ⟨key, k, rfl, hs, held k (StashItem.mem_held hs (List.mem_singleton_self k)),
        (List.cons.inj hcell).1⟩
    | _ => cases kind

/-- What the slots of an instance are bound to goes on being what it is. -/
theorem Tidy.kind_of_element {still : NodeId → Prop} {kept : List InstanceId}
    (h : w.Tidy L δ [] lost hand) (h' : later.Tidy (L.freeze w δ still) δ' [] lost' hand')
    (lasts : World.Lasts { w with kept } later)
    (hi : δ'.alive i) (get : w.instances[i]? = some inst) (get' : later.instances[i]? = some inst')
    {x : NodeId} (hx : x ∈ inst.elements) :
    (later.document.node x).kind = (w.document.node x).kind := by
  have atRest {j : InstanceId} : j ∉ w.busy := h.orderly.busy_eq ▸ List.not_mem_nil
  -- Whoever is there later and was there before was not destroyed before.
  have before {j : InstanceId} {a b : Instance} (hj : δ'.alive j) (ha : w.instances[j]? = some a)
      (hb : later.instances[j]? = some b) :
      δ.alive j ∧ b.make = a.make := by
    obtain ⟨b', hb', same⟩ := lasts.made ha atRest
    obtain rfl := Option.some.inj (hb.symm.trans hb')
    exact ⟨(h'.same hj (Array.getElem?_eq_some_iff.mp ha).1).1, same⟩
  obtain ⟨alive, make⟩ := before hi get get'
  have definition : inst'.definition = inst.definition := congrArg Instance.Make.definition make
  have elements : inst'.elements = inst.elements := congrArg Instance.Make.elements make
  have children : StashItem.seats inst'.stash = StashItem.seats inst.stash :=
    congrArg Instance.Make.children make
  obtain ⟨slot, hslot⟩ := List.getElem?_of_mem hx
  obtain ⟨n, owns⟩ : ∃ n, (L.plan inst.definition).layout.Owns slot n := by
    obtain ⟨d, hd, fits, -⟩ := (h.orderly.sound get List.not_mem_nil).shaped
    have lt := (List.getElem?_eq_some_iff.mp hslot).1
    rw [fits.elements, (h.draws hd).slots, List.length_map] at lt
    exact ⟨_, List.getElem?_eq_getElem lt⟩
  have plan : (L.freeze w δ still).plan inst'.definition = L.plan inst.definition :=
    congrArg L.plan definition
  have bound := h.slot_cases alive get hslot owns
  have bound' := h'.slot_cases hi get' (elements ▸ hslot) (plan ▸ owns)
  rw [plan] at bound'
  rcases bound with ⟨hk, own⟩ | ⟨key, k, hk, hs, alive, rfl⟩ <;>
    rcases bound' with ⟨hk', own'⟩ | ⟨key', k', hk', hs', alive', hroot⟩
  · rw [h.kind_of_node alive get own, h'.kind_of_node hi get' own', definition]
    rfl
  · cases hk.symm.trans hk'
  · cases hk.symm.trans hk'
  · obtain rfl := Option.some.inj (hk.symm.trans hk')
    -- The nested child is the one that it was.
    obtain rfl : k' = k := by
      have := congrArg (·[key]?) children
      simpa [StashItem.seats, hs, hs', StashItem.child?] using this
    obtain ⟨b, hb, own', -⟩ := h'.owner alive'
    obtain ⟨a, ha, own, -⟩ := h.owner alive
    obtain ⟨-, make⟩ := before alive' ha hb
    have definition : b.definition = a.definition := congrArg Instance.Make.definition make
    rw [← hroot, root_of_get hb, h'.kind_of_node alive' hb own', ← root_of_get hb, hroot,
      root_of_get ha, h.kind_of_node alive ha own, definition]
    rfl

end World

/-! ## Sessions -/

namespace Session

variable {s later : Session}

/-- In a library in which watches only write to their nodes, and write texts only where there is
nothing else, take an instance of a session that came about by upkeep. Whatever upkeep follows, handlers
that hear an event included, as long as the session has the instance, its slots are bound to the nodes
that they were bound to, and its nested children are the same; these nodes are live and of the kinds
that they were of, and a slot of another instance is bound to one of them only if one of the two
instances holds the other. -/
theorem bound_of_upkept {declarations : List Declaration} {library : Traced Library}
    (defined : Library.define declarations = .ok library)
    (roots : ∀ d ∈ declarations, d.Roots fun node => node.InPlace ∧ node.WritesLeaves)
    (ranked : library.value.Ranked) (before : (start library).Upkept s) (after : s.Upkept later)
    {i : InstanceId} {inst : Instance} (get : s.world.instances[i]? = some inst)
    (has : later.Has i) :
    ∃ inst', later.world.instances[i]? = some inst' ∧ inst'.make = inst.make ∧
      ∀ x ∈ inst.elements, later.world.document.isLive x = true ∧
        (later.world.document.node x).kind = (s.world.document.node x).kind ∧
        ∀ {j other}, later.Has j → later.world.instances[j]? = some other → x ∈ other.elements →
          j = i ∨ j ∈ inst'.held ∨ i ∈ other.held := by
  obtain ⟨plan, draws⟩ := Library.exists_blueprints defined roots
  have silent : library.value.Silent := Library.silent_of_inPlace defined roots
  obtain ⟨hand, library', named, δ, tidy⟩ := before.tidy (secluded_start library) ranked silent
    (tidy_start @draws)
  have frozen : s.Tidy ((Reserve.start library.value plan).freeze s.world δ fun _ => False) :=
    ⟨hand, library', named, δ, tidy.freeze _⟩
  have secluded := before.secluded silent
  obtain ⟨hand', -, named', δ', tidy'⟩ := after.tidy secluded ranked silent frozen
  have lasts := (after.lasts (library' ▸ silent)).world secluded.published later.world.kept
  have alive := has.alive named' tidy'
  have atRest : i ∉ s.world.busy := tidy.orderly.busy_eq ▸ List.not_mem_nil
  obtain ⟨inst', get', make⟩ := lasts.made get atRest
  have elements : inst'.elements = inst.elements := congrArg Instance.Make.elements make
  refine ⟨inst', get', make, fun x hx => ⟨?_, ?_, fun {j other} hj getj hxj => ?_⟩⟩
  · exact tidy'.live_elements alive List.not_mem_nil get' x (elements ▸ hx)
  · exact tidy.kind_of_element tidy' lasts alive get get' hx
  · exact tidy'.holds_of_common alive (hj.alive named' tidy') get' getj (elements ▸ hx) hxj

/-- What the sheet has been built with is what it has after its repeaters have grown, shrunk and
grown. -/
theorem bound_of_sheet :
    Library.define [rowDeclaration, sheetDeclaration] = .ok sheetLibrary ∧
      (∀ d ∈ [rowDeclaration, sheetDeclaration],
        d.Roots fun node => node.InPlace ∧ node.WritesLeaves) ∧
      sheetLibrary.value.Ranked ∧
      ∃ s, (start sheetLibrary).Upkept s ∧ s.Upkept sheetSession ∧ sheetSession.Has 1 ∧
        ∃ inst inst', s.world.instances[1]? = some inst ∧
          sheetSession.world.instances[1]? = some inst' ∧ inst'.make = inst.make ∧
          ∀ x ∈ inst.elements, sheetSession.world.document.isLive x = true := by
  have defined : Library.define [rowDeclaration, sheetDeclaration] = .ok sheetLibrary :=
    eq_ok_of_isOk (by decide +kernel) _
  have roots : ∀ d ∈ [rowDeclaration, sheetDeclaration],
      d.Roots fun node => node.InPlace ∧ node.WritesLeaves := by decide +kernel
  have ranked : sheetLibrary.value.Ranked := by decide +kernel
  let built := (start sheetLibrary).after (.onInstance (.construct "sheet" 1 .null none))
  have before : (start sheetLibrary).Upkept built :=
    Upkept.refl.after (.onInstance (.construct ..)) trivial
  have after : built.Upkept sheetSession :=
    ((Upkept.refl.shownSheet _ _ _).shownSheet _ _ _).shownSheet _ _ _
  have named : sheetSession.instances.get? "sheet" = some 1 := by decide +kernel
  have there : built.world.instances[1]?.isSome = true := by decide +kernel
  obtain ⟨inst, get⟩ := Option.isSome_iff_exists.mp there
  obtain ⟨inst', get', same, bound⟩ :=
    bound_of_upkept defined roots ranked before after get (.named named)
  exact ⟨defined, roots, ranked, built, before, after, .named named, inst, inst', get, get', same,
    fun x hx => (bound x hx).1⟩

/-! A card whose watch writes a text over what it marks. -/

/-- A card with a box that may be hidden, shows a text and has a paragraph inside. -/
def cardDeclaration : Declaration where
  id := "card"
  name := "card"
  origin := .root ⟨{ kind := .element "section" }, [
    ⟨{ kind := .element "div", visibility := some ⟨.prop [.field "show"], false, .hide⟩
       watches := [⟨.prop [.field "x"], .setText⟩] }, [
      ⟨{ kind := .element "p", reference := some "p" }, []⟩]⟩]⟩ {}

/-- The library of cards. -/
def cardLibrary : Traced Library := (Library.define [cardDeclaration]).toOption.getD ⟨[], []⟩

/-- A card that hides its box. -/
def hiddenCard : Session :=
  (start cardLibrary).after
    (.onInstance (.construct "a" 0 (.map [("show", .bool false), ("x", .str "hi")]) none))

/-- The card that shows its box. -/
def shownCard : Session :=
  hiddenCard.after (.onInstance (.render "a" (.map [("show", .bool true), ("x", .str "hi")]) none))

/-- The slot of the paragraph is bound to a text after the box has been shown. -/
theorem rebound_of_card :
    (hiddenCard.world.instances[0]?.map (·.elements)) = some [1, 2] ∧
      (shownCard.world.instances[0]?.map (·.elements)) = some [1, 2] ∧
      (hiddenCard.world.document.node 2).kind = some (.element "p") ∧
      (shownCard.world.document.node 2).kind = some .text := by decide +kernel

end Session

end ComponentView
