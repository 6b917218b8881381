import ComponentView.Proofs.Repeat.Patch
import ComponentView.Proofs.Repeat.Orphans

/-! # A repeater by position and its container

The roots of the instances that a repeater shows stand as one block among the other nodes of its
container, and those of its other instances have no parent (`Sequential.Standing`). Showing one more
instance, taking one out and returning one keep that up, and so does a patch as a whole, wherever it
stops; so any sequence of patches leaves the foreign children of the container as they were
(`Sequential.block_of_patches`). What is asked of the rows is that the renders and constructions to
which a patch comes are quiet about the container and put no loose root anywhere
(`Sequential.Unnoticed`); any of them may fail. -/

namespace ComponentView

namespace Sequential

/-- The roots of the instances `shown` stand in their order between the nodes `before` and `after`;
the instances `loose` have roots without a parent. All are tenants of the container. -/
structure Standing (container : NodeId) (before after : List NodeId) (shown loose : List InstanceId)
    (w : World) : Prop where
  tenants : w.Tenants container (before ++ after) (shown ++ loose)
  children : w.document.children container = before ++ shown.filterMap w.root? ++ after
  loose : ∀ i ∈ loose, ∀ root, w.root? i = some root → w.document.parent? root = none
  nodup : (w.document.children container).Nodup
  linked : ∀ c, w.document.parent? c = some container ↔ c ∈ w.document.children container
  inside : container < w.document.size

variable {container : NodeId} {before after : List NodeId} {shown loose : List InstanceId}
  {w later : World} {i : InstanceId} {root : NodeId}

namespace Standing

/-- The order of the loose instances does not matter. -/
theorem perm (h : Standing container before after shown loose w) {other : List InstanceId}
    (hp : loose.Perm other) : Standing container before after shown other w where
  tenants := h.tenants.perm (hp.append_left shown)
  children := h.children
  loose i hi := h.loose i (hp.mem_iff.mpr hi)
  nodup := h.nodup
  linked := h.linked
  inside := h.inside

/-- Loose instances may go. -/
theorem forget (h : Standing container before after shown loose w) :
    Standing container before after shown [] w where
  tenants := h.tenants.sublist (by simp)
  children := h.children
  loose := nofun
  nodup := h.nodup
  linked := h.linked
  inside := h.inside

/-- A loose instance comes to the end of the block. -/
theorem place (h : Standing container before after shown (i :: loose) w)
    (hroot : w.root? i = some root) : Standing container before after (shown ++ [i]) loose
      { w with document := w.document.insertBefore container root after.head? } := by
  have orphan : w.document.parent? root = none := h.loose i (List.mem_cons_self ..) root hroot
  have fresh : root ∉ w.document.children container := fun hc => by
    rw [← h.linked, orphan] at hc
    cases hc
  obtain ⟨-, root', hroot', inside⟩ := h.tenants.present i
    (List.mem_append_right _ (List.mem_cons_self ..))
  obtain rfl : root = root' := Option.some.inj (hroot.symm.trans hroot')
  have still : w.document.without root = w.document := by rw [Document.without, orphan]
  have nodup := h.nodup
  rw [h.children] at nodup
  have children : (w.document.insertBefore container root after.head?).children container
      = before ++ shown.filterMap w.root? ++ root :: after := by
    rw [Document.children_insertBefore h.inside, if_pos rfl, still,
      h.children, Document.placeBefore_head? nodup]
  have mem {c : NodeId} : c ∈ before ++ shown.filterMap w.root? ++ root :: after ↔
      c = root ∨ c ∈ w.document.children container := by
    rw [h.children, List.perm_middle.mem_iff, List.mem_cons]
  constructor
  · have tenants := h.tenants.of_insertBefore root after.head?
    rwa [List.append_cons] at tenants
  · show _ = before ++ (shown ++ [i]).filterMap w.root? ++ after
    rw [children, List.filterMap_append]
    simp [hroot]
  · intro j hj x hx
    have hx : w.root? j = some x := hx
    show (w.document.insertBefore container root after.head?).parent? x = none
    rw [Document.parent?_insertBefore inside, if_neg, h.loose j (List.mem_cons_of_mem _ hj) x hx]
    rintro rfl
    have same := h.tenants.distinct i (List.mem_append_right _ (List.mem_cons_self ..)) j
      (List.mem_append_right _ (List.mem_cons_of_mem _ hj)) (hroot.trans hx.symm)
    exact (List.nodup_cons.mp (List.nodup_append.mp h.tenants.nodup).2.1).1 (same ▸ hj)
  · show ((w.document.insertBefore container root after.head?).children container).Nodup
    rw [children, List.perm_middle.nodup_iff, List.nodup_cons, ← h.children]
    exact ⟨fresh, h.nodup⟩
  · intro c
    show (w.document.insertBefore container root after.head?).parent? c = _ ↔
      c ∈ (w.document.insertBefore container root after.head?).children container
    rw [Document.parent?_insertBefore inside, children, mem]
    split
    · next hc => simp [hc]
    · next hc => simp [hc, h.linked]
  · show container < (w.document.insertBefore container root after.head?).size
    rw [Document.size_insertBefore]
    exact h.inside

/-- An instance of the block is taken out. -/
theorem remove {kept rest : List InstanceId}
    (h : Standing container before after (kept ++ i :: rest) loose w)
    (hroot : w.root? i = some root) : Standing container before after (kept ++ rest) (i :: loose)
      { w with document := w.document.remove container root } := by
  have split : w.document.children container = before ++ kept.filterMap w.root? ++
      root :: (rest.filterMap w.root? ++ after) := by
    rw [h.children, List.filterMap_append, List.filterMap_cons, hroot]
    simp
  have placed : w.document.parent? root = some container :=
    (h.linked root).mpr (split ▸ by simp)
  have nodup := h.nodup
  rw [split, List.perm_middle.nodup_iff, List.nodup_cons] at nodup
  have taken : (w.document.remove container root).children container
      = (w.document.children container).filter (· ≠ root) := by
    rw [Document.children_remove, if_pos ⟨placed, rfl⟩]
  have children : (w.document.remove container root).children container
      = before ++ (kept ++ rest).filterMap w.root? ++ after := by
    have others : ∀ c ∈ before ++ kept.filterMap w.root? ++ (rest.filterMap w.root? ++ after),
        c ≠ root := fun c hc he => nodup.1 (he ▸ hc)
    rw [List.forall_mem_append] at others
    rw [taken, split, List.filter_append,
      List.filter_cons_of_neg (by simp),
      List.filter_eq_self.mpr fun c hc => decide_eq_true (others.1 c hc),
      List.filter_eq_self.mpr fun c hc => decide_eq_true (others.2 c hc), List.filterMap_append]
    simp
  have parent (c : NodeId) : (w.document.remove container root).parent? c
      = if c = root then none else w.document.parent? c := by
    rw [Document.parent?_remove]
    simp [placed]
  constructor
  · refine (h.tenants.of_document (fun q => ?_) (Document.size_remove container root)).perm ?_
    · rw [Document.children_remove]
      split
      · exact List.filter_sublist.subset
      · exact List.Subset.refl _
    · rw [List.append_assoc, List.append_assoc, List.cons_append]
      exact (List.perm_middle.symm).append_left kept
  · exact children
  · intro j hj x hx
    show (w.document.remove container root).parent? x = none
    rw [parent]
    rcases List.mem_cons.mp hj with rfl | hj
    · rw [if_pos (Option.some.inj (hx.symm.trans hroot))]
    · rw [h.loose j hj x hx, ite_self]
  · show ((w.document.remove container root).children container).Nodup
    rw [children, List.filterMap_append]
    simpa using nodup.2
  · intro c
    show (w.document.remove container root).parent? c = _ ↔
      c ∈ (w.document.remove container root).children container
    rw [parent, taken, List.mem_filter]
    split
    · next hc => simp [hc]
    · next hc => simp [hc, h.linked]
  · show container < (w.document.remove container root).size
    rw [Document.size_remove]
    exact h.inside

/-- What does not disturb the container leaves the block where it is. -/
theorem undisturbed (h : Standing container before after shown loose w)
    (hu : World.Undisturbed container (shown ++ loose) w later) {more : List InstanceId}
    (tenants : later.Tenants container (before ++ after) (shown ++ more))
    (orphan : ∀ i ∈ more, ∀ root, later.root? i = some root → later.document.parent? root = none) :
    Standing container before after shown more later where
  tenants := tenants
  children := by
    rw [hu.children, h.children, List.filterMap_congr fun i hi =>
      hu.roots i (List.mem_append_left loose hi)]
  loose := orphan
  nodup := by rw [hu.children]; exact h.nodup
  linked c := by rw [hu.parent, hu.children]; exact h.linked c
  inside := Nat.lt_of_lt_of_le h.inside hu.size

/-- A loose instance and what it holds have nothing in the container. -/
theorem apart (h : Standing container before after shown loose w) (hi : i ∈ loose) :
    World.Apart container (w.Holds i) w := by
  refine h.tenants.apart (List.mem_append_right _ hi) h.linked (fun c hc => ?_) fun root hr hc => ?_
  · rw [h.children, List.mem_append, List.mem_append] at hc
    rcases hc with (hc | hc) | hc
    · exact Or.inl (List.mem_append_left _ hc)
    · obtain ⟨j, hj, hr⟩ := List.mem_filterMap.mp hc
      exact Or.inr ⟨j, List.mem_append_left _ hj, hr⟩
    · exact Or.inl (List.mem_append_right _ hc)
  · rw [← h.linked, h.loose i hi root hr] at hc
    cases hc

/-- What spares the container leaves the block where it is. -/
theorem spares (h : Standing container before after shown [] w)
    (hs : World.Spares container w later) (busy : later.busy = w.busy) :
    Standing container before after shown [] later where
  tenants := h.tenants.spares hs busy
  children := by rw [hs.children, h.children, List.filterMap_congr fun i _ => hs.root? i]
  loose := nofun
  nodup := by rw [hs.children]; exact h.nodup
  linked c := by rw [hs.parent, hs.children]; exact h.linked c
  inside := by rw [hs.size]; exact h.inside

end Standing

/-! ## One item -/

/-- A repeater of a definition stands in its container: the instances that it has attached are its
block, and the others are loose. -/
structure Settled (container : NodeId) (before after : List NodeId) (id : DefinitionId)
    (share : Bool) (f : Focus Sequential) : Prop where
  definition : f.held.definition = id
  share : f.held.share = share
  fits : f.held.attached ≤ f.held.instances.length
  block : Standing container before after (f.held.instances.take f.held.attached)
    (f.held.instances.drop f.held.attached) f.world

/-- The repeater is settled, and the pool it takes from is sound. -/
structure Ready (container : NodeId) (before after : List NodeId) (id : DefinitionId)
    (share : Bool) (f : Focus Sequential) : Prop
    extends Settled container before after id share f where
  stocked : f.world.Stocked container (before ++ after) id f.held.instances
  unattached : f.world.Orphaned id (f.held.instances.drop f.held.attached)

/-- The instance of a position is the one that was there, or a new one at the end; it has been
served. -/
structure Shown (engine : Engine) (controller : Controller) (r : Sequential) (w : World)
    (position : Nat) (item : Value) (i : InstanceId) (f : Focus Sequential) : Prop where
  held : f.held = { r with instances := f.held.instances }
  instances : f.held.instances = r.instances ∧ r.instances[position]? = some i ∨
    r.instances.length ≤ position ∧ f.held.instances = r.instances ++ [i]
  serves : engine.Serves r.definition r.share r.instances[position]? item controller w i

variable {id : DefinitionId} {share : Bool} {r : Sequential} {position : Nat}
  (library : Library) {below : Engine}

/-- What an engine makes of the container and the pool fits a repeater that has got no instance, or
one at its end. -/
theorem Ready.next (h : Ready container before after id share ⟨r, w⟩) {new : List InstanceId}
    (hu : World.Undisturbed container r.instances w later)
    (stocked : later.Stocked container (before ++ after) id (r.instances ++ new))
    (loose : later.Orphaned id (r.instances.drop r.attached ++ new)) :
    Ready container before after id share
      ⟨{ r with instances := r.instances ++ new }, later⟩ := by
  have fits : r.attached ≤ r.instances.length := h.fits
  have parts : r.instances.take r.attached ++ r.instances.drop r.attached = r.instances :=
    List.take_append_drop ..
  have drop : (r.instances ++ new).drop r.attached = r.instances.drop r.attached ++ new :=
    List.drop_append_of_le_length fits
  refine ⟨⟨h.definition, h.share, ?_, ?_⟩, stocked, ?_⟩
  · show r.attached ≤ (r.instances ++ new).length
    rw [List.length_append]
    omega
  · show Standing container before after ((r.instances ++ new).take r.attached)
      ((r.instances ++ new).drop r.attached) later
    rw [drop, List.take_append_of_le_length fits]
    refine h.block.undisturbed (by rwa [parts]) ?_ fun j hj => ?_
    · rw [← List.append_assoc, parts]
      exact stocked.tenants.sublist (List.sublist_append_left ..)
    · exact loose.orphan j (List.mem_append_left _ hj)
  · show later.Orphaned id ((r.instances ++ new).drop r.attached)
    rwa [drop]

/-- What holds of the rows of a repeater that is ready. -/
theorem Ready.rows (h : Ready container before after id share ⟨r, w⟩) :
    w.Kept container (before ++ after) id r.attached r.instances :=
  ⟨h.fits, h.stocked, h.unattached⟩

/-- The instance of a position is rendered or made. -/
theorem instanceFor_ends (h : Ready container before after id share ⟨r, w⟩) {controller : Controller}
    {item : Value}
    (quiet : below.ServesQuietly container id
      (World.Kept container (before ++ after) id r.attached) r.share r.instances
      r.instances[position]? item controller w) :
    Ends (fun f => f.held = r ∧ f.world = w)
      (instanceFor (Engine.above (fun _ => below) library) controller position item)
      (fun i f => Shown (Engine.above (fun _ => below) library) controller r w position item i f ∧
        Ready container before after id share f)
      (Failing (Settled container before after id share)) := by
  have definition : r.definition = id := h.definition
  have nothing : r.instances ++ [] = r.instances := List.append_nil _
  have same : ({ r with instances := r.instances ++ [] } : Sequential) = r := by rw [nothing]
  -- What the engine leaves where it ends or fails without a new instance.
  have again {v : World} (hu : World.Undisturbed container r.instances w v)
      (hs : v.Kept container (before ++ after) id r.attached r.instances) :
      Ready container before after id share ⟨r, v⟩ := by
    have next : Ready container before after id share
        ⟨{ r with instances := r.instances ++ [] }, v⟩ :=
      h.next hu (by rw [nothing]; exact hs.stocked) (by rw [List.append_nil]; exact hs.loose)
    rwa [same] at next
  have failed {stop : Stop} {f : Focus Sequential} (hf : f.held = r ∧
      (stop.GivenUp ∨ World.Undisturbed container r.instances w f.world ∧
        f.world.Kept container (before ++ after) id r.attached r.instances)) :
      Failing (Settled container before after id share) stop f := by
    obtain ⟨r', v⟩ := f
    obtain ⟨rfl, hg | ⟨hu, hs⟩⟩ := hf
    · exact .of_givenUp hg
    · exact fun _ _ => (again hu hs).toSettled
  unfold instanceFor
  refine .held_bind (P := (· = w)) ?_
  split
  · next i hi =>
    rw [hi] at quiet
    have quiet : below.RendersQuietly container
      (World.Kept container (before ++ after) id r.attached) r.instances i item controller w := quiet
    have render := Ends.outside_at (a := r) (quiet h.rows).recall
    refine (render.mono (fun _ hf => hf) (fun _ _ hf => hf)
      fun _ _ hf => failed ⟨hf.1, hf.2.1⟩).bind fun stats => .pure fun f hf => ?_
    obtain ⟨r', v⟩ := f
    obtain ⟨rfl, ⟨hu, hs⟩, he⟩ := hf
    refine ⟨⟨rfl, Or.inl ⟨rfl, hi⟩, ?_⟩, again hu hs⟩
    rw [hi]
    exact ⟨rfl, stats, v, he⟩
  · next hi =>
    rw [hi] at quiet
    have acquire := Ends.outside_at (a := r) (Engine.AcquiresQuietly.ends library
      (World.rule_kept container (before ++ after) id r.attached) quiet h.rows).recall
    rw [← definition] at acquire
    refine (acquire.mono (fun _ hf => hf) (fun _ _ hf => hf)
      fun _ _ hf => failed ⟨hf.1, definition ▸ hf.2.1⟩).bind fun i => ?_
    rintro ⟨r', v⟩ ⟨rfl, ⟨hu, hs, -⟩, he⟩
    rw [definition] at hs
    refine ⟨⟨rfl, Or.inr ⟨List.getElem?_eq_none_iff.mp hi, rfl⟩, ?_⟩, ?_⟩
    · rw [hi]
      exact ⟨v, he⟩
    · have loose := hs.loose
      rw [List.drop_append_of_le_length h.fits] at loose
      exact h.next (hu.congr rfl rfl rfl rfl rfl rfl) (hs.stocked.congr rfl rfl rfl rfl)
        (loose.congr rfl rfl rfl)

/-- The walk over items from the focus `f` comes to its end at `g`, and `rows` are the instances that
it has rendered with the items, in their order. -/
inductive Walks (engine : Engine) (container : NodeId) (anchor : Option NodeId)
    (controller : Controller) : (position : Nat) → List Value → Focus Sequential →
      List InstanceId → Focus Sequential → Prop where
  | nil (position : Nat) (f : Focus Sequential) :
    Walks engine container anchor controller position [] f [] f
  | render {position : Nat} {item : Value} {rest : List Value} {f f' g : Focus Sequential}
      {i : InstanceId} {rows : List InstanceId}
      (serves : engine.Serves f.held.definition f.held.share f.held.instances[position]? item
        controller f.world i)
      (step : showItem engine container anchor controller position item f = .ok () f')
      (onward : Walks engine container anchor controller (position + 1) rest f' rows g) :
      Walks engine container anchor controller position (item :: rest) f (i :: rows) g

/-- What the walk over items comes to does not edit the container and puts no loose root anywhere: at
each item, what is done for it there is quiet. -/
def Unnoticed (below : Engine) (library : Library) (container : NodeId) (foreign : List NodeId)
    (anchor : Option NodeId) (controller : Controller) :
    (position : Nat) → List Value → Focus Sequential → Prop
  | _, [], _ => True
  | position, item :: rest, f =>
    below.ServesQuietly container f.held.definition
      (World.Kept container foreign f.held.definition f.held.attached) f.held.share f.held.instances
      f.held.instances[position]? item controller f.world ∧
    ∀ f', showItem (.above (fun _ => below) library) container anchor controller position item f
        = .ok () f' →
      Unnoticed below library container foreign anchor controller (position + 1) rest f'

/-- What a patch has made of the items that have come: they have an instance each, which are those in
`done`, all of them attached, and what the repeater held at first it still holds. -/
structure Showing (container : NodeId) (before after : List NodeId) (id : DefinitionId)
    (share : Bool) (r₀ : Sequential) (past : List Value) (done : List InstanceId)
    (f : Focus Sequential) : Prop where
  ready : Ready container before after id share f
  kept : r₀.instances <+: f.held.instances
  length : f.held.instances.length = max r₀.instances.length past.length
  attached : past.length ≤ f.held.attached
  rows : f.held.instances.take past.length = done

/-- An item is shown at the position that comes next. -/
theorem Showing.next {engine : Engine} {controller : Controller} {r₀ : Sequential}
    {past : List Value} {done : List InstanceId} {item : Value} {attached : Nat}
    {f : Focus Sequential} (h : Showing container before after id share r₀ past done ⟨r, w⟩)
    (shown : Shown engine controller r w past.length item i f)
    (ready : Ready container before after id share ⟨{ f.held with attached }, later⟩)
    (more : past.length < attached) :
    Showing container before after id share r₀ (past ++ [item]) (done ++ [i])
      ⟨{ f.held with attached }, later⟩ := by
  have length : r.instances.length = max r₀.instances.length past.length := h.length
  have kept : r.instances <+: f.held.instances ∧ f.held.instances[past.length]? = some i ∧
      f.held.instances.length = max r₀.instances.length (past.length + 1) := by
    rcases shown.instances with ⟨hf, hi⟩ | ⟨hlen, hf⟩
    · have hlt := (List.getElem?_eq_some_iff.mp hi).1
      rw [hf]
      exact ⟨List.prefix_refl _, hi, by omega⟩
    · have hlen : r.instances.length = past.length := by omega
      rw [hf]
      exact ⟨List.prefix_append .., by simp [← hlen], by simp; omega⟩
  refine ⟨ready, h.kept.trans kept.1, ?_, ?_, ?_⟩
  · rw [List.length_append]
    exact kept.2.2
  · rw [List.length_append]
    exact more
  · show f.held.instances.take (past ++ [item]).length = done ++ [i]
    obtain ⟨new, hf⟩ := kept.1
    have old : f.held.instances.take past.length = done := by
      rw [← hf, List.take_append_of_le_length (by omega)]
      exact h.rows
    rw [List.length_append, List.length_singleton, List.take_add_one, old, kept.2.1]
    rfl

/-- What has no item was there before. -/
theorem Showing.surplus {r₀ : Sequential} {past : List Value} {done : List InstanceId}
    {f : Focus Sequential} (h : Showing container before after id share r₀ past done f) :
    f.held.instances.drop past.length = r₀.instances.drop past.length := by
  obtain ⟨new, hn⟩ := h.kept
  have length := h.length
  rw [← hn, List.length_append] at length
  rw [← hn]
  rcases Nat.le_total past.length r₀.instances.length with hle | hle
  · have none : new = [] := List.eq_nil_of_length_eq_zero (by omega)
    rw [none, List.append_nil]
  · rw [List.drop_of_length_le (by rw [List.length_append]; omega), List.drop_of_length_le hle]

/-- What is done to the root of an instance that is there and not held is done to the document. -/
theorem editRoot_ends (free : i ∉ w.busy) (hroot : w.root? i = some root)
    (edit : NodeId → Document Listener → Document Listener) {E : Stop → Focus Sequential → Prop} :
    Ends (fun f => f.held = r ∧ f.world = w)
      (Holding.outside do
        let root ← Run.rootOf i
        Run.onDocument (edit root))
      (fun _ f => f.held = r ∧ f.world = { w with document := edit root w.document }) E := by
  have edits : Ends (· = w) (do
        let root ← Run.rootOf i
        Run.onDocument (edit root))
      (fun _ v => v = { w with document := edit root w.document }) fun _ _ => False := by
    refine (Keyed.rootOf_ends free hroot).bind fun root' => .modify fun v hv => ?_
    obtain ⟨rfl, rfl⟩ := hv
    rfl
  exact (Ends.outside_eq (E := fun _ => False) edits).mono (fun _ hf => hf) (fun _ _ hf => hf)
    fun _ _ hs => hs.elim

/-- The first instance that is not attached is put at the end of the block. -/
theorem attach_ends (h : Ready container before after id share ⟨r, w⟩)
    (found : r.instances[r.attached]? = some i) {E : Stop → Focus Sequential → Prop} :
    Ends (fun f => f.held = r ∧ w = f.world) (do
        Holding.outside do
          let root ← Run.rootOf i
          Run.onDocument (·.insertBefore container root after.head?)
        Holding.change fun r' => { r' with attached := r.attached + 1 })
      (fun _ f => f.held = { r with attached := r.attached + 1 } ∧
        Ready container before after id share f) E := by
  have hlt := (List.getElem?_eq_some_iff.mp found).1
  have hi : i ∈ r.instances := List.mem_of_getElem? found
  have stocked : w.Stocked container (before ++ after) id r.instances := h.stocked
  obtain ⟨free, root, hroot, -⟩ := stocked.tenants.present i (List.mem_append_left _ hi)
  have drop : r.instances.drop r.attached = i :: r.instances.drop (r.attached + 1) := by
    rw [List.drop_eq_getElem_cons hlt, (List.getElem?_eq_some_iff.mp found).2]
  have take : r.instances.take (r.attached + 1) = r.instances.take r.attached ++ [i] := by
    rw [List.take_add_one, found, Option.toList_some]
  have block : Standing container before after (r.instances.take r.attached)
      (i :: r.instances.drop (r.attached + 1)) w := drop ▸ h.block
  have unattached : w.Orphaned id (r.instances.drop (r.attached + 1)) :=
    h.unattached.mono (drop ▸ List.subset_cons_self ..)
  have others : i ∉ r.instances.drop (r.attached + 1) := by
    have nodup := (List.nodup_append.mp stocked.tenants.nodup).1.sublist
      (List.drop_sublist r.attached _)
    rw [drop, List.nodup_cons] at nodup
    exact nodup.1
  have moved := editRoot_ends (r := r) (E := E) free hroot
    fun root d => d.insertBefore container root after.head?
  refine (moved.pre fun _ hf => ⟨hf.1, hf.2.symm⟩).bind fun _ => .change fun r' v hf => ?_
  obtain rfl : r = r' := hf.1.symm
  obtain rfl := hf.2
  refine ⟨rfl, ⟨h.definition, h.share, hlt, ?_⟩, ?_, ?_⟩
  · show Standing container before after (r.instances.take (r.attached + 1)) _ _
    rw [take]
    exact block.place hroot
  · exact stocked.of_insertBefore hi hroot _
  · exact unattached.of_insertBefore stocked.tenants (List.drop_subset ..) hi others hroot _

/-- An item is shown, or the patch fails and the repeater is settled. -/
theorem showItem_ends {r₀ : Sequential} {past : List Value} {done : List InstanceId}
    {controller : Controller} {item : Value}
    (h : Showing container before after id share r₀ past done ⟨r, w⟩)
    (quiet : below.ServesQuietly container r.definition
      (World.Kept container (before ++ after) r.definition r.attached) r.share r.instances
      r.instances[past.length]? item controller w) :
    Ends (· = ⟨r, w⟩)
      (showItem (Engine.above (fun _ => below) library) container after.head? controller
        past.length item)
      (fun _ g => ∃ i, (Engine.above (fun _ => below) library).Serves r.definition r.share
          r.instances[past.length]? item controller w i ∧
        Showing container before after id share r₀ (past ++ [item]) (done ++ [i]) g)
      (Failing (Settled container before after id share)) := by
  have definition : r.definition = id := h.ready.definition
  rw [definition] at quiet
  unfold showItem
  refine Ends.bind ((instanceFor_ends library h.ready quiet).pre
    (by rintro _ rfl; exact ⟨rfl, rfl⟩)) (fun i => ?_)
  rintro ⟨r', v⟩ ⟨shown, ready⟩
  have held : r' = { r with instances := r'.instances } := shown.held
  have attached : r'.attached = r.attached := (congrArg Sequential.attached held :)
  have enough : past.length ≤ r.attached := h.attached
  have length : r.instances.length = max r₀.instances.length past.length := h.length
  refine Ends.held_at ?_ _ rfl
  split
  · next hle =>
    have here : past.length = r'.attached := by omega
    have found : r'.instances[r'.attached]? = some i := by
      rw [← here]
      rcases shown.instances with ⟨hf, hi⟩ | ⟨hlen, hf⟩
      · exact (congrArg (·[past.length]?) hf).trans hi
      · have hlen : past.length = r.instances.length := by omega
        rw [show r'.instances = r.instances ++ [i] from hf, hlen, List.getElem?_concat_length]
    rw [here]
    refine (attach_ends ready found).post fun _ f hf => ⟨i, here ▸ shown.serves, ?_⟩
    obtain ⟨_, later⟩ := f
    obtain ⟨rfl, ready⟩ := hf
    exact h.next shown ready (by omega)
  · next hgt =>
    have next := h.next shown ready (by omega : past.length < r'.attached)
    refine .pure fun f hf => ⟨i, shown.serves, ?_⟩
    obtain ⟨_, _⟩ := f
    obtain ⟨rfl, rfl⟩ := hf
    exact next

/-- Items are shown one after another. -/
theorem showItems_ends {r₀ : Sequential} {controller : Controller} {past rest : List Value}
    {done : List InstanceId} {f : Focus Sequential}
    (h : Showing container before after id share r₀ past done f)
    (quiet : Unnoticed below library container (before ++ after) after.head? controller past.length
      rest f) :
    Ends (· = f)
      (showItems (Engine.above (fun _ => below) library) container after.head? controller
        past.length rest)
      (fun _ g => ∃ new,
        Walks (Engine.above (fun _ => below) library) container after.head? controller past.length
          rest f new g ∧
        Showing container before after id share r₀ (past ++ rest) (done ++ new) g)
      (Failing (Settled container before after id share)) := by
  -- By induction on the items that are left, while `past` and `done` grow.
  induction rest generalizing past done f with
  | nil =>
    refine .pure ?_
    rintro _ rfl
    exact ⟨[], .nil .., by rwa [List.append_nil, List.append_nil]⟩
  | cons item rest ih =>
    obtain ⟨r, w⟩ := f
    obtain ⟨first, others⟩ := quiet
    refine (showItem_ends library h first).recall.mono (fun _ hf => hf) (fun _ _ hf => hf)
      (fun _ _ hf => hf.1) |>.bind fun _ => .pointwise ?_
    rintro f' ⟨⟨i, serves, next⟩, step⟩
    have length : (past ++ [item]).length = past.length + 1 := by simp
    have onward := ih next (length ▸ others f' step)
    rw [length] at onward
    refine onward.mono (fun _ hf => hf.symm) (fun _ g hg => ?_) fun _ _ hf => hf
    obtain ⟨more, walks, showing⟩ := hg
    exact ⟨i :: more, .render serves step walks, by rwa [List.append_cons past, List.append_cons done]⟩

/-! ## Surplus instances -/

/-- The last of the shown instances are taken out of the container, one after another. -/
theorem takeOut_ends {kept surplus : List InstanceId}
    (block : Standing container before after (kept ++ surplus) loose w)
    {E : Stop → Focus Sequential → Prop} :
    Ends (fun f => f.held = r ∧ f.world = w)
      (surplus.forM fun i => Holding.outside do
        let root ← Run.rootOf i
        Run.onDocument (·.remove container root))
      (fun _ f => f.held = r ∧ (∃ document, f.world = { w with document }) ∧
        Standing container before after kept (surplus ++ loose) f.world) E := by
  induction surplus generalizing w loose with
  | nil =>
    rintro ⟨_, _⟩ ⟨rfl, rfl⟩
    exact ⟨rfl, ⟨_, rfl⟩, by rwa [List.append_nil] at block⟩
  | cons i surplus ih =>
    obtain ⟨free, root, hroot, -⟩ := block.tenants.present i (by simp)
    refine (editRoot_ends free hroot fun root d => d.remove container root).bind fun _ => ?_
    refine (ih (block.remove hroot)).post fun _ f hf => ?_
    obtain ⟨held, ⟨document, hw⟩, standing⟩ := hf
    exact ⟨held, ⟨document, hw⟩, standing.perm List.perm_middle⟩

/-- The roots of the attached instances from a position on leave the container. -/
theorem withdraw_ends (fits : r.attached ≤ r.instances.length) (hp : position ≤ r.attached)
    (block : Standing container before after (r.instances.take r.attached)
      (r.instances.drop r.attached) w) {E : Stop → Focus Sequential → Prop} :
    Ends (fun f => f.held = r ∧ f.world = w) (withdraw container position)
      (fun _ f => f.held = { r with attached := position } ∧
        (∃ document, f.world = { w with document }) ∧
          Standing container before after (r.instances.take position) (r.instances.drop position)
            f.world) E := by
  set surplus := (r.instances.take r.attached).drop position with hsurplus
  have first : (r.instances.take r.attached).take position = r.instances.take position := by
    rw [List.take_take, Nat.min_eq_left hp]
  have shown : r.instances.take position ++ surplus = r.instances.take r.attached := by
    rw [← first, hsurplus, List.take_append_drop]
  have unshown : surplus ++ r.instances.drop r.attached = r.instances.drop position := by
    rw [hsurplus, ← List.drop_append_of_le_length (by rw [List.length_take]; omega),
      List.take_append_drop]
  unfold withdraw
  refine .held_bind (P := (· = w)) ?_
  refine (takeOut_ends (shown.symm ▸ block)).bind fun _ => .change fun r' v hf => ?_
  obtain ⟨rfl, document, standing⟩ := hf
  rw [unshown] at standing
  exact ⟨congrArg (fun attached => { r' with attached }) (Nat.min_eq_right hp), document, standing⟩

/-- Of the surplus the instances that are done have come to the pool, the last of them in front. -/
structure Returning (w : World) (id : DefinitionId) (surplus done : List InstanceId) (later : World) :
    Prop where
  regains : World.Regains (fun _ => True) w later
  returned : (later.pool id).filter (· ∈ surplus) = done.reverse

/-- None of the surplus is held by another row, so that it comes to the pool only by itself. -/
theorem Returning.giveBack {surplus done rows : List InstanceId} (pooled : id < w.pools.size)
    (sub : surplus ⊆ rows) (tenants : w.Tenants container (before ++ after) rows) (hi : i ∈ surplus) :
    Ends (Returning w id surplus done) (Retire.giveBack Run.retire id i)
      (fun _ => Returning w id surplus (done ++ [i])) fun _ _ => True := by
  have foreign {j : InstanceId} (hj : w.Under i j) (hne : j ≠ i) : j ∉ surplus := by
    intro hs
    obtain ⟨top, htop, k, hk, hj⟩ := hj
    obtain ⟨-, root, hroot, -⟩ := tenants.present j (sub hs)
    exact hne (tenants.others i (sub hi) j root (.head ⟨top, htop, hk⟩ hj) hroot root
      (Or.inr ⟨j, sub hs, hroot⟩) .refl).1
  unfold Retire.giveBack
  refine Ends.bind ((Ends.rootOf (fun _ _ => trivial) fun _ _ => trivial).post
    fun _ _ h => h.2.2) fun root => ?_
  refine Ends.bind (Q := fun _ => Returning w id surplus done)
    (.modify fun v hv => ⟨hv.regains.congr rfl rfl rfl, hv.returned⟩) fun _ => ?_
  -- What comes back from below the instance is none of the surplus, so only the push counts.
  refine Ends.bind (Q := fun _ => Returning w id surplus done) (.pointwise fun v hv => ?_) fun _ =>
    .modify fun v hv => ?_
  · refine (Run.retire_regains (w.Under i) .dismount i v (hv.regains.closed (w.closed_under i))
      fun inst hinst j hj => ?_).mono (fun _ h => h.symm)
      (fun _ u hu => ⟨hv.regains.trans (hu.mono fun _ _ => trivial), ?_⟩) fun _ _ h => h
    · obtain ⟨top, htop, fewer⟩ := hv.regains.fewer i inst hinst
      exact ⟨top, htop, j, fewer hj, .refl⟩
    · obtain ⟨new, hn, ht⟩ := hu.pools id
      rw [hn, List.filter_append, hv.returned, List.filter_eq_nil_iff.mpr fun j hj hs =>
        foreign (ht j hj).1.1 (ht j hj).1.2 (of_decide_eq_true hs), List.nil_append]
  · have inside : id < v.pools.size := hv.regains.size ▸ pooled
    refine ⟨hv.regains.push trivial (tenants.present i (sub hi)).1 id, ?_⟩
    rw [World.pool_setPool_self inside, List.filter_cons_of_pos (by simpa using hi), hv.returned,
      List.reverse_append]
    rfl

/-- The surplus comes to the pool in the order in which it is returned. -/
theorem surplus_ends (pooled : id < w.pools.size) {surplus rows : List InstanceId}
    (sub : surplus ⊆ rows) (apart : ∀ i ∈ surplus, i ∉ w.pool id)
    (tenants : w.Tenants container (before ++ after) rows) :
    Ends (fun f : Focus Sequential => f.world = w)
      (surplus.forM fun i => Holding.outside (Retire.giveBack Run.retire id i))
      (fun _ f => (f.world.pool id).filter (· ∈ surplus) = surplus.reverse)
      fun _ _ => True := by
  have started : Returning w id surplus [] w :=
    ⟨.refl _ _, List.filter_eq_nil_iff.mpr fun i hi hs => apart i (of_decide_eq_true hs) hi⟩
  refine Ends.mono (P := fun f => Returning w id surplus [] f.world)
    (Q := fun _ f => Returning w id surplus surplus f.world) ?_
    (fun f hf => hf ▸ started) (fun _ _ hf => hf.returned) fun _ _ h => h
  refine .forM_done (J := fun done (f : Focus Sequential) => Returning w id surplus done f.world)
    fun done i rest split => ?_
  have hi : i ∈ surplus := split ▸ by simp
  exact .outside fun _ => Returning.giveBack pooled sub tenants hi

/-- The surplus of a shared repeater is returned to the pool, and the block stays where it is. A
private repeater keeps its surplus. -/
theorem giveBackFrom_ends (definition : r.definition = id) (pooled : id < w.pools.size)
    (spare : ∀ i ∈ r.instances, i ∉ w.pool id)
    (block : Standing container before after (r.instances.take position) (r.instances.drop position)
      w) :
    Ends (fun f => f.held = r ∧ f.world = w) (giveBackFrom position)
      (fun _ f => f.held = { r with instances := f.held.instances } ∧
        f.held.instances = (if r.share then r.instances.take position else r.instances) ∧
        Standing container before after (r.instances.take position)
          (if r.share then [] else r.instances.drop position) f.world ∧
        (r.share → (f.world.pool id).filter (· ∈ r.instances.drop position)
          = (r.instances.drop position).reverse))
      fun stop _ => stop.GivenUp := by
  subst definition
  set surplus := r.instances.drop position with hsurplus
  unfold giveBackFrom
  refine .held_bind (P := (· = w)) ?_
  by_cases hshare : r.share = true
  · simp only [if_pos hshare]
    have rows : r.instances.take position ++ surplus = r.instances := List.take_append_drop ..
    -- What goes on below the surplus does not come near the container, and so not near the block.
    have all : World.Apart container (fun j => ∃ i ∈ surplus, w.Holds i j) w :=
      ⟨block.linked, fun j inst ⟨i, hi, hj⟩ hinst k hk => ⟨i, hi, .tail hj ⟨inst, hinst, hk⟩⟩,
        fun j root ⟨i, hi, hj⟩ hr => (block.apart hi).unreached j root hj hr⟩
    have calm : Ends (fun f => f.held = r ∧ Retire.Calm container w w.busy f.world)
        (surplus.forM fun i => Holding.outside (Retire.giveBack Run.retire r.definition i))
        (fun _ f => f.held = r ∧ Retire.Calm container w w.busy f.world)
        fun stop _ => stop.GivenUp :=
      (Ends.forM fun i hi => Ends.outside_eq (Retire.calm_giveBack all (Run.retire_spares all) _
        ⟨i, hi, .refl⟩)).mono (fun _ hf => hf) (fun _ _ hf => hf) fun _ _ hs => hs.givenUp
    have sub : surplus ⊆ r.instances := List.drop_subset ..
    have pools := surplus_ends pooled sub (fun i hi => spare i (sub hi)) (rows ▸ block.tenants)
    refine ((calm.and pools).mono (fun f hf => ⟨⟨hf.1, ?_⟩, hf.2⟩) (fun _ _ hf => hf)
      fun _ _ hf => hf.1).bind fun _ => .change fun r' v hf => ?_
    · rw [hf.2]
      exact ⟨.refl _ _, rfl⟩
    · obtain ⟨⟨rfl, spares, busy⟩, returned⟩ := hf
      exact ⟨rfl, rfl, block.forget.spares spares busy, fun _ => returned⟩
  · simp only [if_neg hshare]
    refine .pure fun f hf => ?_
    obtain ⟨_, _⟩ := f
    obtain ⟨rfl, rfl⟩ := hf
    exact ⟨rfl, rfl, block, fun h => absurd h hshare⟩

/-- The repeater is cut to a number of attached instances. If it is shared it holds no more than these,
and the surplus is in the pool, each instance once and the last one first. -/
structure Trimmed (r : Sequential) (count : Nat) (f : Focus Sequential) : Prop where
  attached : f.held.attached = count
  instances : f.held.instances = if r.share then r.instances.take count else r.instances
  returned : r.share → (f.world.pool r.definition).filter (· ∈ r.instances.drop count)
    = (r.instances.drop count).reverse

/-- After the last item the rest of the instances leaves the container, and the pool gets it back. -/
theorem trim_ends (h : Ready container before after id share ⟨r, w⟩) (hp : position ≤ r.attached) :
    Ends (fun f => f.held = r ∧ f.world = w)
      (do
        withdraw container position
        giveBackFrom position)
      (fun _ f => Settled container before after id share f ∧ Trimmed r position f)
      fun stop _ => stop.GivenUp := by
  have stocked : w.Stocked container (before ++ after) id r.instances := h.stocked
  have fits : r.attached ≤ r.instances.length := h.fits
  have definition : r.definition = id := h.definition
  refine (withdraw_ends fits hp h.block).bind fun _ => ?_
  rintro ⟨r', w'⟩ ⟨held, ⟨document, hw⟩, block⟩
  -- Taking out changes the count and the document only; the pool is as the patch has left it.
  obtain rfl : { r with attached := position } = r' := Eq.symm held
  obtain rfl : { w with document } = w' := hw.symm
  have spare : ∀ i ∈ r.instances, i ∉ w.pool id := fun i hi hp =>
    (List.nodup_append.mp stocked.tenants.nodup).2.2 i hi i hp rfl
  refine (giveBackFrom_ends (r := { r with attached := position }) (w := { w with document })
    definition h.unattached.pooled spare block).post (fun _ f hf => ?_) _ ⟨rfl, rfl⟩
  obtain ⟨r', v⟩ := f
  obtain ⟨held, instances, block, returned⟩ := hf
  have attached : r'.attached = position := (congrArg Sequential.attached held :)
  have parts : r'.instances.take position = r.instances.take position ∧
      r'.instances.drop position = if r.share then [] else r.instances.drop position := by
    rw [show r'.instances = _ from instances]
    split
    · exact ⟨by rw [List.take_take, Nat.min_self],
        List.drop_eq_nil_of_le (by rw [List.length_take]; exact Nat.min_le_left ..)⟩
    · exact ⟨rfl, rfl⟩
  refine ⟨⟨?_, ?_, ?_, ?_⟩, attached, instances, fun hs => definition ▸ returned hs⟩
  · exact (congrArg Sequential.definition held :).trans definition
  · exact (congrArg Sequential.share held :).trans h.share
  · show r'.attached ≤ r'.instances.length
    rw [attached, show r'.instances = _ from instances]
    split
    · rw [List.length_take]
      exact Nat.le_min.mpr ⟨Nat.le_refl _, Nat.le_trans hp fits⟩
    · exact Nat.le_trans hp fits
  · show Standing container before after (r'.instances.take r'.attached)
      (r'.instances.drop r'.attached) v
    rw [attached, parts.1, parts.2]
    exact block

/-! ## Patches -/

/-- The walk over the items has rendered instance `k` with item `k`, no instance twice, and what a
repeater held before it holds still, up to the number of items if it is shared. Then the surplus is in
the pool, each instance once and the last one first. -/
structure InStep (engine : Engine) (container : NodeId) (anchor : Option NodeId)
    (controller : Controller) (items : List Value) (f g : Focus Sequential) : Prop where
  attached : g.held.attached = items.length
  rendered : ∃ rows last, Walks engine container anchor controller 0 items f rows last ∧
    g.held.instances.take items.length = rows ∧ rows.length = items.length ∧ rows.Nodup
  kept : ∀ (k : Nat) (i : InstanceId), f.held.instances[k]? = some i →
    k < g.held.instances.length → g.held.instances[k]? = some i
  length : g.held.instances.length
    = if f.held.share then items.length else max f.held.instances.length items.length
  returned : f.held.share →
    (g.world.pool f.held.definition).filter (· ∈ f.held.instances.drop items.length)
      = (f.held.instances.drop items.length).reverse

/-- Newcomers do not matter to a repeater that is settled. -/
theorem Settled.welcomed (h : Settled container before after id share ⟨r, w⟩)
    (newcomers : List InstanceId) :
    Settled container before after id share ⟨r, { w with newcomers }⟩ := by
  obtain ⟨definition, share, fits, block⟩ := h
  refine ⟨definition, share, fits, ?_, block.2, block.3, block.4, block.5, block.6⟩
  exact ⟨block.tenants.1, block.tenants.2, block.tenants.3, block.tenants.4, block.tenants.5⟩

/-- A repeater that has shown all items and is cut to their number is in step with them. -/
theorem Showing.inStep {engine : Engine} {anchor : Option NodeId} {controller : Controller}
    {items : List Value} {done : List InstanceId} {r₁ : Sequential} {w₁ : World}
    {f : Focus Sequential} (h : Showing container before after id share r items done ⟨r₁, w₁⟩)
    (walks : Walks engine container anchor controller 0 items ⟨r, w⟩ done ⟨r₁, w₁⟩)
    (shared : r₁.share = r.share) (trimmed : Trimmed r₁ items.length f)
    (definition : r.definition = r₁.definition) :
    InStep engine container anchor controller items ⟨r, w⟩ f := by
  have length : r₁.instances.length = max r.instances.length items.length := h.length
  have held : f.held.instances.length = if r.share then items.length
      else max r.instances.length items.length := by
    rw [trimmed.instances, shared]
    split
    · rw [List.length_take]
      omega
    · exact length
  -- Up to its length, the repeater holds what it held when the items had been shown.
  have same {k : Nat} (hk : k < f.held.instances.length) :
      f.held.instances[k]? = r₁.instances[k]? := by
    rw [held] at hk
    rw [trimmed.instances, shared]
    split
    · rw [List.getElem?_take_of_lt (by simp_all)]
    · rfl
  have surplus : r₁.instances.drop items.length = r.instances.drop items.length := h.surplus
  have rows : r₁.instances.take items.length = done := h.rows
  refine ⟨trimmed.attached, ⟨done, _, walks, ?_, ?_, ?_⟩, fun k i hi hk => ?_, held, fun hs => ?_⟩
  · rw [trimmed.instances]
    split
    · rw [List.take_take, Nat.min_self, rows]
    · exact rows
  · rw [← rows, List.length_take]
    omega
  · exact rows ▸ (List.nodup_append.mp h.ready.stocked.tenants.nodup).1.sublist (List.take_sublist ..)
  · obtain ⟨new, hn⟩ : r.instances <+: r₁.instances := h.kept
    rw [same hk, ← hn, List.getElem?_append_left (List.getElem?_eq_some_iff.mp hi).1, hi]
  · show (f.world.pool r.definition).filter (· ∈ r.instances.drop items.length) = _
    rw [← surplus, definition]
    exact trimmed.returned (shared.trans hs)

/-- A patch that ends leaves the repeater settled and in step with the items; one that fails leaves
it settled. -/
theorem patch_ends (h : Ready container before after id share ⟨r, w⟩) {items : List Value}
    {controller : Controller}
    (quiet : Unnoticed below library container (before ++ after) after.head? controller 0 items
      ⟨r, w⟩) :
    Ends (· = ⟨r, w⟩)
      (patch (Engine.above (fun _ => below) library) container after.head? items controller)
      (fun _ f => Settled container before after id share f ∧
        InStep (Engine.above (fun _ => below) library) container after.head? controller items ⟨r, w⟩ f)
      (Failing (Settled container before after id share)) := by
  have start : Showing container before after id share r [] [] ⟨r, w⟩ :=
    ⟨h, List.prefix_refl _, (Nat.max_eq_left (Nat.zero_le _)).symm, Nat.zero_le _, rfl⟩
  refine .welcoming ?_
  refine Ends.bind ((showItems_ends library start quiet).mono (fun _ hf => hf)
    (fun _ _ hf => hf) ?_) fun _ => ?_
  · exact fun stop f hf newcomers cause hc => (hf cause hc).welcomed newcomers
  rintro ⟨r₁, w₁⟩ ⟨done, walks, showing⟩
  have ready : Ready container before after id share ⟨r₁, w₁⟩ := showing.ready
  have shared : r₁.share = r.share := ready.share.trans h.share.symm
  have definition : r.definition = r₁.definition := h.definition.trans ready.definition.symm
  refine (trim_ends ready showing.attached).mono (fun _ hf => hf) (fun _ f hf newcomers => ?_)
    (fun _ _ hs newcomers => .of_givenUp hs) _ ⟨rfl, rfl⟩
  obtain ⟨r₂, w₂⟩ := f
  obtain ⟨settled, trimmed⟩ := hf
  have inStep := showing.inStep walks shared trimmed definition
  exact ⟨settled.welcomed newcomers, inStep.1, inStep.2, inStep.3, inStep.4, inStep.5⟩

/-! ## Sequences of patches -/

/-- A patch can be made: the block stands before the child of the container that is its anchor, and
the instances in the pool of the definition are distinct, without a parent and held nowhere else. -/
structure Due (container : NodeId) (before after : List NodeId) (f : Focus Sequential) : Prop where
  children : f.world.document.children container
    = before ++ (f.held.instances.take f.held.attached).filterMap f.world.root? ++ after
  stocked : f.world.Stocked container (before ++ after) f.held.definition f.held.instances
  spare : f.world.Orphaned f.held.definition []

/-- The roots of the attached instances stand in order as one block between the foreign nodes, and
the root of every other instance has no parent. -/
structure Placed (container : NodeId) (before after : List NodeId) (f : Focus Sequential) :
    Prop where
  attached : f.held.attached ≤ f.held.instances.length
  block : ∃ roots, (f.held.instances.take f.held.attached).map f.world.root? = roots.map some ∧
    f.world.document.children container = before ++ roots ++ after
  others : ∀ i ∈ f.held.instances.drop f.held.attached,
    ∃ root, f.world.root? i = some root ∧ f.world.document.parent? root = none

/-- A settled repeater for which another patch is due is ready for it. -/
theorem Settled.ready {before' after' : List NodeId} {f : Focus Sequential}
    (h : Settled container before after id share f) (split : before' ++ after' = before ++ after)
    (due : Due container before' after' f) : Ready container before' after' id share f where
  definition := h.definition
  share := h.share
  fits := h.fits
  block := { h.block with tenants := by rw [split]; exact h.block.tenants, children := due.children }
  stocked := h.definition ▸ due.stocked
  unattached :=
    { pooled := h.definition ▸ due.spare.pooled
      orphan := fun i hi => (List.mem_append.mp hi).elim (h.block.loose i) fun hi =>
        due.spare.orphan i (by rwa [List.nil_append, h.definition]) }

/-- One more patch leaves the repeater settled, unless the run is given up. -/
theorem Settled.patch_ends {before' after' : List NodeId} {f : Focus Sequential}
    (h : Settled container before after id share f) (split : before' ++ after' = before ++ after)
    (due : Due container before' after' f) {items : List Value} {controller : Controller}
    (quiet : Unnoticed below library container (before ++ after) after'.head? controller 0 items f) :
    Ends (· = f)
      (patch (Engine.above (fun _ => below) library) container after'.head? items controller)
      (fun _ g => Settled container before' after' id share g ∧
        InStep (Engine.above (fun _ => below) library) container after'.head? controller items f g)
      (Failing (Settled container before' after' id share)) := by
  rw [← split] at quiet
  exact Sequential.patch_ends library (h.ready split due) quiet

/-- A settled repeater is placed. -/
theorem Settled.placed {f : Focus Sequential} (h : Settled container before after id share f) :
    Placed container before after f where
  attached := h.fits
  block := by
    refine ⟨_, ?_, h.block.children⟩
    have present := h.block.tenants.present
    generalize f.held.instances.take f.held.attached = shown at present
    induction shown with
    | nil => rfl
    | cons i shown ih =>
      obtain ⟨-, root, hroot, -⟩ := present i (by simp)
      rw [List.map_cons, List.filterMap_cons, hroot, List.map_cons,
        ih fun j hj => present j (List.mem_cons_of_mem i hj)]
  others i hi := by
    obtain ⟨-, root, hroot, -⟩ := h.block.tenants.present i (List.mem_append_right _ hi)
    exact ⟨root, hroot, h.block.loose i hi root hroot⟩

/-- Whether what the walk of a repeater by position comes to is quiet. -/
def unnoticed? (below : Engine) (library : Library) (container : NodeId)
    (foreign : List NodeId) (anchor : Option NodeId) (controller : Controller) :
    (position : Nat) → List Value → Focus Sequential → Bool
  | _, [], _ => true
  | position, item :: rest, f =>
    below.servesQuietly? container f.held.definition
      (World.kept? container foreign f.held.definition f.held.attached) f.held.share f.held.instances
      f.held.instances[position]? item controller f.world &&
    match showItem (.above (fun _ => below) library) container anchor controller position item f with
    | .ok _ f' => unnoticed? below library container foreign anchor controller (position + 1) rest f'
    | .error _ _ => true

end Sequential

end ComponentView
