import ComponentView.Proofs.Document.Covering
import ComponentView.Proofs.Newborns
import ComponentView.Proofs.Slots

/-! # Builds that fail

A build stops because a stub is not known or because a slot leads nowhere, in the instance itself or
in a child at any depth. By then nodes and children have come in. What has come in is covered by the
root of the instance and the roots of the children made so far and of all below these, wherever they
stand (`World.Bears`), and all of these are released. So the build leaves every node and every pool
as it was (`Run.undone_of_build`), if the document was well-formed before. -/

namespace ComponentView

/-- Why an instance cannot be built: a stub is not known, or a slot leads nowhere. -/
def Fault.OfBuild : Fault → Prop
  | unknownStub .. | missingElement .. => True
  | _ => False

namespace World

/-- All that was there is as it was: what is kept under each index of the document, the instances,
the pools and everything else. Only instances have been added. -/
structure Restored (w later : World) : Prop where
  rest : later = { w with document := later.document, instances := later.instances }
  instances : ∀ {i : InstanceId} {inst}, w.instances[i]? = some inst →
    later.instances[i]? = some inst
  wellFormed : later.document.WellFormed
  node : ∀ i, later.document.node i = w.document.node i

/-- From `w` to `later` newborn instances come in, `heads` and what is below them, and nodes, which
are covered by `X` and the roots of these instances. -/
structure Bears (w later : World) (X : Set NodeId) (heads : List InstanceId) : Prop where
  rest : later = { w with document := later.document, instances := later.instances }
  instances : ∀ {i : InstanceId} {inst}, w.instances[i]? = some inst →
    later.instances[i]? = some inst
  document : Document.Extends w.document later.document []
  newborn : ∀ i ∈ heads, later.Newborn w.instances.size i
  new : ∀ r ∈ X ∪ later.roots (later.below heads), w.document.isLive r = false
  covers : w.document.Covers later.document (X ∪ later.roots (later.below heads))

/-- No instance that is held is yet to come. -/
def HoldsKnown (w : World) : Prop := ∀ i ∈ w.busy, i < w.instances.size

variable {w mid later : World} {X : Set NodeId} {heads : List InstanceId}

namespace Bears

/-- No instance is lost while others are borne. -/
theorem size_le (h : w.Bears later X heads) : w.instances.size ≤ later.instances.size := by
  by_contra hlt
  have hlt := Nat.lt_of_not_le hlt
  have := (Array.getElem?_eq_some_iff.mp (h.instances (Array.getElem?_eq_getElem hlt))).1
  exact Nat.lt_irrefl _ this

/-- Nobody is held or let go while others are borne. -/
theorem busy (h : w.Bears later X heads) : later.busy = w.busy := by rw [h.rest]

/-- The same instances are held, and they are still known. -/
theorem holdsKnown (h : w.Bears later X heads) (known : w.HoldsKnown) : later.HoldsKnown := by
  intro i hi
  rw [h.busy] at hi
  exact (known i hi).trans_le h.size_le

/-- The document may change as long as what is new stays covered. -/
theorem onDocument (h : w.Bears later X heads) {document : Document Listener}
    (grown : Document.Extends w.document document [])
    (covers : w.document.Covers document (X ∪ later.roots (later.below heads))) :
    w.Bears { later with document } X heads where
  rest := by rw [h.rest]
  instances := h.instances
  document := grown
  newborn i hi := (h.newborn i hi).grow id
  new := h.new
  covers := covers

/-- The roots of the heads stay when instances are added. -/
theorem roots_grow (h : w.Bears mid X heads)
    (kept : ∀ {i : InstanceId} {inst}, mid.instances[i]? = some inst →
      later.instances[i]? = some inst) :
    later.roots (later.below heads) = mid.roots (mid.below heads) := by
  rw [roots_below, roots_below]
  exact Set.iUnion₂_congr fun i hi => (h.newborn i hi).roots_grow kept

/-- A build that has failed in between changes nothing. -/
theorem restored (h : w.Bears mid X heads) (restored : mid.Restored later) :
    w.Bears later X heads := by
  have roots := h.roots_grow restored.instances
  have isLive (i : NodeId) : later.document.isLive i = mid.document.isLive i := by
    rw [Document.isLive, restored.node, Document.isLive]
  refine
    { rest := by rw [restored.rest, h.rest]
      instances := fun hi => restored.instances (h.instances hi)
      document := ?_
      newborn := fun i hi => (h.newborn i hi).grow restored.instances
      new := roots.symm ▸ h.new
      covers := ?_ }
  · refine
      { h.document with
        wellFormed := restored.wellFormed
        old := fun hj => ?_
        live := List.forall_mem_nil _
        orphan := List.forall_mem_nil _ }
    rw [restored.node, h.document.old hj]
  · rw [roots]
    refine h.covers.congr isLive fun q => ?_
    rw [Document.children, Document.children, restored.node]
    exact List.Subset.refl _

/-- One more child is built. -/
theorem join (h : w.Bears mid X heads) {i : InstanceId} (born : mid.Bears later ∅ [i]) :
    w.Bears later X (heads ++ [i]) := by
  -- The roots of the heads so far stay, and those of the new child come to them.
  have roots : X ∪ later.roots (later.below (heads ++ [i]))
      = X ∪ mid.roots (mid.below heads) ∪ (∅ ∪ later.roots (later.below [i])) := by
    rw [← h.roots_grow born.instances]
    simp only [roots_below, List.mem_append, Set.iUnion_or, Set.iUnion_union_distrib,
      Set.empty_union, Set.union_assoc]
  refine
    { rest := by rw [born.rest, h.rest]
      instances := fun hi => born.instances (h.instances hi)
      document := h.document.append born.document
      newborn := ?_, new := ?_, covers := ?_ }
  · rw [List.forall_mem_append, List.forall_mem_singleton]
    exact ⟨fun j hj => (h.newborn j hj).grow born.instances,
      (born.newborn i List.mem_cons_self).since h.size_le⟩
  · rw [roots]
    rintro r (hr | hr)
    · exact h.new r hr
    · exact h.document.dead_of_dead (born.new r hr)
  · rw [roots]
    exact h.covers.trans h.document.wellFormed born.document born.covers

/-- When all roots are released, everything is as it was. -/
theorem undo (h : w.Bears later X heads) (wf : w.document.WellFormed) {rs : List NodeId}
    (all : {r | r ∈ rs} = X ∪ later.roots (later.below heads)) :
    w.Restored { later with document := rs.foldl Document.release later.document } := by
  have covers : w.document.Covers later.document {r | r ∈ rs} := all ▸ h.covers
  obtain ⟨wellFormed, node⟩ := h.document.takenBack wf covers fun r hr => h.new r (all ▸ hr)
  exact ⟨by rw [h.rest], h.instances, wellFormed, node⟩

/-- Where no child has come in, one root is to be released. -/
theorem undo_alone {r : NodeId} (h : w.Bears later {r} []) (wf : w.document.WellFormed) :
    w.Restored { later with document := later.document.release r } := by
  have all : {x | x ∈ [r]} = {r} ∪ later.roots (later.below []) := by
    ext x
    simp [roots_below]
  exact h.undo wf all

end Bears

end World

/-- An attempt of something that can only fail ends. -/
theorem Ends.attempt_of_fails {α : Type} {P : World → Prop} {x : Run α} {Q : α → World → Prop}
    {E : Fault → World → Prop}
    (h : Ends P x Q fun stop w => ∃ fault, stop = .fault fault ∧ E fault w) :
    Ends P (Run.attempt x)
      (fun r w => (∀ a, r = .ok a → Q a w) ∧ ∀ fault, r = .error fault → E fault w)
      fun _ _ => False := by
  intro w hw
  have := h w hw
  unfold Run.attempt
  cases hx : x w with
  | ok a later =>
    rw [hx] at this
    exact ⟨fun b hb => Except.ok.inj hb ▸ this, nofun⟩
  | error stop later =>
    rw [hx] at this
    obtain ⟨fault, rfl, failed⟩ := this
    exact ⟨nofun, fun c hc => Except.error.inj hc ▸ failed⟩

namespace Build

/-! ## Entries of the stash -/

/-- The computation fails because something cannot be built, and what has come to be of `w` then is
what `R` says. -/
def Fails (R : World → Prop) (stop : Stop) (later : World) : Prop :=
  ∃ fault : Fault, stop = .fault fault ∧ fault.OfBuild ∧ R later

/-- Less may be said of a failure. -/
theorem Fails.mono {R R' : World → Prop} {stop : Stop} {w : World} (h : Fails R stop w)
    (hr : R w → R' w) : Fails R' stop w := by
  obtain ⟨fault, he, ofBuild, h⟩ := h
  exact ⟨fault, he, ofBuild, hr h⟩

/-- In a well-formed document the computation answers with a newborn instance, or it fails and
everything is as it was. -/
def Clean (x : Run InstanceId) : Prop :=
  ∀ w : World, w.document.WellFormed → w.HoldsKnown → Ends (w = ·) x
    (fun i later => ∃ inst, later.instances[i]? = some inst ∧ w.Gains later inst.root ∧
      w.Bears later ∅ [i])
    (Fails w.Restored)

variable {t : Template} {root : Node} {l : Layout} {f : Nat → Option NodeId} {r : NodeId}
  {w₀ : World} {made : List StashItem} {elements : List NodeId}
  {build : DefinitionId → Run InstanceId}

/-- The entries `made` of the stash are there, with the children among them newborn. -/
structure Rising (l : Layout) (f : Nat → Option NodeId) (r : NodeId) (w₀ : World)
    (made : List StashItem) (elements : List NodeId) (w : World) : Prop where
  seated : Seated l f r w₀ made elements w
  plain : ∀ item ∈ made, item.Plain
  bears : w₀.Bears w {r} (made.filterMap StashItem.child?)

/-- A blank entry is added. -/
theorem Rising.skip {w : World} (h : Rising l f r w₀ made elements w) {item : StashItem}
    (blank : item.Blank) (hk : ∀ slot source b, ¬ l.Plans made.length (.child slot source b)) :
    Rising l f r w₀ (made ++ [item]) elements w where
  seated := h.seated.skip item hk
  plain := List.forall_mem_append.mpr
    ⟨h.plain, List.forall_mem_singleton.mpr (Or.inl blank)⟩
  bears := by
    have none : [item].filterMap StashItem.child? = [] := by
      cases item with
      | child => exact blank.elim
      | _ => rfl
    rw [List.filterMap_append, none, List.append_nil]
    exact h.bears

/-- A newborn child takes the place of the node that stands for it. -/
theorem Rising.place {w later : World} (h : Rising l f r w₀ made elements w) (laid : t.Laid root l)
    (wf : w₀.document.WellFormed) {slot : Nat} {source : ChildSource} {b : Bool}
    (hk : l.Plans made.length (.child slot source b)) {x : NodeId} (hx : elements[slot]? = some x)
    {i : InstanceId} {inst : Instance} (hi : later.instances[i]? = some inst)
    (gains : w.Gains later inst.root) (born : w.Bears later ∅ [i]) :
    Rising l f r w₀ (made ++ [.child i]) (elements.set slot inst.root)
      { later with document := later.document.swap b x inst.root } := by
  have seated := h.seated.place laid.regular wf hk hx hi gains
  refine ⟨seated, List.forall_mem_append.mpr
    ⟨h.plain, List.forall_mem_singleton.mpr (Or.inr ⟨i, rfl⟩)⟩, ?_⟩
  rw [List.filterMap_append]
  have joined := h.bears.join born
  refine joined.onDocument seated.gains.document.forget ?_
  have live := (h.seated.new x (List.mem_of_getElem? hx)).2
  have bare := (h.seated.bare hk (Nat.le_refl _) hx).1
  exact joined.covers.swap gains.document.wellFormed
    (gains.document.makesWay h.seated.gains.document.wellFormed live bare) b

/-- Taking the place of an element puts the root of the child there. -/
theorem takePlace_eq {w : World} {i : InstanceId} {inst : Instance}
    (hi : w.instances[i]? = some inst) (free : i ∉ w.busy) {slot : Nat} {x : NodeId}
    (hx : elements[slot]? = some x) (startsDetached : Bool) :
    takePlace slot startsDetached i elements w = .ok (elements.set slot inst.root)
      { w with document := w.document.swap startsDetached x inst.root } := by
  have root : Run.rootOf i w = .ok inst.root w := bind_ok (Run.look_eq hi free)
  refine (bind_ok root).trans ?_
  rw [hx]
  cases startsDetached <;> rfl

/-- The definition of a child is found, or the stub is not known. -/
theorem sourceOf_fails {P : World → Prop} (d : Definition) (source : ChildSource) :
    Ends P (sourceOf d source) (fun k w => source.refers d = some k ∧ P w) (Fails P) := by
  cases source with
  | definition k => exact .pure fun _ h => ⟨rfl, h⟩
  | stub name =>
    simp only [sourceOf]
    split
    · next k hk => exact .pure fun _ h => ⟨hk, h⟩
    · exact .throw fun _ h => ⟨_, rfl, trivial, h⟩

/-- One more entry of the stash is made. -/
theorem entry_rises {id : DefinitionId} (clean : ∀ k < id, Clean (build k)) (laid : t.Laid root l)
    (wf : w₀.document.WellFormed) (known : w₀.HoldsKnown) (d : Definition) {plan : StashPlan}
    (ranked : ∀ k ∈ plan.refers d, k < id) (hplan : l.stash[made.length]? = some plan) :
    Ends (Rising l f r w₀ made elements) (entry build d elements plan)
      (fun a w => Rising l f r w₀ (made ++ [a.1]) a.2 w)
      (Fails fun w => w₀.Bears w {r} (made.filterMap StashItem.child?)) := by
  have other (hp : ∀ slot source b, plan ≠ .child slot source b) (slot : Nat)
      (source : ChildSource) (b : Bool) : ¬ l.Plans made.length (.child slot source b) := by
    intro hc
    exact hp slot source b (Option.some.inj (hplan.symm.trans (Layout.plans_child.mp hc)))
  cases plan with
  | tracker detached => exact .pure fun w h => h.skip trivial (other nofun)
  | sequential definition share anchors => exact .pure fun w h => h.skip ⟨rfl, rfl⟩ (other nofun)
  | keyed definition key share anchors => exact .pure fun w h => h.skip ⟨rfl, rfl⟩ (other nofun)
  | child slot source startsDetached =>
    have plans := Layout.plans_child.mpr hplan
    refine ((sourceOf_fails d source).mono (fun _ h => h) (fun _ _ h => h) fun _ _ failed =>
      failed.mono Rising.bears).bind fun k => .assume fun hk => .pointwise fun w h => ?_
    -- A child that cannot be built leaves what has come in before it.
    have knows := h.bears.holdsKnown known
    have built := clean k (ranked k hk) w h.seated.gains.document.wellFormed knows
    refine (built.mono (fun _ h => h) (fun _ _ h => h) fun _ _ failed =>
      failed.mono h.bears.restored).bind fun i =>
        .pointwise fun later ⟨inst, hi, gains, born⟩ => ?_
    obtain ⟨n, -, e, owns, -⟩ := laid.regular.child plans
    have hslot : slot < elements.length :=
      h.seated.length ▸ (List.getElem?_eq_some_iff.mp owns).1
    have hx := List.getElem?_eq_getElem hslot
    -- The child has come after all instances that are held.
    have free : i ∉ later.busy := fun hb =>
      Nat.not_lt.mpr (born.newborn i List.mem_cons_self).le (knows i (born.busy ▸ hb))
    rintro _ rfl
    rw [bind_ok (takePlace_eq hi free hx startsDetached)]
    exact h.place laid wf plans hx hi gains born

/-- The children made so far are destroyed and the root is released: all is as it was. -/
theorem entries_undone {w : World} (h : w₀.Bears w {r} (made.filterMap StashItem.child?))
    (wf : w₀.document.WellFormed) (known : w₀.HoldsKnown) {α : Type} {fault : Fault}
    (ofBuild : fault.OfBuild) {Q : α → World → Prop} :
    Ends (w = ·)
      (do
        (made.filterMap StashItem.child?).forM (Run.retire .destroy)
        Run.onDocument (·.release r)
        Run.fail fault)
      Q (Fails w₀.Restored) := by
  obtain ⟨rs, roots, releases⟩ := World.Newborn.forM_releases h.newborn
  have all : {x | x ∈ rs ++ [r]} = {r} ∪ w.roots (w.below (made.filterMap StashItem.child?)) := by
    rw [← roots]
    ext x
    simp [or_comm]
  have undone := h.undo wf all
  rw [List.foldl_append] at undone
  rintro _ rfl
  rw [bind_ok (releases w rfl fun k hk hn => absurd hn (Nat.not_le.mpr (known k (h.busy ▸ hk))))]
  exact ⟨fault, rfl, ofBuild, undone⟩

/-- The rest of the stash is made, or nothing is left of the instance. -/
theorem entries_rise {id : DefinitionId} (clean : ∀ k < id, Clean (build k)) (laid : t.Laid root l)
    (wf : w₀.document.WellFormed) (known : w₀.HoldsKnown) (d : Definition) (made : List StashItem)
    (elements : List NodeId) {plans : List StashPlan} (rest : l.stash.drop made.length = plans)
    (ranked : ∀ plan ∈ plans, ∀ k ∈ plan.refers d, k < id) :
    Ends (Rising l f r w₀ made elements) (entries build d r made elements plans)
      (fun a => Rising l f r w₀ a.1 a.2) (Fails w₀.Restored) := by
  -- By induction on the plans that are left; what is made so far is part of the invariant.
  induction plans generalizing made elements with
  | nil => exact .pure fun w h => h
  | cons plan plans ih =>
    rw [List.forall_mem_cons] at ranked
    have next : l.stash[made.length]? = some plan := by
      rw [← Nat.add_zero made.length, ← List.getElem?_drop, rest]
      rfl
    have one : Ends (Rising l f r w₀ made elements) (entry build d elements plan) _ _ :=
      entry_rises clean laid wf known d ranked.1 next
    refine (one.attempt_of_fails.mono (fun _ h => h) (fun _ _ h => h) fun _ _ no =>
      no.elim).bind fun answer => ?_
    cases answer with
    | ok a =>
      refine (ih (made ++ [a.1]) a.2 ?_ ranked.2).pre fun w h => h.1 a rfl
      rw [List.length_append, List.length_singleton, ← List.drop_drop, rest, List.drop_succ_cons,
        List.drop_zero]
    | error fault =>
      refine .pointwise fun w h => ?_
      obtain ⟨ofBuild, bears⟩ := h.2 fault rfl
      exact entries_undone bears wf known ofBuild

/-! ## Instances -/

/-- A new instance that holds the children made for it is newborn, and its root is one for all. -/
theorem Rising.push {w : World} (h : Rising l f r w₀ made elements w) {inst : Instance}
    (root : inst.root = r) (stash : inst.stash = made) (unmounted : inst.mounted = false) :
    w₀.Bears { w with instances := w.instances.push inst } ∅ [w.instances.size] := by
  subst root stash
  set later : World := { w with instances := w.instances.push inst } with hlater
  have kept {i : InstanceId} {c : Instance} (hi : w.instances[i]? = some c) :
      later.instances[i]? = some c := getElem?_push_of_get hi inst
  have there : later.instances[w.instances.size]? = some inst := Array.getElem?_push_size
  have roots : ∅ ∪ later.roots (later.below [w.instances.size])
      = {inst.root} ∪ w.roots (w.below inst.children) := by
    have below : later.roots (later.below inst.children) = w.roots (w.below inst.children) :=
      h.bears.roots_grow kept
    rw [← below, World.roots_below, Set.empty_union]
    simp only [List.mem_singleton, Set.iUnion_iUnion_eq_left]
    exact World.Newborn.roots_tree there h.plain
  constructor
  · rw [hlater, h.bears.rest]
  · exact fun hi => kept (h.bears.instances hi)
  · exact h.bears.document
  · rw [List.forall_mem_singleton]
    exact .intro there h.bears.size_le unmounted h.plain
      (fun j hj => (h.bears.newborn j hj).lt_size) fun j hj => (h.bears.newborn j hj).grow kept
  · rw [roots]
    exact h.bears.new
  · rw [roots]
    exact h.bears.covers

/-- The instance is taken up, and listens at nodes of its slots. -/
theorem register_bears (t : Template) {inst : Instance} (root : inst.root = r)
    (stash : inst.stash = made) (he : inst.elements = elements) (unmounted : inst.mounted = false) :
    Ends (Rising l f r w₀ made elements) (register t inst)
      (fun i w => w.instances[i]? = some inst ∧ Seated l f r w₀ made elements w ∧ w₀.Bears w ∅ [i])
      fun _ _ => False := by
  subst he
  unfold register
  refine Ends.bind (Q := fun i w => w.instances[i]? = some inst ∧
    Seated l f r w₀ made inst.elements w ∧ w₀.Bears w ∅ [i])
    (.modifyGet fun w h => ⟨by simp, h.seated.push inst, h.push root stash unmounted⟩) fun i => ?_
  refine (Ends.forM fun p _ => ?_).bind fun _ => .pure fun _ h => h
  split
  · next x hx =>
    refine .modify fun w h => ?_
    have seated := h.2.1.listen (List.mem_of_getElem? hx) p.event (.bound i p.handler)
    have same := Document.sameForest_update w.document x
      (f := fun n => { n with listeners := n.listeners ++ [(p.event, .bound i p.handler)] })
      fun _ => ⟨rfl, rfl, rfl⟩
    exact ⟨h.1, seated, h.2.2.onDocument seated.gains.document.forget (h.2.2.covers.same same)⟩
  · exact .pure fun _ h => h

/-- A copy of some markup brings in nodes that its root covers. -/
theorem bears_copy {w : World} (wf : w.document.WellFormed) (m : Markup) :
    w.Bears { w with document := (w.document.instantiate m).1 } {(w.document.instantiate m).2}
      [] := by
  have copied := wf.extends_instantiate m
  refine ⟨rfl, id, copied.forget, List.forall_mem_nil _, ?_, ?_⟩
  · rintro r (rfl | ⟨i, hi, -⟩)
    · exact copied.dead _ List.mem_cons_self
    · simp [World.below] at hi
  · exact (wf.covers_instantiate m).mono Set.subset_union_left

/-- An instance is built, or nothing is left of it. -/
theorem assemble_clean {lib : Library} {id : DefinitionId} (clean : ∀ k < id, Clean (build k))
    {d : Definition} (hd : lib[id]? = some d) (laid : d.template.Laid root l)
    (ranked : ∀ plan ∈ d.template.stash, ∀ k ∈ plan.refers d, k < id) (props : Value)
    (controller : Controller) : Clean (assemble lib build id props controller) := by
  intro w wf known
  obtain ⟨f, copy⟩ := Document.exists_copy wf.toSound root
  rw [← laid.markup] at copy
  have copied := bears_copy wf d.template.markup
  refine assemble_ends hd ⟨rfl, rfl⟩ (fun slot _ => ?_) fun nodes hn => ?_
  · -- Nothing but the copy has come in.
    rintro _ rfl
    exact ⟨_, rfl, trivial, copied.undo_alone wf⟩
  · have start : Rising l f (w.document.instantiate d.template.markup).2 w [] nodes
        { w with document := (w.document.instantiate d.template.markup).1 } :=
      ⟨seated_start laid wf copy (bound_of_bindFrom laid copy hn), List.forall_mem_nil _, copied⟩
    have rest := entries_rise clean laid wf known d [] nodes laid.stash.symm ranked (f := f)
      (r := (w.document.instantiate d.template.markup).2)
    refine (rest.pre ?_).bind fun made => ?_
    · rintro _ rfl
      exact start
    -- Once the stash is made nothing can fail.
    refine ((register_bears d.template rfl rfl rfl rfl).post fun i later registered => ?_).mono
      (fun _ h => h) (fun _ _ h => h) fun _ _ no => no.elim
    obtain ⟨hi, seated, bears⟩ := registered
    exact ⟨_, hi, seated.gains, bears⟩

end Build

namespace Run

/-- Building is clean down to the depth of a definition. -/
theorem clean_buildWithin {lib : Library} (ranked : lib.Ranked)
    (all : ∀ (id : DefinitionId) (d : Definition), lib[id]? = some d →
      ∃ root l, d.template.Laid root l) {depth : Nat} {id : DefinitionId} (deep : id < depth)
    (there : id < lib.length) (props : Value) (controller : Controller) :
    Build.Clean (buildWithin lib depth id props controller) := by
  induction depth generalizing id props controller with
  | zero => exact absurd deep (Nat.not_lt_zero id)
  | succ depth ih =>
    have hd := List.getElem?_eq_getElem there
    obtain ⟨root, l, laid⟩ := all id _ hd
    refine Build.assemble_clean (fun k hk => ?_) hd laid (ranked id _ hd) props controller
    exact ih (Nat.lt_of_lt_of_le hk (Nat.le_of_lt_succ deep)) (hk.trans there) .null none

/-- A build that does not succeed fails because a stub is not known or a slot leads nowhere, for the
instance itself or for a child at any depth; it leaves all nodes, with their links, attributes and
listeners, and all pools as they were before, and nothing listens at an index that was not in use.
An instance is not constructed then. -/
theorem undone_of_build {declarations : List Declaration} {library : Traced Library}
    (defined : Library.define declarations = .ok library) (ranked : Library.Ranked library.value)
    (engine : Engine) (of : engine.library = library.value) {id : DefinitionId}
    (there : id < library.value.length) {w : World} (wf : w.document.WellFormed)
    (known : w.HoldsKnown) {props : Value} {controller : Controller} {stop : Stop} {later : World}
    (failed : build engine.library id props controller w = .error stop later) :
    construct engine id props controller w = .error stop later ∧
      (∃ fault : Fault, stop = .fault fault ∧ fault.OfBuild) ∧ w.Restored later ∧
      later.pools = w.pools ∧
      (∀ i, later.document.isLive i = w.document.isLive i) ∧
      ∀ i, w.document.isLive i = false → (later.document.node i).listeners = [] := by
  have clean := clean_buildWithin ranked (fun _ _ => Library.laid_of_define defined)
    (Nat.lt_succ_self id) there props controller
  obtain ⟨fault, rfl, ofBuild, restored⟩ := (clean w wf known).of_error rfl (of ▸ failed)
  refine ⟨bind_error failed, ⟨fault, rfl, ofBuild⟩, restored, ?_, fun i => ?_, fun i dead => ?_⟩
  · rw [restored.rest]
  · rw [Document.isLive, restored.node, Document.isLive]
  · rw [restored.node, wf.blank dead]

end Run

/-- A card with a badge that is shown, a badge that starts out of sight, and a footer that is not
known. -/
def card : Node :=
  ⟨{ kind := .element "div" }, [
    ⟨{ kind := .element "i", nested := some ⟨0, .props, none, true⟩ }, []⟩,
    ⟨{ kind := .element "i", nested := some ⟨0, .props, none, true⟩,
       visibility := some ⟨.props, false, .detach⟩ }, []⟩,
    ⟨{ kind := .element "i", stub := some ⟨"footer", .props⟩ }, []⟩]⟩

/-- A badge beside a card. -/
def frame : Node :=
  ⟨{ kind := .element "main" }, [
    ⟨{ kind := .element "i", nested := some ⟨0, .props, none, true⟩ }, []⟩,
    ⟨{ kind := .element "i", nested := some ⟨1, .props, none, true⟩ }, []⟩]⟩

/-- The library of the badge, the card and the frame. -/
def frameLibrary : Traced Library :=
  match Library.define
    [{ id := "badge", name := "Badge", origin := .root badge {} },
     { id := "card", name := "Card", origin := .root card {} },
     { id := "frame", name := "Frame", origin := .root frame {} }] with
  | .ok library => library
  | .error _ => ⟨[], []⟩

/-- Beside a badge that is there, a frame cannot be built for want of a footer in its card. Three
badges are there by then; they go again, and the first badge stays. -/
theorem Run.undone_of_frame : ∃ i w later,
    build frameLibrary.value 0 .null none (World.empty 3) = .ok i w ∧
      construct (.ofLibrary frameLibrary.value) 2 .null none w
        = .error (.fault (.unknownStub "Card" "footer")) later ∧
      w.Restored later ∧ later.instances.size = 4 ∧ later.document.liveCount = 1 := by
  obtain ⟨library, h⟩ : ∃ library, Library.define
      [{ id := "badge", name := "Badge", origin := .root badge {} },
       { id := "card", name := "Card", origin := .root card {} },
       { id := "frame", name := "Frame", origin := .root frame {} }] = .ok library :=
    exists_of_isOk (by decide +kernel)
  have same : frameLibrary = library := by rw [frameLibrary, h]
  have defined := same ▸ h
  have ranked : Library.Ranked frameLibrary.value := by decide +kernel
  have length : frameLibrary.value.length = 3 := by decide +kernel
  have run : (match build frameLibrary.value 0 .null none (World.empty 3) with
      | .ok _ w => (match build frameLibrary.value 2 .null none w with
        | .ok _ _ => false
        | .error stop later => decide (stop = .fault (.unknownStub "Card" "footer") ∧
            later.instances.size = 4 ∧ later.document.liveCount = 1))
      | .error _ _ => false) = true := by decide +kernel
  split at run
  · next i w built =>
    split at run
    · cases run
    · next stop later failed =>
      obtain ⟨rfl, size, live⟩ := of_decide_eq_true run
      -- What is known of the world in which the frame is built.
      obtain ⟨inst, hi, gains, bears⟩ := (clean_buildWithin ranked
        (fun _ _ => Library.laid_of_define defined) (Nat.lt_succ_self 0) (length ▸ by decide) .null
        none (World.empty 3) Document.wellFormed_empty (List.forall_mem_nil _)).of_ok rfl built
      have known : w.HoldsKnown := bears.holdsKnown (List.forall_mem_nil _)
      obtain ⟨constructed, -, restored, -⟩ := undone_of_build defined ranked
        (.ofLibrary frameLibrary.value) rfl (length ▸ by decide) gains.document.wellFormed known
        failed
      exact ⟨i, w, later, built, constructed, restored, size, live⟩
  · cases run

end ComponentView
