import ComponentView.Proofs.Retirement
import ComponentView.Engine.Nested

/-! # The tenants of a container

A repeater and the pool that it takes from each hold instances of their own. `World.Tenants` says
that these are apart from each other and from the container, and `World.Stocked` that the roots of
the spare ones are not in it. A run of the engine is quiet about the container if it does not edit it
and leaves the tenants what they are, whether it ends or fails (`Engine.RendersQuietly`,
`Engine.MakesQuietly`). If the runs that an acquisition comes to are quiet, what it acquires is a new
tenant (`Engine.AcquiresQuietly.ends`). -/

namespace ComponentView

namespace World

/-- The instances are distinct and not held by an operation, and none of their trees, nor of what
they hold, reaches the container; these trees reach a foreign node or the root of one of the
instances only where it is their own root. -/
structure Tenants (container : NodeId) (foreign : List NodeId) (rows : List InstanceId)
    (w : World) : Prop where
  nodup : rows.Nodup
  present : ∀ i ∈ rows, i ∉ w.busy ∧ ∃ root, w.root? i = some root ∧ root < w.document.size
  distinct : ∀ i ∈ rows, ∀ j ∈ rows, w.root? i = w.root? j → i = j
  outside : ∀ i ∈ rows, ∀ j root, w.Holds i j → w.root? j = some root →
    ¬ w.document.Below root container
  others : ∀ i ∈ rows, ∀ j root, w.Holds i j → w.root? j = some root →
    ∀ c, (c ∈ foreign ∨ ∃ k ∈ rows, w.root? k = some c) → w.document.Below root c →
      j = i ∧ c = root

namespace Tenants

variable {container : NodeId} {foreign : List NodeId} {rows : List InstanceId} {w later : World}

/-- Fewer instances are tenants, too. -/
theorem sublist (h : w.Tenants container foreign rows) {fewer : List InstanceId}
    (hs : fewer.Sublist rows) : w.Tenants container foreign fewer where
  nodup := h.nodup.sublist hs
  present i hi := h.present i (hs.subset hi)
  distinct i hi j hj := h.distinct i (hs.subset hi) j (hs.subset hj)
  outside i hi := h.outside i (hs.subset hi)
  others i hi j root hj hr c hc := h.others i (hs.subset hi) j root hj hr c
    (hc.imp_right fun ⟨k, hk, hr⟩ => ⟨k, hs.subset hk, hr⟩)

/-- The order of the tenants does not matter. -/
theorem perm (h : w.Tenants container foreign rows) {other : List InstanceId}
    (hp : rows.Perm other) : w.Tenants container foreign other where
  nodup := hp.nodup_iff.mp h.nodup
  present i hi := h.present i (hp.mem_iff.mpr hi)
  distinct i hi j hj := h.distinct i (hp.mem_iff.mpr hi) j (hp.mem_iff.mpr hj)
  outside i hi := h.outside i (hp.mem_iff.mpr hi)
  others i hi j root hj hr c hc := h.others i (hp.mem_iff.mpr hi) j root hj hr c
    (hc.imp_right fun ⟨k, hk, hr⟩ => ⟨k, hp.mem_iff.mpr hk, hr⟩)

/-- Tenants stay tenants where roots stay, and no more is held or below. -/
theorem of_below (h : w.Tenants container foreign rows)
    (roots : ∀ i, later.root? i = w.root? i) (holds : ∀ i j, later.Holds i j → w.Holds i j)
    (busy : later.busy = w.busy) (size : later.document.size = w.document.size)
    (below : ∀ i ∈ rows, ∀ j root, w.Holds i j → w.root? j = some root →
      ∀ c, later.document.Below root c → w.document.Below root c) :
    later.Tenants container foreign rows where
  nodup := h.nodup
  present i hi := by
    obtain ⟨hb, root, hroot, hlt⟩ := h.present i hi
    exact ⟨busy ▸ hb, root, by rw [roots, hroot], size ▸ hlt⟩
  distinct i hi j hj he := h.distinct i hi j hj (by rwa [roots, roots] at he)
  outside i hi j root hj hr hb := by
    rw [roots] at hr
    have hj := holds i j hj
    exact h.outside i hi j root hj hr (below i hi j root hj hr container hb)
  others i hi j root hj hr c hc hb := by
    rw [roots] at hr
    have hj := holds i j hj
    refine h.others i hi j root hj hr c ?_ (below i hi j root hj hr c hb)
    exact hc.imp_right fun ⟨k, hk, hr⟩ => ⟨k, hk, by rwa [roots] at hr⟩

/-- A node is put into the container. -/
theorem of_insertBefore (h : w.Tenants container foreign rows) (root : NodeId)
    (reference : Option NodeId) :
    Tenants container foreign rows
      { w with document := w.document.insertBefore container root reference } := by
  refine h.of_below (fun _ => rfl) (fun _ _ hj => hj) rfl (Document.size_insertBefore ..) ?_
  exact fun i hi j root hj hr c => .of_insertBefore (h.outside i hi j root hj hr)

/-- Nodes have only lost children. -/
theorem of_document (h : w.Tenants container foreign rows) {document : Document Listener}
    (subset : ∀ q, document.children q ⊆ w.document.children q)
    (size : document.size = w.document.size) :
    Tenants container foreign rows { w with document } :=
  h.of_below (fun _ => rfl) (fun _ _ hj => hj) rfl size fun _ _ _ _ _ _ _ => .of_subset subset

/-- What spares the container leaves it its tenants. -/
theorem spares (h : w.Tenants container foreign rows) (hs : Spares container w later)
    (busy : later.busy = w.busy) : later.Tenants container foreign rows :=
  h.of_below hs.root? (fun _ _ => hs.holds) busy hs.size
    fun _ _ _ _ _ _ _ => .of_subset hs.below

/-- What a tenant holds is apart from the container while its root is not there. -/
theorem apart (h : w.Tenants container foreign rows) {i : InstanceId} (hi : i ∈ rows)
    (linked : ∀ c, w.document.parent? c = some container ↔ c ∈ w.document.children container)
    (known : ∀ c ∈ w.document.children container, c ∈ foreign ∨ ∃ k ∈ rows, w.root? k = some c)
    (hroot : ∀ root, w.root? i = some root → root ∉ w.document.children container) :
    w.Apart container (w.Holds i) where
  linked := linked
  held j inst hj hinst k hk := .tail hj ⟨inst, hinst, hk⟩
  unreached j root hj hr := by
    refine ⟨h.outside i hi j root hj hr, fun c hc hb => ?_⟩
    obtain ⟨rfl, rfl⟩ := h.others i hi j root hj hr c (known c hc) hb
    exact hroot c hr hc

end Tenants

/-- The instances of a repeater and the spare instances of its definition are tenants of the
container; the roots of the spare ones are not in it. -/
structure Stocked (container : NodeId) (foreign : List NodeId) (id : DefinitionId)
    (rows : List InstanceId) (w : World) : Prop where
  tenants : w.Tenants container foreign (rows ++ w.pool id)
  spare : ∀ i ∈ w.pool id, ∀ root, w.root? i = some root → root ∉ w.document.children container

/-- From `w` to `later` the container and the roots of a repeater stay as they are. -/
structure Undisturbed (container : NodeId) (rows : List InstanceId) (w later : World) : Prop where
  children : later.document.children container = w.document.children container
  parent : ∀ c, later.document.parent? c = some container ↔ w.document.parent? c = some container
  size : w.document.size ≤ later.document.size
  busy : later.busy = w.busy
  roots : ∀ i ∈ rows, later.root? i = w.root? i

section

variable {container : NodeId} {foreign : List NodeId} {id : DefinitionId} {rows : List InstanceId}
  {w later : World}

namespace Stocked

/-- With fewer rows no less is said of the pool. -/
theorem sublist (h : w.Stocked container foreign id rows) {fewer : List InstanceId}
    (hs : fewer.Sublist rows) : w.Stocked container foreign id fewer where
  tenants := h.tenants.sublist (hs.append_right _)
  spare := h.spare

/-- Only the document, the instances, the pools and what is held matter. -/
theorem congr (h : w.Stocked container foreign id rows) (document : later.document = w.document)
    (instances : later.instances = w.instances) (pools : later.pools = w.pools)
    (busy : later.busy = w.busy) : later.Stocked container foreign id rows := by
  have pool : later.pool id = w.pool id := by rw [World.pool, pools, World.pool]
  have roots (i : InstanceId) : later.root? i = w.root? i := by rw [root?, instances, root?]
  refine ⟨?_, ?_⟩
  · rw [pool]
    refine h.tenants.of_below roots (fun i j hj => ?_) busy (by rw [document])
      fun _ _ _ _ _ _ _ hb => document ▸ hb
    rw [Holds] at hj ⊢
    rwa [instances] at hj
  · rw [pool, document]
    exact fun i hi root hr => h.spare i hi root (by rwa [roots] at hr)

/-- The root of a row is put into the container. -/
theorem of_insertBefore (h : w.Stocked container foreign id rows) {i : InstanceId} (hi : i ∈ rows)
    {root : NodeId} (hroot : w.root? i = some root) (reference : Option NodeId) :
    Stocked container foreign id rows
      { w with document := w.document.insertBefore container root reference } := by
  refine ⟨h.tenants.of_insertBefore root reference, fun j hj x hx hc => ?_⟩
  rcases Document.mem_children_insertBefore hc with ⟨-, rfl⟩ | hc
  · have hij := h.tenants.distinct i (List.mem_append_left _ hi) j (List.mem_append_right _ hj)
      (hroot.trans hx.symm)
    exact (List.nodup_append.mp h.tenants.nodup).2.2 i hi j hj hij
  · exact h.spare j hj x hx (Document.children_without_subset root container hc)

/-- The spare instance that was returned last becomes a row. -/
theorem pop (h : w.Stocked container foreign id rows) {i : InstanceId} {rest : List InstanceId}
    (hp : w.pool id = i :: rest) :
    (w.setPool id rest).Stocked container foreign id (rows ++ [i]) := by
  have pool : (w.setPool id rest).pool id = rest := by
    unfold World.pool World.setPool
    unfold World.pool at hp
    cases hi : w.pools[id]? with
    | none => simp [hi] at hp
    | some spare => simp [Array.getElem?_modify, hi]
  have rows : rows ++ [i] ++ rest = rows ++ w.pool id := by simp [hp]
  obtain ⟨tenants, spare⟩ := h
  refine ⟨?_, ?_⟩
  · rw [pool, rows]
    exact ⟨tenants.1, tenants.2, tenants.3, tenants.4, tenants.5⟩
  · rw [pool]
    exact fun j hj => spare j (hp ▸ List.mem_cons_of_mem i hj)

end Stocked

/-- What is undisturbed with more rows is so with fewer. -/
theorem Undisturbed.sublist (h : Undisturbed container rows w later) {fewer : List InstanceId}
    (hs : fewer.Sublist rows) : Undisturbed container fewer w later :=
  ⟨h.children, h.parent, h.size, h.busy, fun i hi => h.roots i (hs.subset hi)⟩

/-- Only the document, the instances and what is held matter. -/
theorem Undisturbed.congr {v v' : World} (h : Undisturbed container rows v v')
    (document : v.document = w.document) (instances : v.instances = w.instances)
    (busy : v.busy = w.busy) (document' : later.document = v'.document)
    (instances' : later.instances = v'.instances) (busy' : later.busy = v'.busy) :
    Undisturbed container rows w later where
  children := by rw [document', h.children, document]
  parent c := by rw [document', h.parent, document]
  size := by rw [document', ← document]; exact h.size
  busy := by rw [busy', h.busy, busy]
  roots i hi := by
    have := h.roots i hi
    rwa [World.root?, World.root?, ← instances', instances] at this

/-- The text is added to the log. -/
def logged (text : String) (w : World) : World :=
  { w with journal := w.journal ++ [.log .debug text] }

end

end World

/-- A definition is found, or the run is given up. -/
theorem Library.definition_ends {library : Library} {id : DefinitionId} {P : World → Prop} :
    Ends P (library.definition id) (fun d v => library[id]? = some d ∧ P v)
      fun stop _ => stop.Barred :=
  .definition fun _ _ => ⟨_, rfl, nofun⟩

/-- Whether some operation of an engine stops for a reason. -/
def Engine.Stops (engine : Engine) (stop : Stop) : Prop :=
  (∃ i props controller w later, engine.render i props controller w = .error stop later) ∨
    ∃ id share props controller w later,
      engine.acquire id share props controller w = .error stop later

/-! ## Quiet runs -/

/-- Something that is said of the rows of a container and of the spare instances of a definition:
they are tenants, and a spare one that is taken is a row like the others. -/
structure World.Rule (container : NodeId) (foreign : List NodeId) (id : DefinitionId)
    (S : List InstanceId → World → Prop) : Prop where
  stocked : ∀ {rows w}, S rows w → w.Stocked container foreign id rows
  congr : ∀ {rows} {w later : World}, S rows w → later.document = w.document →
    later.instances = w.instances → later.pools = w.pools → later.busy = w.busy → S rows later
  pop : ∀ {rows w i rest}, S rows w → w.pool id = i :: rest → S (rows ++ [i]) (w.setPool id rest)
  fewer : ∀ {rows v w i}, S rows v → S (rows ++ [i]) w → S rows w

/-- That they are tenants is such a rule. -/
theorem World.rule_stocked (container : NodeId) (foreign : List NodeId) (id : DefinitionId) :
    Rule container foreign id fun rows w => w.Stocked container foreign id rows where
  stocked h := h
  congr h := h.congr
  pop h := h.pop
  fewer _ h := h.sublist (List.sublist_append_left ..)

namespace Engine

variable (below : Engine) (container : NodeId) (id : DefinitionId)
  (S : List InstanceId → World → Prop)

/-- The render of a row, at this world, leaves the container alone and the rows as the rule says,
whether it ends or fails. -/
def RendersQuietly (rows : List InstanceId) (i : InstanceId) (props : Value)
    (controller : Controller) (w : World) : Prop :=
  S rows w → Ends (· = w) (Run.hold i (Instance.render below props controller))
    (fun _ later => World.Undisturbed container rows w later ∧ S rows later)
    fun stop later => stop.GivenUp ∨ World.Undisturbed container rows w later ∧ S rows later

/-- The construction of an instance, at this world, leaves the container alone and the rows as the
rule says, whether it ends or fails. If it ends, the new instance is a row whose root is not in the
container. -/
def MakesQuietly (rows : List InstanceId) (props : Value) (controller : Controller) (w : World) :
    Prop :=
  S rows w → Ends (· = w) (Run.construct below id props controller)
    (fun i later => World.Undisturbed container rows w later ∧ S (rows ++ [i]) later ∧
      ∀ root, later.root? i = some root → root ∉ later.document.children container)
    fun stop later => stop.GivenUp ∨ World.Undisturbed container rows w later ∧ S rows later

/-- What an acquisition comes to, at this world, is quiet: the render of the spare instance that is
taken, or the construction of a new one. -/
structure AcquiresQuietly (share : Bool) (rows : List InstanceId) (props : Value)
    (controller : Controller) (w : World) : Prop where
  again : ∀ d i rest, below.library[id]? = some d → share = true → w.pool id = i :: rest →
    below.RendersQuietly container S (rows ++ [i]) i props controller
      ((w.setPool id rest).logged (d.name ++ ": reusing pooled instance"))
  new : ∀ d, below.library[id]? = some d → (share = true → w.pool id = []) →
    below.MakesQuietly container id S rows props controller
      (w.logged (d.name ++ ": constructing instance"))

/-- What is done for an item, at this world, is quiet: the render of the instance that is there for
it, or else the acquisition of one. -/
def ServesQuietly (share : Bool) (rows : List InstanceId) (there : Option InstanceId) (props : Value)
    (controller : Controller) (w : World) : Prop :=
  match there with
  | some i => below.RendersQuietly container S rows i props controller w
  | none => below.AcquiresQuietly container id S share rows props controller w

/-- The instance has been rendered with the item: it is the one that was there for it, or else it has
been acquired. -/
def Serves (engine : Engine) (id : DefinitionId) (share : Bool) (there : Option InstanceId)
    (item : Value) (controller : Controller) (w : World) (i : InstanceId) : Prop :=
  match there with
  | some j => j = i ∧ ∃ stats later, engine.render i item controller w = .ok stats later
  | none => ∃ later, engine.acquire id share item controller w = .ok i later

variable {below container id S} {foreign : List NodeId} {rows : List InstanceId} {w : World}

/-- The spare instance that was returned last is taken, if there is one. -/
theorem popPool_ends {E : Stop → World → Prop} :
    Ends (· = w) (Run.popPool id) (fun spare v => spare = none ∧ v = w ∧ w.pool id = [] ∨
      ∃ i rest, spare = some i ∧ w.pool id = i :: rest ∧ v = w.setPool id rest) E := by
  refine .modifyGet ?_
  rintro v rfl
  cases hp : v.pool id with
  | nil => exact Or.inl ⟨rfl, rfl, rfl⟩
  | cons i rest => exact Or.inr ⟨i, rest, rfl, rfl, rfl⟩

/-- What is acquired quietly is a new row whose root is not in the container. -/
theorem AcquiresQuietly.ends (library : Library) (rule : World.Rule container foreign id S)
    {share : Bool} {props : Value} {controller : Controller}
    (quiet : below.AcquiresQuietly container id S share rows props controller w)
    (h : S rows w) :
    Ends (· = w) ((Engine.above (fun _ => below) library).acquire id share props controller)
      (fun i later => World.Undisturbed container rows w later ∧ S (rows ++ [i]) later ∧
        ∀ root, later.root? i = some root → root ∉ later.document.children container)
      fun stop later => stop.GivenUp ∨ World.Undisturbed container rows w later ∧ S rows later := by
  show Ends _ (Run.acquire below id share props controller) _ _
  refine (Library.definition_ends.mono (fun _ hv => hv) (fun _ _ hv => hv)
    fun _ _ hs => Or.inl hs.givenUp).bind fun d => .assume fun found => ?_
  -- Without a spare instance a new one is made.
  have fresh (empty : share = true → w.pool id = []) : Ends (· = w) (do
      Run.log .debug (d.name ++ ": constructing instance")
      Run.construct below id props controller)
      (fun i later => World.Undisturbed container rows w later ∧ S (rows ++ [i]) later ∧
        ∀ root, later.root? i = some root → root ∉ later.document.children container)
      fun stop later => stop.GivenUp ∨ World.Undisturbed container rows w later ∧ S rows later := by
    rintro v rfl
    refine (quiet.new d found empty (rule.congr h rfl rfl rfl rfl)).mono (fun _ hv => hv) ?_ ?_ _ rfl
    · exact fun i later hl => ⟨hl.1.congr rfl rfl rfl rfl rfl rfl, hl.2⟩
    · exact fun stop later hl => hl.imp_right fun hl => ⟨hl.1.congr rfl rfl rfl rfl rfl rfl, hl.2⟩
  cases share with
  | false => exact fresh nofun
  | true =>
    refine popPool_ends.bind fun spare => ?_
    cases spare with
    | none =>
      rintro v (⟨-, rfl, empty⟩ | ⟨_, _, hs, _⟩)
      · exact fresh (fun _ => empty) _ rfl
      · cases hs
    | some i =>
      rintro v (⟨hs, -⟩ | ⟨i', rest, hs, hp, rfl⟩)
      · cases hs
      · obtain rfl := Option.some.inj hs
        have hi : i ∈ w.pool id := hp ▸ List.mem_cons_self ..
        have render := quiet.again d i rest found rfl hp (rule.congr (rule.pop h hp) rfl rfl rfl rfl)
        have before {later : World} (hu : World.Undisturbed container (rows ++ [i])
            ((w.setPool id rest).logged (d.name ++ ": reusing pooled instance")) later) :
            World.Undisturbed container (rows ++ [i]) w later := hu.congr rfl rfl rfl rfl rfl rfl
        refine Ends.bind (R := _) (render.mono (fun _ hv => hv) (fun _ _ hl => hl) ?_)
          (fun _ => .pure fun later hl => ?_) _ rfl
        · rintro stop later (hg | ⟨hu, hl⟩)
          · exact Or.inl hg
          · exact Or.inr ⟨(before hu).sublist (List.sublist_append_left ..), rule.fewer h hl⟩
        · obtain ⟨hu, hl⟩ := hl
          refine ⟨(before hu).sublist (List.sublist_append_left ..), hl, fun root hr hc => ?_⟩
          rw [(before hu).roots i (List.mem_append_right _ (List.mem_cons_self ..))] at hr
          rw [hu.children] at hc
          exact (rule.stocked h).spare i hi root hr hc

end Engine

end ComponentView
