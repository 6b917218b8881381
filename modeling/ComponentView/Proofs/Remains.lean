import ComponentView.Proofs.Cascade.Tree
import ComponentView.Proofs.Containers
import ComponentView.Proofs.Document.Withering
import ComponentView.Proofs.Stale

/-! # What is left of a destroyed instance

A destroyed instance keeps the numbers of its nodes, and may be dismounted or destroyed again. This goes
through all that it still holds and takes out or releases the root of each. Destroying has released these
roots, and as long as they are gone nothing happens to the document. Rendering and updating what is left
write to nodes that are not live, as long as no number has been given to a new node
(`Session.unchanged_of_remains`). The numbers are free, though, and once that of a root belongs to a new
node, it is that node that is released (`Session.robbed_of_box`). -/

namespace ComponentView

/-! ## Remains -/

namespace World

/-- Of an instance, and of all that it holds at any depth, the root is gone. -/
def Remains (w : World) (i : InstanceId) : Prop :=
  ∀ k ∈ w.tree i, ∀ inst, w.instances[k]? = some inst → w.document.Gone inst.root

/-- The document is as it was, and all that instances in `S` hold is in `S` and has lost its root. -/
structure Faded (d : Document Listener) (S : Set InstanceId) (w : World) : Prop where
  document : w.document = d
  gone : ∀ {k : InstanceId} {inst : Instance}, k ∈ S → w.instances[k]? = some inst → d.Gone inst.root
  held : ∀ {k : InstanceId} {inst : Instance}, k ∈ S → w.instances[k]? = some inst →
    ∀ j ∈ inst.held, j ∈ S

/-- What remains of an instance has faded over its whole tree. -/
theorem Remains.faded {w : World} {i : InstanceId} (h : w.Remains i) :
    w.Faded w.document (w.tree i) where
  document := rfl
  gone hk get := h _ hk _ get
  held hk get _ hj := hk.tail ⟨_, get, hj⟩

/-- An instance among those that have faded is one that remains. -/
theorem Faded.remains {d : Document Listener} {S : Set InstanceId} {w : World} {i : InstanceId}
    (h : w.Faded d S) (hi : i ∈ S) : w.Remains i := by
  intro k hk inst get
  have mem : k ∈ S := by
    clear get
    induction hk with
    | refl => exact hi
    | tail _ holds ih =>
      obtain ⟨_, get, hj⟩ := holds
      exact h.held ih get _ hj
  rw [h.document]
  exact h.gone mem get

end World

/-! ## Putting remains out of use -/

namespace Retire

open World

variable {α : Type} {d : Document Listener} {S : Set InstanceId} {retire : Retire}

/-- Putting instances in `S` out of use leaves the document as it is. -/
def Fades (d : Document Listener) (S : Set InstanceId) (retire : Retire) : Prop :=
  ∀ mode, ∀ i ∈ S, Ends (Faded d S) (retire mode i) (fun _ => Faded d S) fun stop _ => stop.GivenUp

/-- A root that is gone is not taken out of anything. -/
theorem withdraw_fades {x : Run α} {Q : α → World → Prop} {i : InstanceId} (hi : i ∈ S)
    (hx : Ends (Faded d S) x Q fun (stop : Stop) _ => stop.GivenUp) :
    Ends (Faded d S) (do let root ← Run.rootOf i; Run.onDocument (·.detach root); x) Q
      fun (stop : Stop) _ => stop.GivenUp := by
  refine (Ends.rootOf (fun _ _ => ⟨_, rfl⟩) fun _ _ => ⟨_, rfl⟩).bind fun root =>
    Ends.bind (Q := fun _ => Faded d S) (.modify fun w h => ?_) fun _ => hx
  obtain ⟨hr, -, faded⟩ := h
  obtain ⟨inst, get, rfl⟩ := Option.map_eq_some_iff.mp hr
  have same : w.document.detach inst.root = d := by
    rw [faded.document]
    exact (faded.gone hi get).detach
  exact { faded with document := same }

variable (fades : Fades d S retire)

include fades

/-- Giving an instance back does nothing to what has faded. -/
theorem giveBack_fades (id : DefinitionId) {i : InstanceId} (hi : i ∈ S) :
    Ends (Faded d S) (giveBack retire id i) (fun _ => Faded d S) fun stop _ => stop.GivenUp :=
  withdraw_fades hi ((fades .dismount i hi).bind fun _ => .modify fun _ h => { h with })

/-- Dropping a row does nothing to what has faded. -/
theorem drop_fades (id : DefinitionId) (share : Bool) {i : InstanceId} (hi : i ∈ S) :
    Ends (Faded d S) (drop retire id share i) (fun _ => Faded d S) fun stop _ => stop.GivenUp := by
  unfold drop
  split
  · exact giveBack_fades fades id hi
  · exact fades .destroy i hi

/-- Clearing a list of rows does nothing to what has faded. -/
theorem clear_fades (id : DefinitionId) (share : Bool) {is : List InstanceId} (his : ∀ i ∈ is, i ∈ S) :
    Ends (Faded d S) (clear retire id share is) (fun _ => Faded d S) fun stop _ => stop.GivenUp :=
  .forM fun i hi => withdraw_fades (his i hi) (drop_fades fades id share (his i hi))

/-- An entry of a stash holds no more after it was put out of use. -/
theorem entry_fades (mode : Retirement) {item : StashItem} (hitem : ∀ i ∈ item.held, i ∈ S) :
    Ends (Faded d S) (entry retire mode item) (fun later w => later.held ⊆ item.held ∧ w.Faded d S)
      fun stop _ => stop.GivenUp := by
  cases item with
  | tracker t => exact .pure fun _ h => ⟨List.Subset.refl _, h⟩
  | child i =>
    exact (fades mode i (hitem i (List.mem_singleton_self i))).bind fun _ =>
      .pure fun _ h => ⟨List.Subset.refl _, h⟩
  | sequential r =>
    refine Ends.bind (Q := fun later w => later.instances ⊆ r.instances ∧ w.Faded d S) ?_
      fun later => .pure fun _ h => h
    unfold sequential
    split
    · exact (clear_fades fades _ _ hitem).bind fun _ => .pure fun _ h => ⟨List.nil_subset _, h⟩
    · exact (Ends.forM fun i hi => fades .dismount i (hitem i hi)).bind fun _ =>
        .pure fun _ h => ⟨List.Subset.refl _, h⟩
  | keyed r =>
    refine Ends.bind (Q := fun later w => later.instances ⊆ r.instances ∧ w.Faded d S) ?_
      fun later => .pure fun _ h => ⟨List.map_subset _ h.1, h.2⟩
    unfold keyed
    split
    · refine (clear_fades fades _ _ fun i hi => hitem i ?_).bind fun _ =>
        .pure fun _ h => ⟨List.filter_sublist.subset, h⟩
      obtain ⟨key, -, hk⟩ := List.mem_filterMap.mp hi
      exact List.mem_map.mpr ⟨_, Keyed.mem_of_instance? hk, rfl⟩
    · exact (Ends.forM fun i hi => fades .dismount i (hitem i hi)).bind fun _ =>
        .pure fun _ h => ⟨List.Subset.refl _, h⟩

/-- An instance that has lost its root is put out of use, and holds no more afterwards. -/
theorem inPlace_fades (mode : Retirement) {inst : Instance} (gone : d.Gone inst.root)
    (held : ∀ j ∈ inst.held, j ∈ S) :
    Ends (fun f => f.held = inst ∧ f.world.Faded d S) (inPlace retire mode)
      (fun _ f => f.held.root = inst.root ∧ f.held.held ⊆ inst.held ∧ f.world.Faded d S)
      fun (stop : Stop) _ => stop.GivenUp := by
  have items : ∀ item ∈ inst.stash, ∀ j ∈ item.held, j ∈ S := fun item hm j hj =>
    held j (List.mem_flatMap.mpr ⟨item, hm, hj⟩)
  unfold inPlace
  refine .held_bind ?_
  refine (Ends.outside_eq (.mapM fun item hm => entry_fades fades mode (items item hm))).bind
    fun stash => ?_
  have done : Ends (fun f => f.held = inst ∧
      List.Forall₂ (fun item later : StashItem => later.held ⊆ item.held) inst.stash stash ∧
        f.world.Faded d S) (Holding.change fun inst => { inst with stash, mounted := false })
      (fun _ f => f.held.root = inst.root ∧ f.held.held ⊆ inst.held ∧ f.world.Faded d S)
      fun (stop : Stop) _ => stop.GivenUp := by
    refine .change fun a w h => ?_
    obtain ⟨rfl, fewer, faded⟩ := h
    exact ⟨rfl, StashItem.flatMap_held_subset fewer, faded⟩
  split
  · have released : Ends (Faded d S) (Run.onDocument (·.release inst.root)) (fun _ => Faded d S)
        fun (stop : Stop) _ => stop.GivenUp := by
      refine .modify fun w h => ?_
      have same : w.document.release inst.root = d := by
        rw [h.document]
        exact gone.release
      exact { h with document := same }
    exact (Ends.outside_eq (.assume fun fewer => released.post fun _ _ h =>
      (⟨fewer, h⟩ : _ ∧ _))).bind fun _ => done
  · exact done

end Retire

namespace Run

open Retire World

variable {d : Document Listener} {S : Set InstanceId}

/-- However deep a retirement goes, it does nothing to what has faded. -/
theorem retireWithin_fades (depth : Nat) : Fades d S (retireWithin depth) := by
  induction depth with
  | zero => exact fun _ _ _ => .throw fun _ _ => ⟨_, rfl⟩
  | succ depth ih =>
    intro mode i hi
    refine Ends.hold (fun _ _ => ⟨_, rfl⟩) (fun _ _ => ⟨_, rfl⟩) fun w inst hw get _ => ?_
    refine (inPlace_fades ih mode (hw.gone hi get) (hw.held hi get)).mono ?_ (fun _ f hf => ?_)
      fun _ _ h => h
    · rintro _ rfl
      exact ⟨rfl, { hw with }⟩
    · obtain ⟨root, fewer, faded⟩ := hf
      exact
        { document := faded.document
          gone := fun hk hget => by
            rcases eq_or_get_of_put hget with ⟨rfl, rfl⟩ | ⟨-, hget⟩
            · exact root ▸ hw.gone hi get
            · exact faded.gone hk hget
          held := fun hk hget => by
            rcases eq_or_get_of_put hget with ⟨rfl, rfl⟩ | ⟨-, hget⟩
            · exact fun j hj => hw.held hi get j (fewer hj)
            · exact faded.held hk hget }

/-- Putting out of use what is left of an instance leaves the document as it is. -/
theorem retire_fades : Fades d S retire := fun mode i hi =>
  Ends.get.bind fun _ => (retireWithin_fades _ mode i hi).pre fun _ h => h.2

end Run

/-! ## What destroying leaves -/

/-- The rows of a repeater by key are all in its order. -/
def StashItem.Sorted : StashItem → Prop
  | .keyed r => ∀ x ∈ r.instances, x.1 ∈ r.order
  | _ => True

instance : DecidablePred StashItem.Sorted
  | .keyed r => inferInstanceAs (Decidable (∀ x ∈ r.instances, x.1 ∈ r.order))
  | .tracker _ | .child _ | .sequential _ => inferInstanceAs (Decidable True)

namespace World

variable {w later latest : World} {i : InstanceId} {inst : Instance}

/-- From `w` to `later` nodes wither, and instances hold no more than they did, at the same roots. -/
structure Wanes (w later : World) : Prop where
  document : w.document.Withers later.document
  fewer : ∀ {k : InstanceId} {inst' : Instance}, later.instances[k]? = some inst' →
    ∃ inst, w.instances[k]? = some inst ∧ inst'.root = inst.root ∧ inst'.held ⊆ inst.held

/-- So they do, and the same instances are held and stay as they are. -/
structure Spends (w later : World) : Prop extends Wanes w later where
  busy_eq : later.busy = w.busy
  same : ∀ k ∈ w.busy, later.instances[k]? = w.instances[k]?

/-- A change to the document that only withers it spends the world. -/
theorem Spends.of_document {f : Document Listener → Document Listener}
    (h : ∀ d, Document.Withers d (f d)) : w.Spends { w with document := f w.document } where
  document := h _
  fewer get := ⟨_, get, rfl, List.Subset.refl _⟩
  busy_eq := rfl
  same _ _ := rfl

/-- A world that stays as it is is spent. -/
theorem Spends.refl (w : World) : w.Spends w := .of_document Document.Withers.refl

/-- A world that wanes and wanes again has waned. -/
theorem Wanes.trans (h : w.Wanes later) (h' : later.Wanes latest) : w.Wanes latest where
  document := h.document.trans h'.document
  fewer get := by
    obtain ⟨inst', get', root', fewer'⟩ := h'.fewer get
    obtain ⟨inst, get, root, fewer⟩ := h.fewer get'
    exact ⟨inst, get, root'.trans root, List.Subset.trans fewer' fewer⟩

/-- A world that is spent and spent again has been spent. -/
theorem Spends.trans (h : w.Spends later) (h' : later.Spends latest) : w.Spends latest where
  toWanes := h.toWanes.trans h'.toWanes
  busy_eq := h'.busy_eq.trans h.busy_eq
  same k hk := (h'.same k (h.busy_eq ▸ hk)).trans (h.same k hk)

/-- What is left of an instance only becomes less. -/
theorem Remains.wanes (h : w.Remains i) (wanes : w.Wanes later) : later.Remains i := by
  intro k hk inst' get'
  have mem : w.Holds i k := Relation.ReflTransGen.mono (fun j k ⟨inst', get', hm⟩ => by
    obtain ⟨inst, get, -, fewer⟩ := wanes.fewer get'
    exact ⟨inst, get, fewer hm⟩) _ _ hk
  obtain ⟨inst, get, root, -⟩ := wanes.fewer get'
  exact root ▸ wanes.document.gone (h k mem _ get)

/-- An instance remains where its root is gone and all that it holds remains. -/
theorem Remains.of_held (get : w.instances[i]? = some inst) (gone : w.document.Gone inst.root)
    (held : ∀ j ∈ inst.held, w.Remains j) : w.Remains i := by
  intro k hk inst' get'
  rcases Relation.ReflTransGen.cases_head hk with rfl | ⟨j, ⟨inst'', get'', hj⟩, hk⟩
  · obtain rfl := Option.some.inj (get.symm.trans get')
    exact gone
  · obtain rfl := Option.some.inj (get.symm.trans get'')
    exact held j hj k hk _ get'

/-- All rows of repeaters by key are in order, and every root is live or gone. -/
def Trim (w : World) : Prop :=
  ∀ inst ∈ w.instances, (∀ item ∈ inst.stash, item.Sorted) ∧ w.document.Settled inst.root

/-- A world stays trim when its document withers. -/
theorem Trim.of_document (trim : w.Trim) {f : Document Listener → Document Listener}
    (h : ∀ d, Document.Withers d (f d)) : Trim { w with document := f w.document } := fun inst hm =>
  ⟨(trim inst hm).1, (h _).settled (trim inst hm).2⟩

/-- What holds goes on holding as things wane. -/
def Steady (A : World → Prop) : Prop := ∀ w later, A w → w.Spends later → A later

end World

namespace Retire

open World

variable {α : Type} {A : World → Prop} {retire : Retire}

/-- Of instances that have been destroyed only remains are left. -/
def Leaves (mode : Retirement) (is : List InstanceId) (w : World) : Prop :=
  mode = .destroy → ∀ i ∈ is, w.Remains i

/-- What a retirement has left it leaves also of a world that wanes further. -/
theorem Leaves.wanes {mode : Retirement} {is : List InstanceId} {w later : World}
    (h : Leaves mode is w) (wanes : w.Wanes later) : Leaves mode is later :=
  fun hm i hi => (h hm i hi).wanes wanes

/-- Destroying an instance leaves only remains, and putting it out of use makes nothing grow. -/
def Spoils (retire : Retire) : Prop :=
  ∀ mode i (A : World → Prop), Steady A → Ends (fun w => A w ∧ w.Trim) (retire mode i)
    (fun _ w => (mode = .destroy → w.Remains i) ∧ A w ∧ w.Trim) fun stop _ => stop.GivenUp

/-- A change that withers the document leaves the world trim. -/
theorem onDocument_spoils (steady : Steady A) {f : Document Listener → Document Listener}
    (h : ∀ d, Document.Withers d (f d)) : Ends (fun w => A w ∧ w.Trim) (Run.onDocument f)
      (fun _ w => A w ∧ w.Trim) fun (stop : Stop) _ => stop.GivenUp :=
  .modify fun _ hw => ⟨steady _ _ hw.1 (.of_document h), hw.2.of_document h⟩

/-- Taking the root of an instance out of the document first does no harm. -/
theorem withdraw_spoils (steady : Steady A) {x : Run α} {Q : α → World → Prop} {i : InstanceId}
    (hx : Ends (fun w => A w ∧ w.Trim) x Q fun (stop : Stop) _ => stop.GivenUp) :
    Ends (fun w => A w ∧ w.Trim) (do let root ← Run.rootOf i; Run.onDocument (·.detach root); x) Q
      fun (stop : Stop) _ => stop.GivenUp :=
  (Ends.rootOf (fun _ _ => ⟨_, rfl⟩) fun _ _ => ⟨_, rfl⟩).bind fun root =>
    Ends.bind ((onDocument_spoils steady (Document.Withers.detach · root)).pre fun _ h => h.2.2)
      fun _ => hx

variable (spoils : Spoils retire) (steady : Steady A)

include spoils steady

/-- The world stays trim when an instance is given back. -/
theorem giveBack_spoils (id : DefinitionId) (i : InstanceId) :
    Ends (fun w => A w ∧ w.Trim) (giveBack retire id i) (fun _ w => A w ∧ w.Trim)
      fun stop _ => stop.GivenUp :=
  withdraw_spoils steady ((spoils .dismount i A steady).bind fun _ => .modify fun _ h =>
    ⟨steady _ _ h.2.1 { Spends.refl _ with }, h.2.2⟩)

/-- The world stays trim when rows are cleared. -/
theorem clear_spoils (id : DefinitionId) (share : Bool) (is : List InstanceId) :
    Ends (fun w => A w ∧ w.Trim) (clear retire id share is) (fun _ w => A w ∧ w.Trim)
      fun stop _ => stop.GivenUp := by
  refine .forM fun i _ => withdraw_spoils steady ?_
  unfold drop
  split
  · exact giveBack_spoils spoils steady id i
  · exact (spoils .destroy i A steady).post fun _ _ h => h.2

/-- The world stays trim when instances are dismounted. -/
theorem dismountAll_spoils (is : List InstanceId) :
    Ends (fun w => A w ∧ w.Trim) (is.forM (retire .dismount)) (fun _ w => A w ∧ w.Trim)
      fun stop _ => stop.GivenUp :=
  .forM fun i _ => (spoils .dismount i A steady).post fun _ _ h => h.2

/-- Of an entry that is destroyed only children are left: the rows of repeaters go. -/
theorem entry_spoils (mode : Retirement) {item : StashItem} (sorted : item.Sorted) :
    Ends (fun w => A w ∧ w.Trim) (entry retire mode item)
      (fun later w => (later.held ⊆ item.held ∧ later.Sorted) ∧ Leaves mode later.held w ∧
        A w ∧ w.Trim)
      fun stop _ => stop.GivenUp := by
  cases item with
  | tracker t =>
    exact .pure fun _ h => ⟨⟨List.Subset.refl _, trivial⟩, fun _ => List.forall_mem_nil _, h⟩
  | child i =>
    exact (spoils mode i A steady).bind fun _ => .pure fun _ h =>
      ⟨⟨List.Subset.refl _, trivial⟩, fun hm => List.forall_mem_singleton.mpr (h.1 hm), h.2⟩
  | sequential r =>
    have ends : Ends (fun w => A w ∧ w.Trim) (sequential retire mode r) (fun later w =>
        later.instances ⊆ r.instances ∧ (mode = .destroy → later.instances = []) ∧ A w ∧ w.Trim)
        fun stop _ => stop.GivenUp := by
      unfold sequential
      split
      · exact (clear_spoils spoils steady _ _ _).bind fun _ => .pure fun _ h =>
          ⟨List.nil_subset _, fun _ => rfl, h⟩
      · next kept =>
        exact (dismountAll_spoils spoils steady _).bind fun _ => .pure fun _ h =>
          ⟨List.Subset.refl _, fun hm => absurd (.inl hm) kept, h⟩
    refine ends.bind fun later => .pure fun _ h => ⟨⟨h.1, trivial⟩, fun hm => ?_, h.2.2⟩
    rw [StashItem.held, h.2.1 hm]
    exact List.forall_mem_nil _
  | keyed r =>
    have ends : Ends (fun w => A w ∧ w.Trim) (keyed retire mode r) (fun later w =>
        (later.instances ⊆ r.instances ∧ ∀ x ∈ later.instances, x.1 ∈ later.order) ∧
          (mode = .destroy → later.instances = []) ∧ A w ∧ w.Trim)
        fun stop _ => stop.GivenUp := by
      unfold keyed
      split
      · have emptied : r.instances.filter (·.1 ∉ r.order) = [] :=
          List.filter_eq_nil_iff.mpr fun x hx => by simpa using sorted x hx
        refine (clear_spoils spoils steady _ _ _).bind fun _ => .pure fun _ h =>
          ⟨⟨List.filter_sublist.subset, ?_⟩, fun _ => emptied, h⟩
        rw [emptied]
        exact List.forall_mem_nil _
      · next kept =>
        exact (dismountAll_spoils spoils steady _).bind fun _ => .pure fun _ h =>
          ⟨⟨List.Subset.refl _, sorted⟩, fun hm => absurd (.inl hm) kept, h⟩
    refine ends.bind fun later => .pure fun _ h =>
      ⟨⟨List.map_subset _ h.1.1, h.1.2⟩, fun hm => ?_, h.2.2⟩
    rw [StashItem.held, h.2.1 hm]
    exact List.forall_mem_nil _

omit steady in
/-- What is left of earlier entries only becomes less as later ones are put out of use. -/
theorem entries_spoils (mode : Retirement) {items : List StashItem}
    (sorted : ∀ item ∈ items, item.Sorted) {A : World → Prop} (steady : Steady A) :
    Ends (fun w => A w ∧ w.Trim) (items.mapM (entry retire mode))
      (fun later w => (later.flatMap StashItem.held ⊆ items.flatMap StashItem.held ∧
        ∀ item ∈ later, item.Sorted) ∧ Leaves mode (later.flatMap StashItem.held) w ∧ A w ∧ w.Trim)
      fun stop _ => stop.GivenUp := by
  induction items generalizing A with
  | nil => exact .pure fun _ h => ⟨⟨List.nil_subset _, nofun⟩, fun _ => List.forall_mem_nil _, h⟩
  | cons item items ih =>
    rw [List.forall_mem_cons] at sorted
    rw [List.mapM_cons]
    refine (entry_spoils spoils steady mode sorted.1).bind fun later => .assume fun first => ?_
    have steady' : Steady fun w => Leaves mode later.held w ∧ A w :=
      fun _ _ h spends => ⟨h.1.wanes spends.toWanes, steady _ _ h.2 spends⟩
    refine ((ih sorted.2 steady').pre fun _ h => ⟨⟨h.1, h.2.1⟩, h.2.2⟩).bind fun laters =>
      .pure fun _ h => ?_
    obtain ⟨⟨fewer, rest⟩, left, ⟨own, ha⟩, trim⟩ := h
    simp only [List.flatMap_cons]
    refine ⟨⟨List.append_subset.mpr ⟨List.subset_append_of_subset_left _ first.1,
      List.subset_append_of_subset_right _ fewer⟩, List.forall_mem_cons.mpr ⟨first.2, rest⟩⟩,
      fun hm => List.forall_mem_append.mpr ⟨own hm, left hm⟩, ha, trim⟩

/-- A held instance that is put out of use keeps its root and holds no more than before. -/
theorem inPlace_spoils (mode : Retirement) {inst : Instance} (sorted : ∀ item ∈ inst.stash, item.Sorted)
    (settled : ∀ w, A w → w.document.Settled inst.root) :
    Ends (fun f => f.held = inst ∧ A f.world ∧ f.world.Trim) (inPlace retire mode)
      (fun _ f => (f.held.root = inst.root ∧ f.held.held ⊆ inst.held ∧
          ∀ item ∈ f.held.stash, item.Sorted) ∧
        (mode = .destroy → f.world.document.Gone inst.root ∧ ∀ j ∈ f.held.held, f.world.Remains j) ∧
        A f.world ∧ f.world.Trim)
      fun (stop : Stop) _ => stop.GivenUp := by
  unfold inPlace
  refine Ends.held_bind (P := fun w => A w ∧ w.Trim) ?_
  refine (Ends.outside_eq (entries_spoils spoils mode sorted steady)).bind fun stash => ?_
  split
  · have released : Ends (fun w => Leaves mode (stash.flatMap StashItem.held) w ∧ A w ∧ w.Trim)
        (Run.onDocument (·.release inst.root)) (fun _ w => (mode = .destroy →
          w.document.Gone inst.root ∧ ∀ j ∈ stash.flatMap StashItem.held, w.Remains j) ∧ A w ∧ w.Trim)
        fun (stop : Stop) _ => stop.GivenUp := by
      refine .modify fun w h => ?_
      obtain ⟨own, ha, trim⟩ := h
      have withers (d : Document Listener) : d.Withers (d.release inst.root) := .release d _
      have spends := Spends.of_document (w := w) withers
      have trim := trim.of_document withers
      exact ⟨fun hm => ⟨(settled w ha).gone_release, own.wanes spends.toWanes hm⟩,
        steady _ _ ha spends, trim⟩
    refine (Ends.outside_eq (.assume fun fewer => released.post fun _ _ h =>
      (⟨fewer, h⟩ : _ ∧ _))).bind fun _ => .change fun a w h => ?_
    obtain ⟨rfl, ⟨fewer, rest⟩, own, h⟩ := h
    exact ⟨⟨rfl, fewer, rest⟩, own, h⟩
  · next kept =>
    refine .change fun a w h => ?_
    obtain ⟨rfl, ⟨fewer, rest⟩, own, h⟩ := h
    exact ⟨⟨rfl, fewer, rest⟩, fun hm => absurd hm kept, h⟩

end Retire

namespace Run

open Retire World

/-- However deep a retirement goes, of what it destroys only remains are left. -/
theorem retireWithin_spoils (depth : Nat) : Spoils (retireWithin depth) := by
  induction depth with
  | zero => exact fun _ _ _ _ => .throw fun _ _ => ⟨_, rfl⟩
  | succ depth ih =>
    intro mode i A steady
    refine Ends.hold (fun _ _ => ⟨_, rfl⟩) (fun _ _ => ⟨_, rfl⟩) fun w inst hw get free => ?_
    obtain ⟨sorted, settled⟩ := hw.2 inst (Array.mem_of_getElem? get)
    let inner : World := { w with busy := i :: w.busy }
    refine (inPlace_spoils ih (A := inner.Spends) (fun _ _ h h' => h.trans h') mode sorted
      fun v hv => hv.document.settled settled).mono ?_ (fun _ f hf => ?_) fun _ _ h => h
    · rintro _ rfl
      exact ⟨rfl, .refl _, hw.2⟩
    · obtain ⟨⟨root, fewer, rest⟩, own, spends, trim⟩ := hf
      -- It has stayed where it was while it was held.
      have there : f.world.instances[i]? = some inst := (spends.same i List.mem_cons_self).trans get
      have wanes : f.world.Wanes (Run.hold.back i w.busy f) :=
        { document := .refl _
          fewer := fun hj => by
            rcases eq_or_get_of_put hj with ⟨rfl, rfl⟩ | ⟨-, hj⟩
            · exact ⟨inst, there, root, fewer⟩
            · exact ⟨_, hj, rfl, List.Subset.refl _⟩ }
      have back : (Run.hold.back i w.busy f).instances[i]? = some f.held := by
        show (f.world.instances.setIfInBounds i f.held)[i]? = _
        rw [Array.getElem?_setIfInBounds, if_pos rfl, if_pos (Array.getElem?_eq_some_iff.mp there).1]
      refine ⟨fun destroyed => ?_, steady w _ hw.1 ?_, fun inst' hm => ?_⟩
      · obtain ⟨gone, held⟩ := own destroyed
        exact .of_held back (root.symm ▸ gone) fun j hj => (held j hj).wanes wanes
      · exact
          { spends.toWanes.trans wanes with
            busy_eq := rfl
            same := fun k hk => (Array.getElem?_setIfInBounds_ne fun (he : i = k) => free (he ▸ hk)).trans
              (spends.same k (List.mem_cons_of_mem _ hk)) }
      · obtain ⟨k, hk⟩ := Array.mem_iff_getElem?.mp hm
        rcases eq_or_get_of_put hk with ⟨rfl, rfl⟩ | ⟨-, hk⟩
        · exact ⟨rest, root.symm ▸ spends.document.settled settled⟩
        · exact trim inst' (Array.mem_of_getElem? hk)

/-- Destroying an instance leaves only remains. -/
theorem retire_spoils : Spoils retire := fun mode i A steady =>
  Ends.get.bind fun _ => (retireWithin_spoils _ mode i A steady).pre fun _ h => h.2

end Run

/-! ## Instances without live nodes -/

namespace World

variable {w later : World} {i : InstanceId} {S : Set InstanceId} {D : Document Listener → Prop}
  {P : NodeId → List NodeId → Prop}

/-- The instance holds no repeater, and neither does what it holds, at any depth. -/
def Plain (w : World) (i : InstanceId) : Prop :=
  ∀ k ∈ w.tree i, ∀ inst, w.instances[k]? = some inst →
    ∀ item ∈ inst.stash, item.sequential? = none ∧ item.keyed? = none

/-- The nodes of the instance, and of all that it holds at any depth, stand below their roots or are
gone. -/
def Whole (w : World) (i : InstanceId) : Prop :=
  ∀ k ∈ w.tree i, ∀ inst, w.instances[k]? = some inst →
    ∀ x ∈ inst.elements, w.document.Below inst.root x ∨ w.document.Gone x

/-- The nodes of the instance, and of all that it holds at any depth, are stale. -/
def Lifeless (w : World) (i : InstanceId) : Prop :=
  ∀ k ∈ w.tree i, ∀ inst, w.instances[k]? = some inst →
    w.document.Stale inst.root ∧ ∀ x ∈ inst.elements, w.document.Stale x

/-- A plain instance is enclosed by its tree. -/
theorem Plain.encloses (h : w.Plain i) (document : D w.document)
    (nodes : ∀ k ∈ w.tree i, ∀ inst, w.instances[k]? = some inst → P inst.root inst.elements) :
    w.Encloses D P (w.tree i) where
  document := document
  enclosed {k inst} hk get := by
    refine ⟨nodes k hk inst get, fun item hm => ?_⟩
    obtain ⟨sequential, keyed⟩ := h k hk inst get item hm
    cases item with
    | tracker t => trivial
    | child j => exact hk.tail ⟨inst, get, List.mem_flatMap.mpr ⟨_, hm, List.mem_singleton_self j⟩⟩
    | sequential r => cases sequential
    | keyed r => cases keyed

/-- The tree of an enclosed instance is enclosed. -/
theorem Encloses.mem (h : w.Encloses D P S) (hi : i ∈ S) {k : InstanceId} (hk : k ∈ w.tree i) :
    k ∈ S := by
  induction hk with
  | refl => exact hi
  | tail _ holds ih =>
    obtain ⟨inst, get, hj⟩ := holds
    obtain ⟨item, hm, hj⟩ := List.mem_flatMap.mp hj
    have enclosed := (h.enclosed ih get).stash item hm
    cases item with
    | tracker t => cases hj
    | child j => exact List.mem_singleton.mp hj ▸ enclosed
    | _ => exact enclosed.elim

/-- An enclosed instance is plain. -/
theorem Encloses.plain (h : w.Encloses D P S) (hi : i ∈ S) : w.Plain i := by
  intro k hk inst get item hm
  have enclosed := (h.enclosed (h.mem hi hk) get).stash item hm
  cases item with
  | tracker | child => exact ⟨rfl, rfl⟩
  | _ => exact enclosed.elim

/-- Of an enclosed instance that remains nothing is live if its nodes stood below its root. -/
theorem Remains.lifeless (remains : w.Remains i) (wf : w.document.WellFormed) (whole : w.Whole i) :
    w.Lifeless i := by
  intro k hk inst get
  have gone := remains k hk inst get
  have stale {x : NodeId} (h : w.document.Gone x) : w.document.Stale x :=
    ⟨h.dead, fun p hp => nomatch h.loose.symm.trans hp⟩
  refine ⟨stale gone, fun x hx => ?_⟩
  rcases whole k hk inst get x hx with below | gone'
  · exact wf.eq_of_below_gone gone below ▸ stale gone
  · exact stale gone'

end World

/-! ## Late steps -/

namespace Work

variable {α : Type} {D : Document Listener → Prop} {P : NodeId → List NodeId → Prop}
  {S : Set InstanceId} {name : String} {i : InstanceId}

/-- The instance goes by the name, and the world of the session encloses the instances in `S`. -/
def Encloses (D : Document Listener → Prop) (P : NodeId → List NodeId → Prop) (S : Set InstanceId)
    (name : String) (i : InstanceId) (s : Session) : Prop :=
  s.instances.get? name = some i ∧ s.world.Encloses D P S

/-- Whatever becomes of the computation, the world goes on enclosing the instances in `S`. -/
def Retains (D : Document Listener → Prop) (P : NodeId → List NodeId → Prop) (S : Set InstanceId)
    (name : String) (i : InstanceId) (x : Work α) : Prop :=
  Preserves (fun (_ : Unit) => Encloses D P S name i) (fun _ _ => Encloses D P S name i) x

/-- A computation on the world may go on in the session. -/
theorem onWorld_encloses {x : Run α} (h : Run.Encloses D P S x) :
    Retains D P S name i (onWorld x) := by
  rintro _ s ⟨named, hs⟩
  have := h () s.world hs
  unfold onWorld
  cases hx : x s.world <;> rw [hx] at this <;> exact ⟨named, this⟩

/-- The named instance may be worked on. -/
theorem holding_encloses {x : Holding Instance α} (hi : i ∈ S)
    (h : Holding.Encloses (Instance.Enclosed P S) D P S x) : Retains D P S name i (holding name x) := by
  intro _ s hs
  rw [holding_eq hs.1]
  exact onWorld_encloses (.hold hi h) () s hs

/-- The named instance may be put out of use. -/
theorem retire_encloses (releases : ∀ {d root elements}, P root elements → D d → D (d.release root))
    (hi : i ∈ S) (mode : Retirement) : Retains D P S name i
      (do onWorld (Run.retire mode (← named Session.instances name)); return Reply.done) := by
  intro _ s hs
  rw [bind_ok (named_eq Session.instances hs.1)]
  exact (onWorld_encloses (Run.retire_encloses releases mode hi)).bind (fun _ => .pure _) () s hs

end Work

/-- The step renders or updates the named instance, writes to its state, or puts it out of use. -/
def Step.Revisits (name : String) : Step → Prop
  | .onInstance step => match step with
    | .render target .. | .update target | .updateWindow target .. | .updatePart target _
    | .setState target _ | .writeState target .. | .dismount target | .destroy target => target = name
    | _ => False
  | _ => False

open Work in
/-- A step that comes back to a stale instance writes to stale nodes only. -/
theorem InstanceStep.perform_stale {engine : Engine} {lib : Library} {d : Document Listener}
    {N : Set NodeId} {S : Set InstanceId} {name : String} {i : InstanceId} (stale : ∀ x ∈ N, d.Stale x)
    (silent : lib.Silent) (renders : engine.Stale lib d N S) (hi : i ∈ S) {step : InstanceStep}
    (late : Step.Revisits name (.onInstance step)) :
    Work.Retains d.Sustains (Instance.Among N) S name i (step.perform engine) := by
  have releases {later : Document Listener} {root : NodeId} {elements : List NodeId}
      (among : Instance.Among N root elements) (h : d.Sustains later) :
      d.Sustains (later.release root) :=
    h.trans (Document.sustains_release (h.dead root (stale root among.1).1))
  cases step with
  | render target props controller =>
    cases late
    exact (holding_encloses hi (Instance.render_stale stale silent renders _ _)).bind fun _ => .pure _
  | update target =>
    cases late
    exact (holding_encloses hi (Instance.update_stale stale silent renders)).bind fun _ => .pure _
  | updateWindow target start stop =>
    cases late
    exact (holding_encloses hi (Instance.updateWindow_stale stale silent renders _ _)).bind
      fun _ => .pure _
  | updatePart target part =>
    cases late
    exact (holding_encloses hi (Instance.updatePart_stale stale silent renders _)).bind
      fun _ => .pure _
  | setState target value =>
    cases late
    refine (holding_encloses hi (Holding.Encloses.change fun inst h => ?_)).bind fun _ => .pure _
    exact ⟨h.nodes, h.stash⟩
  | writeState target path value =>
    cases late
    refine (holding_encloses hi (Holding.Encloses.held_bind fun inst h => ?_)).bind fun _ => .pure _
    exact Preserves.bind (Holding.Encloses.change fun _ _ => ⟨h.nodes, h.stash⟩) fun _ => .pure _
  | dismount target =>
    cases late
    exact Work.retire_encloses releases hi .dismount
  | destroy target =>
    cases late
    exact Work.retire_encloses releases hi .destroy
  | _ => exact late.elim

/-! ## Sessions -/

namespace Session

variable {s later : Session} {name : String} {i : InstanceId} {report : Report} {mode : Retirement}

/-- The step that puts a named instance out of use. -/
def retirement (name : String) : Retirement → Step
  | .dismount => .onInstance (.dismount name)
  | .destroy => .onInstance (.destroy name)

/-- Putting a named instance out of use makes of the world what it makes of it by itself, and the
library stays. -/
theorem of_retirement {P Q : World → Prop} (named : s.instances.get? name = some i)
    (start : P s.keepNamed.world)
    (retired : Ends P (Run.retire mode i) (fun _ => Q) fun stop _ => stop.GivenUp)
    (run : s.step (retirement name mode) = .ok (report, later)) :
    report.outcome = .ok .done ∧ later.library = s.library ∧
      ∃ w, Q w ∧ later.world = { w with journal := [] } := by
  have performed : (retirement name mode).perform s.engine s.keepNamed =
      (do Work.onWorld (Run.retire mode i); return Reply.done : Work Reply) s.keepNamed := by
    have named : s.keepNamed.instances.get? name = some i := named
    cases mode <;> exact bind_ok (Work.named_eq Session.instances named)
  have ends : Ends (fun later => later.library = s.library ∧ P later.world)
      (do Work.onWorld (Run.retire mode i); return Reply.done)
      (fun reply later => reply = .done ∧ later.library = s.library ∧ Q later.world)
      (Hindered fun _ => False) :=
    ((Work.onWorld_ends (A := fun later => later.library = s.library) (fun _ h => h)
      (retired.failing (R := fun _ => False))).mono (fun _ h => h) (fun _ _ h => h)
        fun _ _ h given => (h given).2).bind fun _ => .pure fun _ h => ⟨rfl, h⟩
  have ended := ends s.keepNamed ⟨rfl, start⟩
  obtain ⟨after, rfl, ⟨reply, ok, hx⟩ | ⟨refusal, o, -, given, hx⟩⟩ := of_step run
  · rw [← performed, hx] at ended
    obtain ⟨rfl, library, hq⟩ := ended
    exact ⟨ok, library, _, hq, rfl⟩
  · rw [← performed, hx] at ended
    exact (ended given).elim

/-- Destroying a named instance leaves the library as it is. -/
theorem library_of_destroy (named : s.instances.get? name = some i) (trim : s.world.Trim)
    (run : s.step (retirement name .destroy) = .ok (report, later)) : later.library = s.library := by
  have spoiled := Run.retire_spoils .destroy i (fun _ => True) fun _ _ _ _ => trivial
  exact (of_retirement named ⟨trivial, trim⟩ spoiled run).2.1

/-! A pad with a note on it, which is destroyed. -/

def noteDeclaration : Declaration where
  id := "note"
  name := "note"
  origin := .root ⟨{ kind := .element "p" }, []⟩ {}

def padDeclaration : Declaration where
  id := "pad"
  name := "pad"
  origin := .root ⟨{ kind := .element "div" }, [
    ⟨{ kind := .element "x-note", nested := some ⟨0, .props, none, false⟩ }, []⟩]⟩ {}

/-- The library of notes and pads. -/
def padLibrary : Traced Library :=
  (Library.define [noteDeclaration, padDeclaration]).toOption.getD ⟨[], []⟩

/-- A pad that has been made. -/
def newPadSession : Session := (start padLibrary).after (.onInstance (.construct "pad" 1 .null none))

/-- A pad that has been made and destroyed. -/
def padSession : Session := newPadSession.after (retirement "pad" .destroy)

/-- A box that is made after that. -/
def boxSession : Session := padSession.after (.onNode (.createElement "box" "div"))

/-- A session in which a step has come back to an enclosed instance encloses it still. -/
theorem encloses_of_step {D : Document Listener → Prop} {P : NodeId → List NodeId → Prop}
    {S : Set InstanceId} {step : Step} (named : s.instances.get? name = some i)
    (encloses : s.world.Encloses D P S) (retains : Work.Retains D P S name i (step.perform s.engine))
    (run : s.step step = .ok (report, later)) : later.world.Encloses D P S := by
  have ends := retains () s.keepNamed ⟨named, { encloses with }⟩
  obtain ⟨after, rfl, ⟨reply, -, hx⟩ | ⟨refusal, o, -, -, hx⟩⟩ := of_step run
  · rw [hx] at ends
    exact { ends.2 with }
  · rw [hx] at ends
    exact { ends.2 with }

/-- If all nodes of a plain instance stand below their roots, they stay there until they are gone with
the roots. -/
theorem whole_of_destroy (named : s.instances.get? name = some i)
    (wf : s.world.document.WellFormed) (whole : s.world.Whole i) (plain : s.world.Plain i)
    (run : s.step (retirement name .destroy) = .ok (report, later)) :
    later.world.document.WellFormed ∧ later.world.Whole i ∧ later.world.Plain i := by
  set R := fun root x => s.world.document.Below root x ∨ s.world.document.Gone x with hR
  set D := fun d : Document Listener => d.WellFormed ∧ ∀ root x, R root x → d.Below root x ∨ d.Gone x
    with hD
  have encloses : s.world.Encloses D (fun root elements => ∀ x ∈ elements, R root x)
      (s.world.tree i) := plain.encloses ⟨wf, fun _ _ h => h⟩ whole
  have top := World.mem_tree_self s.world i
  have after := encloses_of_step named encloses (Work.retire_encloses (fun _ h => ?_) top .destroy) run
  · refine ⟨after.document.1, fun k hk inst get x hx => ?_, after.plain top⟩
    exact after.document.2 _ _ ((after.enclosed (after.mem top hk) get).nodes x hx)
  · refine ⟨h.1.release _, fun root x hx => ?_⟩
    rcases h.2 root x hx with below | gone
    · exact h.1.below_release below _
    · exact .inr ((Document.Withers.release _ _).gone gone)

/-- Destroying a named instance leaves only remains of it, in any session in which the rows of repeaters
by key are all in order and the roots of instances live or gone; and if neither the instance nor what
it holds has a repeater and all their nodes stand below their roots, it leaves them lifeless. Whatever
a session has been through, as long as only remains are left of an instance it may be dismounted or
destroyed again: not a node of the document is changed, moved or released, and only remains are left.
As long as it is lifeless and has no repeater, and components raise no events and publish nothing, it
may also be rendered and updated: no live node is changed, moved or released, no node becomes live, and
the instance stays lifeless. -/
theorem unchanged_of_remains (named : s.instances.get? name = some i) :
    (s.step (retirement name .destroy) = .ok (report, later) → s.world.Trim →
      later.world.Remains i ∧
        (s.world.document.WellFormed → s.world.Whole i → s.world.Plain i →
          later.world.Lifeless i ∧ later.world.Plain i)) ∧
      (s.step (retirement name mode) = .ok (report, later) → s.world.Remains i →
        later.world.document = s.world.document ∧ later.world.Remains i ∧
          report.outcome = .ok .done) ∧
      (∀ {step : Step}, step.Revisits name → s.step step = .ok (report, later) →
        s.library.Silent → s.world.Lifeless i → s.world.Plain i →
          (∀ x, s.world.document.isLive x = true →
            later.world.document.node x = s.world.document.node x) ∧
          (∀ x, s.world.document.isLive x = false → later.world.document.isLive x = false) ∧
            later.world.Lifeless i ∧ later.world.Plain i) := by
  have top := World.mem_tree_self s.world i
  refine ⟨fun run trim => ?_, fun run remains => ?_, fun {step} late run silent lifeless plain => ?_⟩
  · have spoiled := Run.retire_spoils .destroy i (fun _ => True) fun _ _ _ _ => trivial
    obtain ⟨-, -, w, left, world⟩ := of_retirement named ⟨trivial, trim⟩ spoiled run
    have remains : later.world.Remains i := by
      rw [world]
      exact left.1 rfl
    refine ⟨remains, fun wf whole plain => ?_⟩
    obtain ⟨wf, whole, plain⟩ := whole_of_destroy named wf whole plain run
    exact ⟨remains.lifeless wf whole, plain⟩
  · have faded : World.Faded s.world.document (s.world.tree i) s.keepNamed.world :=
      { remains.faded with }
    obtain ⟨ok, -, w, left, world⟩ := of_retirement named faded (Run.retire_fades mode i top) run
    rw [world]
    exact ⟨left.document, World.Faded.remains { left with } top, ok⟩
  · set N : Set NodeId := {x | s.world.document.Stale x} with hN
    have encloses : s.world.Encloses s.world.document.Sustains (Instance.Among N) (s.world.tree i) :=
      plain.encloses (.refl _) lifeless
    have renders := Engine.nested_stale (S := s.world.tree i) (N := N) (fun _ h => h) silent
      Engine.depthLimit
    have retains : Work.Retains s.world.document.Sustains (Instance.Among N) (s.world.tree i) name i
        (step.perform s.engine) := by
      cases step with
      | onInstance step => exact step.perform_stale (fun _ h => h) silent renders top late
      | _ => exact late.elim
    have after := encloses_of_step named encloses retains run
    refine ⟨after.document.live, after.document.dead, fun k hk inst get => ?_, after.plain top⟩
    have nodes := (after.enclosed (after.mem top hk) get).nodes
    exact ⟨after.document.stale _ nodes.1, fun x hx => after.document.stale x (nodes.2 x hx)⟩

/-- Of a new pad only remains are left once it is destroyed, and nothing of it is live. Dismounting it
then changes nothing, and rendering it leaves it lifeless. -/
theorem unchanged_of_pad :
    newPadSession.instances.get? "pad" = some 1 ∧ newPadSession.world.Trim ∧
      newPadSession.world.document.WellFormed ∧ newPadSession.world.Whole 1 ∧
        newPadSession.world.Plain 1 ∧ padSession.instances.get? "pad" = some 1 ∧
          padSession.library.Silent ∧ padSession.world.Remains 1 ∧ padSession.world.Lifeless 1 ∧
            padSession.world.Plain 1 ∧
              (∃ report later, padSession.step (retirement "pad" .dismount) = .ok (report, later) ∧
                later.world.document = padSession.world.document ∧ later.world.Remains 1) ∧
              ∃ report later, padSession.step (.onInstance (.render "pad" (.str "a") none)) =
                .ok (report, later) ∧ later.world.Lifeless 1 := by
  have defined : Library.define [noteDeclaration, padDeclaration] = .ok padLibrary := by
    obtain ⟨library, h⟩ := exists_of_isOk (x := Library.define [noteDeclaration, padDeclaration])
      (by decide +kernel)
    rw [padLibrary, h]
    rfl
  have ranked : padLibrary.value.Ranked := by decide +kernel
  have roots : ∀ d ∈ [noteDeclaration, padDeclaration],
      d.Roots fun node => node.InPlace ∧ node.WritesLeaves := by decide +kernel
  have named : newPadSession.instances.get? "pad" = some 1 := by decide +kernel
  have trim : newPadSession.world.Trim := by
    unfold World.Trim
    decide +kernel
  obtain ⟨wf, library⟩ : newPadSession.world.document.WellFormed ∧
      newPadSession.library = padLibrary.value := by
    obtain ⟨plan, draws⟩ := Library.exists_blueprints defined roots
    have upkept : (start padLibrary).Upkept newPadSession :=
      Upkept.refl.after (.onInstance (.construct ..)) trivial
    obtain ⟨hand, library, -, δ, tidy⟩ := upkept.tidy (secluded_start padLibrary) ranked
      (Library.silent_of_inPlace defined roots) (tidy_start @draws)
    exact ⟨tidy.valid.wellFormed, library⟩
  have whole : newPadSession.world.Whole 1 := by
    have below : ∀ inst ∈ newPadSession.world.instances, ∀ x ∈ inst.elements, x = inst.root ∨
        x ∈ newPadSession.world.document.children inst.root := by decide +kernel
    intro k _ inst get x hx
    rcases below inst (Array.mem_of_getElem? get) x hx with rfl | hc
    · exact .inl .refl
    · exact .inl (.single hc)
  have plain : newPadSession.world.Plain 1 := by
    have single : ∀ inst ∈ newPadSession.world.instances, ∀ item ∈ inst.stash,
        item.sequential? = none ∧ item.keyed? = none := by decide +kernel
    exact fun k _ inst get => single inst (Array.mem_of_getElem? get)
  have named' : padSession.instances.get? "pad" = some 1 := by decide +kernel
  obtain ⟨⟨report, later⟩, destroyed⟩ :=
    exists_of_isOk (x := newPadSession.step (retirement "pad" .destroy)) (by decide +kernel)
  have padded : padSession = later := by
    unfold padSession Session.after
    rw [destroyed]
    rfl
  obtain ⟨⟨dismissal, dismounted⟩, hd⟩ :=
    exists_of_isOk (x := padSession.step (retirement "pad" .dismount)) (by decide +kernel)
  obtain ⟨⟨rendering, rendered⟩, hr⟩ := exists_of_isOk
    (x := padSession.step (.onInstance (.render "pad" (.str "a") none))) (by decide +kernel)
  have silent : padSession.library.Silent := by
    rw [padded, library_of_destroy named trim destroyed, library]
    exact Library.silent_of_define defined (by decide +kernel)
  obtain ⟨remains, left⟩ := (@unchanged_of_remains _ _ _ _ _ .destroy named).1 destroyed trim
  obtain ⟨lifeless, plain'⟩ := left wf whole plain
  rw [← padded] at remains lifeless plain'
  obtain ⟨document, remains', -⟩ := (unchanged_of_remains named').2.1 hd remains
  have late : Step.Revisits "pad" (.onInstance (.render "pad" (.str "a") none)) := rfl
  obtain ⟨-, -, lifeless', -⟩ :=
    (@unchanged_of_remains _ _ _ _ _ .destroy named').2.2 late hr silent lifeless plain'
  exact ⟨named, trim, wf, whole, plain, named', silent, remains, lifeless, plain',
    ⟨_, _, hd, document, remains'⟩, _, _, hr, lifeless'⟩

/-- The root of the pad had the number `0`, and a box made after the pad has got that number; it is the
box that is released when the pad is destroyed again. -/
theorem robbed_of_box :
    padSession.world.document.isLive 0 = false ∧ boxSession.nodes.get? "box" = some 0 ∧
      boxSession.world.document.isLive 0 = true ∧
      (boxSession.after (retirement "pad" .destroy)).world.document.isLive 0 = false := by
  decide +kernel

end Session

end ComponentView
