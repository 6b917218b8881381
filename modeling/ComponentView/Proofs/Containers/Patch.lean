import ComponentView.Proofs.Containers.Build
import ComponentView.Proofs.Ownership.Patch

/-! # Patches in a tidy world

A repeater keeps the roots of the instances that it shows together in its container, in their order,
between what stands before and after them (`World.Tends`). What it shows is put in before the anchor
or before an instance of its own, so a patch leaves the rest of the container as it is, also when it
stops on the way (`Sequential.patch_tidy`, `Keyed.patch_tidy`). -/

namespace ComponentView

/-- Rendering leaves the world tidy, and an instance that is acquired stands in no host. -/
structure Engine.Tidies (engine : Engine) : Prop where
  render : ∀ (L : Reserve) (busy lost hand : List InstanceId) (i : InstanceId) (props : Value)
    (controller : Controller), L.library = engine.library → i ∈ hand →
    Ends (World.Neat L busy lost hand) (engine.render i props controller)
      (fun _ => World.Neat L busy lost hand) (Failing (World.Neat L busy lost hand))
  acquire : ∀ (L : Reserve) (busy lost hand : List InstanceId) (id : DefinitionId) (share : Bool)
    (props : Value) (controller : Controller), L.library = engine.library →
    Ends (World.Neat L busy lost hand) (engine.acquire id share props controller)
      (fun i w => w.Neat L busy lost (i :: hand) ∧ w.Adrift L i ∧ w.definition? i = some id)
      (Failing (World.Neat L busy lost hand))

/-! ## The block of a repeater -/

/-- The container of a repeater, the definition of its instances, and what stands before and after
them if the container shows what its component has there. -/
structure Block where
  container : NodeId
  definition : DefinitionId
  regular : Prop
  before : List NodeId
  after : List NodeId

/-- The container belongs to a host. All other nodes of hosts stay as they are, and what is not in hand
already may stand in the host. -/
structure Reserve.Site (L : Reserve) (r : NodeId) (n : Nat) (b : Block) (hand : List InstanceId) :
    Prop where
  host : L.host r
  node : L.deeds.node r n = some b.container
  still : ∀ q, L.still q ↔ q ≠ b.container
  takes : ∀ {k}, k ∉ hand → L.lodges r k
  lower : b.definition < L.deeds.definition r
  parent : (L.plan (L.deeds.definition r)).outline.childrenOf n ≠ []

namespace World

/-- Some rows are in hand, and those that are shown stand in the container in this order, between what
stands before and after them. -/
structure Tends (L : Reserve) (b : Block) (busy lost hand rows shown : List InstanceId) (w : World) :
    Prop where
  neat : w.Neat L busy lost (rows ++ hand)
  ranks : ∀ k ∈ rows, w.definition? k = some b.definition
  loose : ∀ k ∈ rows, w.Loose L k
  subset : shown ⊆ rows
  nodup : shown.Nodup
  apart : b.regular → ∀ k ∈ rows, w.root k ∉ b.before ++ b.after
  children : b.regular →
    w.document.children b.container = b.before ++ (shown.map w.root ++ b.after)
  others : ∀ k ∈ hand, w.root k ∈ w.document.children b.container → w.root k ∈ L.children b.container

variable {L : Reserve} {δ : Deeds} {b : Block} {r : NodeId} {n : Nat}
  {busy lost hand rows shown front back gone : List InstanceId} {w v : World} {k : InstanceId}

namespace Tends

/-- Only the document, the instances, the pools and the list of held instances matter. -/
theorem congr (h : w.Tends L b busy lost hand rows shown) (document : v.document = w.document)
    (instances : v.instances = w.instances) (pools : v.pools = w.pools) (held : v.busy = w.busy) :
    v.Tends L b busy lost hand rows shown := by
  have root := root_congr instances
  have definition := definition?_congr instances
  obtain ⟨δ, tidy⟩ := h.neat
  exact
    { neat := ⟨δ, tidy.congr document instances pools held⟩
      ranks := definition ▸ h.ranks
      loose := by unfold Loose; rw [root, document]; exact h.loose
      subset := h.subset, nodup := h.nodup
      apart := root ▸ h.apart
      children := by rw [root, document]; exact h.children
      others := by rw [root, document]; exact h.others }

/-- The rows and the instances in hand are all different. -/
theorem nodup_hand (h : w.Tends L b busy lost hand rows shown) : (rows ++ hand).Nodup := by
  obtain ⟨δ, tidy⟩ := h.neat
  exact tidy.nodup_hand

/-- Different instances in hand have different roots. -/
theorem eq_of_root (h : w.Tends L b busy lost hand rows shown) {i j : InstanceId}
    (hi : i ∈ rows ++ hand) (hj : j ∈ rows ++ hand) (he : w.root i = w.root j) : i = j := by
  obtain ⟨δ, tidy⟩ := h.neat
  exact tidy.apart (tidy.inHand i hi) (tidy.inHand j hj) he

/-- The roots of the instances shown, but for some. -/
theorem filter_roots (h : w.Tends L b busy lost hand rows shown) (hg : gone ⊆ rows) :
    (shown.map w.root).filter (· ∉ gone.map w.root) = (shown.filter (· ∉ gone)).map w.root := by
  rw [List.filter_map]
  refine congrArg _ (List.filter_congr fun i hi => decide_eq_decide.mpr (not_congr ?_))
  refine ⟨fun hm => ?_, List.mem_map_of_mem⟩
  obtain ⟨j, hj, he⟩ := List.mem_map.mp hm
  exact h.eq_of_root (List.mem_append_left _ (hg hj)) (List.mem_append_left _ (h.subset hi)) he ▸ hj

/-- The children of the container when the roots of some rows are taken out. -/
theorem filter_children (h : w.Tends L b busy lost hand rows shown) (hg : gone ⊆ rows)
    (regular : b.regular) : (w.document.children b.container).filter (· ∉ gone.map w.root)
      = b.before ++ ((shown.filter (· ∉ gone)).map w.root ++ b.after) := by
  have apart {c : NodeId} (hc : c ∈ b.before ++ b.after) : c ∉ gone.map w.root := fun hm => by
    obtain ⟨j, hj, rfl⟩ := List.mem_map.mp hm
    exact h.apart regular j (hg hj) hc
  rw [h.children regular, List.filter_append, List.filter_append, h.filter_roots hg,
    List.filter_eq_self.mpr fun c hc => decide_eq_true (apart (List.mem_append_left _ hc)),
    List.filter_eq_self.mpr fun c hc => decide_eq_true (apart (List.mem_append_right _ hc))]

/-- Some rows have gone, and those that have come stand nowhere. -/
theorem sweep (h : w.Tends L b busy lost hand rows shown) (site : L.Site r n b hand)
    {rows' shown' : List InstanceId} (neat : v.Neat L busy lost (rows' ++ hand))
    (sweeps : Sweeps L gone w v) (hg : gone ⊆ rows) (hs : shown' = shown.filter (· ∉ gone))
    (subset : shown' ⊆ rows')
    (new : ∀ k ∈ rows', k ∈ rows ∨ v.Adrift L k ∧ v.definition? k = some b.definition) :
    v.Tends L b busy lost hand rows' shown' := by
  obtain ⟨δ, tidy⟩ := h.neat
  have lt {i : InstanceId} (hi : i ∈ rows ++ hand) : i < w.instances.size :=
    tidy.lt_of_alive (tidy.inHand i hi)
  have root {i : InstanceId} (hi : i ∈ rows ++ hand) : v.root i = w.root i :=
    sweeps.roots i (lt hi)
  have shows (regular : b.regular) : v.document.children b.container
      = b.before ++ (shown'.map v.root ++ b.after) := by
    rw [sweeps.children site.host site.node, h.filter_children hg regular, hs,
      List.map_congr_left fun i hi =>
        root (List.mem_append_left _ (h.subset (List.mem_of_mem_filter hi)))]
  refine
    { neat := neat, ranks := fun i hi => ?_, loose := fun i hi => ?_, subset := subset
      nodup := hs ▸ h.nodup.filter _, apart := fun regular i hi => ?_, children := shows
      others := fun i hi hc => ?_ }
  · exact (new i hi).elim (fun hi => sweeps.grown (h.ranks i hi)) And.right
  · exact (new i hi).elim (fun hi => (h.loose i hi).sweep sweeps (lt (List.mem_append_left _ hi)))
      fun hi => hi.1.loose
  · rcases new i hi with hi | ⟨adrift, -⟩
    · rw [root (List.mem_append_left _ hi)]
      exact h.apart regular i hi
    · have := adrift r n b.container site.host site.node
      rw [shows regular] at this
      simp only [List.mem_append, not_or] at this ⊢
      exact ⟨this.1, this.2.2⟩
  · rw [root (List.mem_append_right _ hi)] at hc ⊢
    exact h.others i hi (sweeps.subset site.host site.node hc)

/-- What does not change hosts leaves the block as it is. -/
theorem calm (h : w.Tends L b busy lost hand rows shown) (site : L.Site r n b hand)
    (neat : v.Neat L busy lost (rows ++ hand)) (sweeps : Sweeps L [] w v) :
    v.Tends L b busy lost hand rows shown :=
  h.sweep site neat sweeps (List.nil_subset _) (by simp) h.subset fun _ => Or.inl

/-- A row that is not shown goes. -/
theorem leave (h : w.Tends L b busy lost hand (front ++ k :: back) shown)
    (site : L.Site r n b hand) (neat : v.Neat L busy lost (front ++ back ++ hand))
    (sweeps : Sweeps L [k] w v) (hk : k ∉ shown) :
    v.Tends L b busy lost hand (front ++ back) shown := by
  have mem {j : InstanceId} : j ∈ front ++ k :: back ↔ j = k ∨ j ∈ front ++ back := by
    simp only [List.mem_append, List.mem_cons]
    tauto
  refine h.sweep site neat sweeps (by simp) ?_ (fun j hj => ?_) fun j hj => Or.inl (mem.mpr (Or.inr hj))
  · refine (List.filter_eq_self.mpr fun j hj => decide_eq_true ?_).symm
    rw [List.mem_singleton]
    exact fun he => hk (he ▸ hj)
  · exact (mem.mp (h.subset hj)).resolve_left fun he => hk (he ▸ hj)

/-- A move of the root of a row changes what stands in the container only. -/
theorem arrange (h : w.Tends L b busy lost hand rows shown) (site : L.Site r n b hand) (hk : k ∈ rows)
    (tidy : w.Tidy L δ busy lost (rows ++ hand)) {d : Document Listener} (valid : δ.Valid L.plan d)
    (keep : ∀ {q}, q ≠ b.container → w.root k ∉ w.document.children q →
      d.children q = w.document.children q)
    (mem : ∀ {c}, c ∈ d.children b.container → c ∈ w.document.children b.container ∨ c = w.root k)
    {shown' : List InstanceId} (subset : shown' ⊆ rows) (nodup : shown'.Nodup)
    (children : b.regular → d.children b.container = b.before ++ (shown'.map w.root ++ b.after)) :
    World.Tends L b busy lost hand rows shown' { w with document := d } := by
  have hk' : k ∈ rows ++ hand := List.mem_append_left _ hk
  have apart {j : InstanceId} (hj : j ∈ hand) : j ≠ k := fun he =>
    (List.nodup_append.mp h.nodup_hand).2.2 k hk j hj he.symm
  have node : δ.node r n = some b.container := tidy.node_host site.host ▸ site.node
  refine
    { neat := ⟨δ, tidy.editIn valid site.host node (fun hs => (site.still _).mp hs rfl)
        (fun {a m q} hq hne => keep hne fun hc => ?_) fun c hc _ => (mem hc).imp_right fun he =>
          ⟨k, hk', he.symm, site.takes fun hin => apart hin rfl⟩⟩
      ranks := h.ranks
      loose := fun j hj a m q ha hq hs hc => ?_
      subset := subset, nodup := nodup, apart := h.apart, children := children
      others := fun j hj hc => ?_ }
  · -- What is in hand stands in hosts only, and a row in nothing that is to stay as it is.
    obtain ⟨a', m', hq', host, -⟩ := tidy.seat_of_hand hk' hc
    exact h.loose k hk a' m' q host (tidy.node_host host ▸ hq') ((site.still q).mpr hne) hc
  · have same := keep ((site.still q).mp hs) (h.loose k hk a m q ha hq hs)
    exact h.loose j hj a m q ha hq hs (same ▸ hc)
  · rcases mem hc with hc | he
    · exact h.others j hj hc
    · exact absurd (h.eq_of_root (List.mem_append_right _ hj) hk' he) (apart hj)

/-- The root of a row is put before what comes after it. -/
theorem insert (h : w.Tends L b busy lost hand rows shown) (site : L.Site r n b hand) (hk : k ∈ rows)
    (split : shown.filter (· ≠ k) = front ++ back) {reference : Option NodeId}
    (before : b.regular → reference = (back.map w.root ++ b.after).head?) :
    World.Tends L b busy lost hand rows (front ++ k :: back)
      { w with document := w.document.insertBefore b.container (w.root k) reference } := by
  obtain ⟨δ, tidy⟩ := h.neat
  have sound := tidy.valid.sound
  have node : δ.node r n = some b.container := tidy.node_host site.host ▸ site.node
  have live := tidy.valid.live node
  have perm : (front ++ k :: back).Perm (k :: shown.filter (· ≠ k)) := split ▸ List.perm_middle
  have fits : Deeds.Valid.Fits δ L.plan b.container (w.root k) := by
    have alive := tidy.inHand k (List.mem_append_left _ hk)
    have definition : δ.definition (w.root k) = b.definition :=
      Option.some.inj ((tidy.definition_root alive).symm.trans (h.ranks k hk))
    have host := (tidy.hosts site.host).2
    refine ⟨r, n, w.root k, 0, node, tidy.node_root alive, Or.inr ⟨rfl, ?_, ?_⟩⟩
    · rw [definition, host]
      exact site.lower
    · rw [Deeds.outline, host]
      exact site.parent
  refine h.arrange site hk tidy (tidy.valid.insertBefore fits reference)
    (fun hne hc => sound.children_insertBefore_of_not_mem live hne hc reference)
    (fun hc => ?_) (fun j hj => ?_) (perm.nodup_iff.mpr (List.nodup_cons.mpr ⟨?_, ?_⟩))
    fun regular => ?_
  · exact (Document.mem_children_insertBefore hc).symm.imp
      (Document.children_without_subset _ _ ·) And.right
  · rcases List.mem_cons.mp (perm.subset hj) with rfl | hj
    · exact hk
    · exact h.subset (List.mem_of_mem_filter hj)
  · exact fun hin => by simpa using List.of_mem_filter hin
  · exact h.nodup.filter _
  · have gone : [k] ⊆ rows := by simpa using hk
    have rest := h.filter_children gone regular
    simp only [List.map_singleton, List.mem_singleton] at rest
    rw [split, List.map_append, List.append_assoc, ← List.append_assoc] at rest
    rw [sound.children_insertBefore live, if_pos rfl, rest, before regular,
      Document.placeBefore_head?]
    · simp
    · rw [← rest]
      exact (sound.nodup _).filter _

/-- The root of a row is taken out of the container, and stands nowhere then. -/
theorem remove (h : w.Tends L b busy lost hand rows (front ++ k :: back))
    (site : L.Site r n b hand) :
    World.Tends L b busy lost hand rows (front ++ back)
        { w with document := w.document.remove b.container (w.root k) } ∧
      World.Adrift L { w with document := w.document.remove b.container (w.root k) } k := by
  obtain ⟨δ, tidy⟩ := h.neat
  have sound := tidy.valid.sound
  have hk : k ∈ rows := h.subset (by simp)
  have alone := List.nodup_cons.mp (List.perm_middle.nodup_iff.mp h.nodup)
  have rest : (front ++ k :: back).filter (· ∉ [k]) = front ++ back := by
    have keep {xs : List InstanceId} (hx : k ∉ xs) : xs.filter (· ∉ [k]) = xs :=
      List.filter_eq_self.mpr fun j hj =>
        decide_eq_true fun he => hx (List.mem_singleton.mp he ▸ hj)
    have apart := alone.1
    rw [List.mem_append, not_or] at apart
    rw [List.filter_append, List.filter_cons_of_neg (by simp), keep apart.1, keep apart.2]
  have children := sound.children_remove b.container (w.root k)
  constructor
  · refine h.arrange site hk tidy (tidy.valid.remove _ _) (fun hne _ => ?_)
      (fun hc => Or.inl (sound.children_remove_subset _ _ _ hc))
      (fun j hj => h.subset (List.perm_middle.mem_iff.mpr (List.mem_cons_of_mem _ hj))) alone.2
      fun regular => ?_
    · rw [children, if_neg hne]
    · have gone : [k] ⊆ rows := by simpa using hk
      have shows := h.filter_children gone regular
      rw [rest] at shows
      simp only [List.map_singleton, List.mem_singleton] at shows
      rw [children, if_pos rfl, shows]
  · intro a m q ha hq hc
    have hc : w.root k ∈ (w.document.remove b.container (w.root k)).children q := hc
    by_cases he : q = b.container
    · rw [he, children, if_pos rfl] at hc
      simp at hc
    · exact h.loose k hk a m q ha hq ((site.still q).mpr he) (sound.children_remove_subset _ _ q hc)

/-! ## Work on rows -/

/-- Inserting the root of a row before the reference shows the row there. -/
theorem place (h : w.Tends L b busy lost hand rows shown) (site : L.Site r n b hand) (hk : k ∈ rows)
    (split : shown.filter (· ≠ k) = front ++ back) {reference : Option NodeId}
    (before : b.regular → reference = (back.map w.root ++ b.after).head?) :
    Ends (w = ·) (do
        let root ← Run.rootOf k
        Run.onDocument (·.insertBefore b.container root reference))
      (fun _ v => v.Tends L b busy lost hand rows (front ++ k :: back)) fun stop _ => stop.GivenUp := by
  refine (Ends.rootOf_eq fun _ _ => ⟨_, rfl⟩).bind fun root => .modify fun v hv => ?_
  obtain ⟨rfl, rfl⟩ := hv
  exact h.insert site hk split before

/-- Removing the root of a shown row from the container sets the row adrift. -/
theorem takeOut (h : w.Tends L b busy lost hand rows (front ++ k :: back))
    (site : L.Site r n b hand) :
    Ends (w = ·) (do
        let root ← Run.rootOf k
        Run.onDocument (·.remove b.container root))
      (fun _ v => v.Tends L b busy lost hand rows (front ++ back) ∧ v.Adrift L k)
      fun stop _ => stop.GivenUp := by
  refine (Ends.rootOf_eq fun _ _ => ⟨_, rfl⟩).bind fun root => .modify fun v hv => ?_
  obtain ⟨rfl, rfl⟩ := hv
  exact h.remove site

variable {engine : Engine}

/-- Rendering a row changes neither which rows are tended nor which are shown. -/
theorem render (h : w.Tends L b busy lost hand rows shown) (site : L.Site r n b hand)
    (tidies : engine.Tidies) (hl : L.library = engine.library) (hk : k ∈ rows) (props : Value)
    (controller : Controller) :
    Ends (w = ·) (engine.render k props controller)
      (fun _ v => v.Tends L b busy lost hand rows shown)
      (Failing (World.Tends L b busy lost hand rows shown)) := by
  obtain ⟨δ, tidy⟩ := h.neat
  have calm {v : World} (hv : v.Neat (L.freeze w δ fun _ => True) busy lost (rows ++ hand)) :
      v.Tends L b busy lost hand rows shown :=
    let ⟨neat, sweeps⟩ := tidy.calm hv
    h.calm site neat sweeps
  refine (tidies.render (L.freeze w δ fun _ => True) busy lost (rows ++ hand) k props controller hl
    (List.mem_append_left _ hk)).mono ?_ (fun _ v hv => calm hv) fun _ _ hv => hv.mono calm
  rintro _ rfl
  exact ⟨δ, tidy.freeze _⟩

/-- A row is acquired. -/
theorem acquire (h : w.Tends L b busy lost hand rows shown) (site : L.Site r n b hand)
    (tidies : engine.Tidies) (hl : L.library = engine.library) (share : Bool) (props : Value)
    (controller : Controller) :
    Ends (w = ·) (engine.acquire b.definition share props controller)
      (fun i v => v.Tends L b busy lost hand (rows ++ [i]) shown)
      (Failing (World.Tends L b busy lost hand rows shown)) := by
  obtain ⟨δ, tidy⟩ := h.neat
  refine (tidies.acquire (L.freeze w δ fun _ => True) busy lost (rows ++ hand) b.definition share
    props controller hl).mono ?_ (fun i v hv => ?_) fun _ _ hv => hv.mono fun hv => ?_
  · rintro _ rfl
    exact ⟨δ, tidy.freeze _⟩
  · obtain ⟨neat, adrift, definition⟩ := hv
    obtain ⟨neat, sweeps⟩ := tidy.calm neat
    have adrift : v.Adrift L i := fun a m q ha hq => adrift a m q ha (tidy.node_host ha ▸ hq)
    refine h.sweep site (neat.perm ?_) sweeps (List.nil_subset _) (by simp)
      (fun j hj => List.mem_append_left _ (h.subset hj)) fun j hj => ?_
    · rw [List.append_assoc]
      exact List.perm_middle
    · rcases List.mem_append.mp hj with hj | hj
      · exact Or.inl hj
      · rw [List.mem_singleton.mp hj]
        exact Or.inr ⟨adrift, definition⟩
  · obtain ⟨neat, sweeps⟩ := tidy.calm hv
    exact h.calm site neat sweeps

/-- A row that is taken out of the list is in hand. -/
theorem neat_cons (h : w.Tends L b busy lost hand (front ++ k :: back) shown) :
    w.Neat L busy lost (k :: (front ++ back ++ hand)) := by
  refine h.neat.perm ?_
  rw [← List.cons_append]
  exact List.perm_middle.symm.append_right hand

/-- A row that is not shown is given back. -/
theorem giveBack (h : w.Tends L b busy lost hand (front ++ k :: back) shown)
    (site : L.Site r n b hand) (hk : k ∉ shown) :
    Ends (w = ·) (Retire.giveBack Run.retire b.definition k)
      (fun _ v => v.Tends L b busy lost hand (front ++ back) shown) fun stop _ => stop.GivenUp :=
  (Retire.giveBack_tidy Run.retire_tidy h.neat_cons (h.ranks k (by simp))
    (h.loose k (by simp))).post fun _ _ hv => h.leave site hv.1 hv.2 hk

/-- A row that stands nowhere is dropped. -/
theorem drop (h : w.Tends L b busy lost hand (front ++ k :: back) shown)
    (site : L.Site r n b hand) (hk : k ∉ shown) (adrift : w.Adrift L k) (share : Bool) :
    Ends (w = ·) (Retire.drop Run.retire b.definition share k)
      (fun _ v => v.Tends L b busy lost hand (front ++ back) shown) fun stop _ => stop.GivenUp :=
  (Retire.drop_tidy Run.retire_tidy h.neat_cons (h.ranks k (by simp)) adrift share).post
    fun _ _ hv => h.leave site hv.1 hv.2 hk

/-- A row is taken out of the container and dropped. -/
theorem takeOutDrop {before : List InstanceId} {after : List InstanceId}
    (h : w.Tends L b busy lost hand (front ++ k :: back) (before ++ k :: after))
    (site : L.Site r n b hand) (share : Bool) :
    Ends (w = ·) (do
        let root ← Run.rootOf k
        Run.onDocument (·.remove b.container root)
        Retire.drop Run.retire b.definition share k)
      (fun _ v => v.Tends L b busy lost hand (front ++ back) (before ++ after))
      fun stop _ => stop.GivenUp := by
  have alone := List.nodup_cons.mp (List.perm_middle.nodup_iff.mp h.nodup)
  refine (Ends.rootOf_eq fun _ _ => ⟨_, rfl⟩).bind fun root => ?_
  refine Ends.bind (Q := fun _ v =>
    v.Tends L b busy lost hand (front ++ k :: back) (before ++ after) ∧ v.Adrift L k)
    (.modify fun v hv => ?_) fun _ => .pointwise fun v hv => ?_
  · obtain ⟨rfl, rfl⟩ := hv
    exact h.remove site
  · exact hv.1.drop site alone.1 hv.2 share

end Tends

/-! ## Repeaters -/

/-- A repeater with its block. -/
structure Serves (L : Reserve) (b : Block) (busy lost hand : List InstanceId) (anchors : List Anchor)
    (item : StashItem) (w : World) : Prop where
  ranks : ∀ id, b.definition < id → item.Ranks w id
  anchors : item.anchors = anchors
  even : item.Even
  tends : w.Tends L b busy lost hand item.held item.shown

end World

namespace Sequential

variable {engine : Engine} {L : Reserve} {b : Block} {r : NodeId} {n position : Nat}
  {busy lost hand : List InstanceId} {anchors : List Anchor} {f : Focus Sequential}

/-- A repeater by position with its block. -/
structure Tended (L : Reserve) (b : Block) (busy lost hand : List InstanceId)
    (anchors : List Anchor) (f : Focus Sequential) : Prop where
  definition : f.held.definition = b.definition
  anchors : f.held.anchors = anchors
  attached : f.held.attached ≤ f.held.instances.length
  tends : f.world.Tends L b busy lost hand f.held.instances
    (f.held.instances.take f.held.attached)

section Show

variable (site : L.Site r n b hand) (tidies : engine.Tidies) (hl : L.library = engine.library)

include site tidies hl

/-- The row at a position is found or made, and joins the rows that are tended. -/
theorem instanceFor_tidy (controller : Controller) (item : Value) :
    Ends (fun f => Tended L b busy lost hand anchors f ∧ position ≤ f.held.attached)
      (instanceFor engine controller position item)
      (fun i f => Tended L b busy lost hand anchors f ∧ position ≤ f.held.attached ∧
        f.held.instances[position]? = some i)
      (Failing (Tended L b busy lost hand anchors)) := by
  refine .pointwise fun f ⟨h, hp⟩ => ?_
  obtain ⟨rows, w⟩ := f
  obtain ⟨definition, rfl, attached, tends⟩ := h
  dsimp only at definition attached tends hp
  -- An engine that fails leaves the repeater and its rows as they were.
  have failed (stop : Stop) (f : Focus Sequential) (hf : f.held = rows ∧
      Failing (World.Tends L b busy lost hand rows.instances (rows.instances.take rows.attached))
        stop f.world) : Failing (Tended L b busy lost hand rows.anchors) stop f := by
    obtain ⟨rfl, hf⟩ := hf
    exact hf.mono fun tends => ⟨definition, rfl, attached, tends⟩
  unfold instanceFor
  refine .held_at ?_
  split
  · next i hi =>
    refine ((Ends.outside_at (tends.render site tidies hl (List.mem_of_getElem? hi) item
      controller)).mono (fun _ h => h) (fun _ _ h => h) failed).bind fun _ => .pure fun f hf => ?_
    obtain ⟨rfl, tends⟩ := hf
    exact ⟨⟨definition, rfl, attached, tends⟩, hp, hi⟩
  · next none =>
    have full : position = rows.instances.length :=
      Nat.le_antisymm (Nat.le_trans hp attached) (List.getElem?_eq_none_iff.mp none)
    rw [definition]
    refine ((Ends.outside_at (tends.acquire site tidies hl rows.share item controller)).mono
      (fun _ h => h) (fun _ _ h => h) failed).bind fun i => ?_
    refine Ends.bind (Q := fun _ f => f.held = rows ∧ f.world.Tends L b busy lost hand
      (rows.instances ++ [i]) (rows.instances.take rows.attached))
      (.outside fun _ => .modify fun v hv => ?_) fun _ => ?_
    · exact ⟨hv.1, hv.2.congr rfl rfl rfl rfl⟩
    · refine Ends.bind (Q := fun _ f => Tended L b busy lost hand rows.anchors f ∧
        position ≤ f.held.attached ∧ f.held.instances[position]? = some i)
        (.change fun _ v hv => ?_) fun _ => .pure fun _ h => h
      obtain ⟨rfl, hv⟩ := hv
      refine ⟨⟨definition, rfl, ?_, ?_⟩, hp, ?_⟩
      · exact Nat.le_trans attached (by simp)
      · rwa [List.take_append_of_le_length attached]
      · rw [full]
        exact List.getElem?_concat_length ..

/-- Showing an item attaches the row at its position. -/
theorem showItem_tidy {anchor : Option NodeId} (before : b.regular → anchor = b.after.head?)
    (controller : Controller) (item : Value) :
    Ends (fun f => Tended L b busy lost hand anchors f ∧ position ≤ f.held.attached)
      (showItem engine b.container anchor controller position item)
      (fun _ f => Tended L b busy lost hand anchors f ∧ position + 1 ≤ f.held.attached)
      (Failing (Tended L b busy lost hand anchors)) := by
  refine (instanceFor_tidy site tidies hl controller item).bind fun i => .pointwise fun f hf => ?_
  obtain ⟨rows, w⟩ := f
  obtain ⟨⟨definition, rfl, attached, tends⟩, hp, hi⟩ := hf
  dsimp only at definition attached tends hp hi
  refine .held_at ?_
  split
  · next full =>
    obtain rfl := Nat.le_antisymm hp full
    have hm : i ∈ rows.instances := List.mem_of_getElem? hi
    -- It is the first that is not shown, and it is in the list once.
    have new : i ∉ rows.instances.take rows.attached := by
      intro hin
      have nodup := (List.nodup_append.mp tends.nodup_hand).1
      obtain ⟨k, hk⟩ := List.getElem?_of_mem hin
      rw [List.getElem?_take] at hk
      split at hk
      · next hlt =>
        have := (List.getElem?_inj (List.getElem?_eq_some_iff.mp hk).1 nodup).mp (hk.trans hi.symm)
        omega
      · cases hk
    have same : (rows.instances.take rows.attached).filter (· ≠ i)
        = rows.instances.take rows.attached ++ [] := by
      rw [List.append_nil]
      exact List.filter_eq_self.mpr fun j hj => decide_eq_true fun he => new (he ▸ hj)
    refine Ends.bind (Ends.outside_eq (tends.place site hm same before)).failing
      fun _ => .change fun _ v hv => ?_
    obtain ⟨rfl, hv⟩ := hv
    refine ⟨⟨definition, rfl, (List.getElem?_eq_some_iff.mp hi).1, ?_⟩, Nat.le_refl _⟩
    show v.Tends L b busy lost hand _ (List.take (_ + 1) _)
    rw [List.take_add_one, hi]
    exact hv
  · next above =>
    refine .pure fun f hf => ?_
    obtain ⟨rfl, rfl⟩ := hf
    exact ⟨⟨definition, rfl, attached, tends⟩, Nat.lt_of_not_le above⟩

/-- Showing the items from a position on keeps the rows tended. -/
theorem showItems_tidy {anchor : Option NodeId} (before : b.regular → anchor = b.after.head?)
    (controller : Controller) (items : List Value) :
    Ends (fun f => Tended L b busy lost hand anchors f ∧ position ≤ f.held.attached)
      (showItems engine b.container anchor controller position items)
      (fun _ => Tended L b busy lost hand anchors) (Failing (Tended L b busy lost hand anchors)) := by
  induction items generalizing position with
  | nil => exact .pure fun _ h => h.1
  | cons item items ih =>
    exact (showItem_tidy site tidies hl before controller item).bind fun _ => ih

end Show

/-- The instances from a position on are taken out one after another. -/
theorem withdraw_tidy (site : L.Site r n b hand) (position : Nat) :
    Ends (Tended L b busy lost hand anchors) (withdraw b.container position)
      (fun _ f => Tended L b busy lost hand anchors f ∧ f.held.attached ≤ position)
      fun stop _ => stop.GivenUp := by
  refine .pointwise fun f h => ?_
  obtain ⟨rows, w⟩ := f
  obtain ⟨definition, rfl, attached, tends⟩ := h
  dsimp only at definition attached tends
  unfold withdraw
  refine .held_at ?_
  -- Each step of the loop takes out the first that is left of those from the position on.
  set shown := rows.instances.take rows.attached with hshown
  have loop : Ends (fun f : Focus Sequential => f.held = rows ∧ f.world.Tends L b busy lost hand
        rows.instances (shown.take position ++ shown.drop position))
      ((shown.drop position).forM fun i => Holding.outside do
        let root ← Run.rootOf i
        Run.onDocument (·.remove b.container root))
      (fun _ f => f.held = rows ∧ f.world.Tends L b busy lost hand rows.instances
        (shown.take position ++ [])) fun stop _ => stop.GivenUp := by
    refine Ends.forM_hand (P := fun rest (f : Focus Sequential) => f.held = rows ∧
      f.world.Tends L b busy lost hand rows.instances (shown.take position ++ rest))
      fun i rest _ => Ends.outside_eq (P := World.Tends L b busy lost hand rows.instances
        (shown.take position ++ i :: rest)) (.pointwise fun v hv => ?_)
    exact (hv.takeOut site).post fun _ _ hu => hu.1
  rw [List.append_nil, List.take_append_drop] at loop
  refine Ends.bind (loop.pre ?_) fun _ => .change fun _ v hv => ?_
  · rintro _ ⟨rfl, rfl⟩
    exact ⟨rfl, tends⟩
  · obtain ⟨rfl, hv⟩ := hv
    refine ⟨⟨definition, rfl, Nat.le_trans (Nat.min_le_left ..) attached, ?_⟩, Nat.min_le_right ..⟩
    rwa [hshown, List.take_take, Nat.min_comm] at hv

/-- The instances from a position on are given back one after another; none of them is shown. -/
theorem giveBackFrom_tidy (site : L.Site r n b hand) (position : Nat) :
    Ends (fun f => Tended L b busy lost hand anchors f ∧ f.held.attached ≤ position)
      (giveBackFrom position) (fun _ => Tended L b busy lost hand anchors)
      fun stop _ => stop.GivenUp := by
  refine .pointwise fun f h => ?_
  obtain ⟨rows, w⟩ := f
  obtain ⟨⟨definition, rfl, attached, tends⟩, hp⟩ := h
  dsimp only at definition attached tends hp
  unfold giveBackFrom
  refine .held_at ?_
  split
  · -- All that is shown is before the position, so what goes is not shown.
    have shown : rows.instances.take rows.attached
        = (rows.instances.take position).take rows.attached := by
      rw [List.take_take, Nat.min_eq_left hp]
    have loop : Ends (fun f : Focus Sequential => f.held = rows ∧ f.world.Tends L b busy lost hand
          (rows.instances.take position ++ rows.instances.drop position)
          (rows.instances.take rows.attached))
        ((rows.instances.drop position).forM fun i =>
          Holding.outside (Retire.giveBack Run.retire rows.definition i))
        (fun _ f => f.held = rows ∧ f.world.Tends L b busy lost hand
          (rows.instances.take position ++ []) (rows.instances.take rows.attached))
        fun stop _ => stop.GivenUp := by
      refine Ends.forM_hand (P := fun rest (f : Focus Sequential) => f.held = rows ∧
        f.world.Tends L b busy lost hand (rows.instances.take position ++ rest)
          (rows.instances.take rows.attached))
        fun i rest _ => Ends.outside_eq (P := World.Tends L b busy lost hand
          (rows.instances.take position ++ i :: rest) (rows.instances.take rows.attached))
            (.pointwise fun v hv => definition ▸ hv.giveBack site fun hi => ?_)
      have nodup := (List.nodup_append.mp hv.nodup_hand).1
      rw [shown] at hi
      exact (List.nodup_append.mp nodup).2.2 i (List.mem_of_mem_take hi) i (by simp) rfl
    rw [List.append_nil, List.take_append_drop] at loop
    refine Ends.bind (loop.pre ?_) fun _ => .change fun _ v hv => ?_
    · rintro _ ⟨rfl, rfl⟩
      exact ⟨rfl, tends⟩
    · obtain ⟨rfl, hv⟩ := hv
      refine ⟨definition, rfl, ?_, shown ▸ hv⟩
      show _ ≤ (List.take position _).length
      rw [List.length_take]
      exact Nat.le_min.mpr ⟨hp, attached⟩
  · refine .pure fun f hf => ?_
    obtain ⟨rfl, rfl⟩ := hf
    exact ⟨definition, rfl, attached, tends⟩

/-- A patch keeps the block of the repeater together, also when it fails on the way. -/
theorem patch_tidy (site : L.Site r n b hand) (tidies : engine.Tidies)
    (hl : L.library = engine.library) {anchor : Option NodeId}
    (before : b.regular → anchor = b.after.head?) (controller : Controller) (items : List Value) :
    Ends (Tended L b busy lost hand anchors) (patch engine b.container anchor items controller)
      (fun _ => Tended L b busy lost hand anchors) (Failing (Tended L b busy lost hand anchors)) := by
  have shown : Ends (fun f => Tended L b busy lost hand anchors f ∧ 0 ≤ f.held.attached)
      (showItems engine b.container anchor controller 0 items)
      (fun _ => Tended L b busy lost hand anchors)
      (Failing (Tended L b busy lost hand anchors)) :=
    showItems_tidy site tidies hl before controller items
  have congr {f : Focus Sequential} (h : Tended L b busy lost hand anchors f)
      (newcomers : List InstanceId) :
      Tended L b busy lost hand anchors { f with world := { f.world with newcomers } } :=
    { h with tends := h.tends.congr rfl rfl rfl rfl }
  exact .welcoming ((shown.bind fun _ =>
    Ends.failing ((withdraw_tidy site _).bind fun _ => giveBackFrom_tidy site _)).mono
      (fun f h => ⟨h, Nat.zero_le _⟩) (fun _ _ h newcomers => congr h newcomers)
      fun _ _ h newcomers => h.mono fun h => congr h newcomers)

/-- So does a patch of a repeater that was handed over. -/
theorem patch_serves (site : L.Site r n b hand) (tidies : engine.Tidies)
    (hl : L.library = engine.library) {anchor : Option NodeId}
    (before : b.regular → anchor = b.after.head?) (controller : Controller) (items : List Value)
    {rows : Sequential} {w : World} (definition : rows.definition = b.definition)
    (h : w.Serves L b busy lost hand anchors (.sequential rows)) :
    Ends (⟨rows, w⟩ = ·) (patch engine b.container anchor items controller)
      (fun _ f => f.world.Serves L b busy lost hand anchors (.sequential f.held))
      (Failing fun f => f.world.Serves L b busy lost hand anchors (.sequential f.held)) := by
  have serves {f : Focus Sequential} (hf : Tended L b busy lost hand anchors f) :
      f.world.Serves L b busy lost hand anchors (.sequential f.held) := by
    refine ⟨fun id hlt => ⟨?_, ?_⟩, hf.anchors, hf.attached, hf.tends⟩
    · rw [hf.definition]
      exact hlt
    · rw [hf.definition]
      exact hf.tends.ranks
  refine (patch_tidy site tidies hl before controller items).mono ?_ (fun _ _ hf => serves hf)
    fun _ _ hf => hf.mono serves
  rintro _ rfl
  exact ⟨definition, h.anchors, h.even, h.tends⟩

end Sequential

namespace Keyed

variable {engine : Engine} {L : Reserve} {b : Block} {r : NodeId} {n : Nat}
  {busy lost hand : List InstanceId} {anchors : List Anchor} {path : Path} {f : Focus Keyed}
  {key : ItemKey} {seen : List ItemKey}

/-- A repeater by key with its block; the instance of one key may not be in its place yet. -/
structure Waits (L : Reserve) (b : Block) (busy lost hand : List InstanceId)
    (anchors : List Anchor) (seen : List ItemKey) (waiting : List ItemKey) (f : Focus Keyed) :
    Prop where
  definition : f.held.definition = b.definition
  anchors : f.held.anchors = anchors
  order : f.held.order.Nodup
  keys : (f.held.instances.map (·.1)).Nodup
  same : ∀ key, key ∈ waiting ∨ key ∈ f.held.order ↔ key ∈ f.held.instances.map (·.1)
  front : f.held.order.take seen.length = seen.reverse
  tends : f.world.Tends L b busy lost hand (f.held.instances.map (·.2)) f.held.inOrder

/-- A repeater by key with its block. -/
def Tended (L : Reserve) (b : Block) (busy lost hand : List InstanceId)
    (anchors : List Anchor) (seen : List ItemKey) : Focus Keyed → Prop :=
  Waits L b busy lost hand anchors seen []

/-- No more keys have been seen than are in order. -/
theorem Waits.length_le {waiting : List ItemKey} (h : Waits L b busy lost hand anchors seen waiting f) :
    seen.length ≤ f.held.order.length := by
  have := congrArg List.length h.front
  rw [List.length_take, List.length_reverse] at this
  omega

/-- A pass that is given up forgets which keys it has seen. -/
theorem Waits.unseen {waiting : List ItemKey}
    (h : Waits L b busy lost hand anchors seen waiting f) :
    Waits L b busy lost hand anchors [] waiting f := { h with front := rfl }

/-- A key that was not seen is not among the first of the order. -/
theorem Waits.not_mem_take {waiting : List ItemKey}
    (h : Waits L b busy lost hand anchors seen waiting f) (hk : key ∉ seen) :
    key ∉ f.held.order.take seen.length := by
  rw [h.front, List.mem_reverse]
  exact hk

/-- A new key is taken up. -/
theorem Waits.join {r : Keyed} {w v : World} {i : InstanceId}
    (h : Waits L b busy lost hand anchors seen [] ⟨r, w⟩) (new : key ∉ r.instances.map (·.1))
    (tends : v.Tends L b busy lost hand (r.instances.map (·.2) ++ [i]) r.inOrder) :
    Waits L b busy lost hand anchors seen [key]
      ⟨{ r with instances := r.instances ++ [(key, i)] }, v⟩ := by
  have mapped : (r.instances ++ [(key, i)]).map (·.1) = r.instances.map (·.1) ++ [key] := by simp
  have keys : ((r.instances ++ [(key, i)]).map (·.1)).Nodup := by
    rw [mapped]
    refine List.nodup_append.mpr ⟨h.keys, List.nodup_singleton key, fun a ha c hc hac => ?_⟩
    obtain rfl := List.mem_singleton.mp hc
    exact new (hac ▸ ha)
  have inOrder : Keyed.inOrder { r with instances := r.instances ++ [(key, i)] } = r.inOrder := by
    refine List.filterMap_congr fun k hk => Option.ext fun j => ?_
    rw [instance?_eq_some_iff keys, instance?_eq_some_iff h.keys, List.mem_append,
      List.mem_singleton, or_iff_left]
    rintro ⟨⟩
    exact new ((h.same key).mp (Or.inr hk))
  refine
    { definition := h.definition, anchors := h.anchors, order := h.order, keys := keys
      same := fun k => ?_, front := h.front, tends := ?_ }
  · have same : k ∈ [] ∨ k ∈ r.order ↔ k ∈ r.instances.map (·.1) := h.same k
    show _ ↔ k ∈ (r.instances ++ [(key, i)]).map (·.1)
    rw [mapped, List.mem_append, ← same, or_comm]
    simp
  · rw [inOrder]
    simpa using tends

/-- The instance of a key is where it is to be, and the others stand around it. -/
theorem Waits.split (h : Waits L b busy lost hand anchors seen [key] f) {i : InstanceId}
    (hm : (key, i) ∈ f.held.instances) (hk : key ∉ seen) :
    f.held.inOrder.filter (· ≠ i) =
        (f.held.order.take seen.length).filterMap f.held.instance? ++
          ((f.held.order.drop seen.length).erase key).filterMap f.held.instance? ∧
      Keyed.inOrder { f.held with order := pullForward key seen.length f.held.order } =
        (f.held.order.take seen.length).filterMap f.held.instance? ++
          i :: ((f.held.order.drop seen.length).erase key).filterMap f.held.instance? := by
  have hi : f.held.instance? key = some i := (instance?_eq_some_iff h.keys).mpr hm
  have nodup := (List.nodup_append.mp h.tends.nodup_hand).1
  constructor
  · have cut : f.held.order.erase key = f.held.order.take seen.length ++
        (f.held.order.drop seen.length).erase key := by
      conv => lhs; rw [← List.take_append_drop seen.length f.held.order]
      exact List.erase_append_right _ (h.not_mem_take hk)
    rw [← List.filterMap_append, ← cut]
    exact (filterMap_erase h.order hi fun k _ hk =>
      key_eq_of_instance? nodup hk hi).symm
  · show (pullForward key seen.length f.held.order).filterMap f.held.instance? = _
    rw [pullForward, List.filterMap_append, List.filterMap_cons, hi]

/-- A key is in its place. -/
theorem Waits.settle (h : Waits L b busy lost hand anchors seen [key] f) {i : InstanceId}
    (hm : (key, i) ∈ f.held.instances) (hk : key ∉ seen) {v : World}
    (tends : v.Tends L b busy lost hand (f.held.instances.map (·.2))
      ((f.held.order.take seen.length).filterMap f.held.instance? ++
        i :: ((f.held.order.drop seen.length).erase key).filterMap f.held.instance?)) :
    Tended L b busy lost hand anchors (key :: seen)
      ⟨{ f.held with order := pullForward key seen.length f.held.order }, v⟩ where
  definition := h.definition
  anchors := h.anchors
  order := nodup_pullForward h.order (h.not_mem_take hk)
  keys := h.keys
  same k := by
    rw [← h.same k]
    simp [mem_pullForward]
  front := by
    rw [List.reverse_cons, ← h.front]
    exact take_pullForward h.length_le
  tends := (h.split hm hk).2 ▸ tends

/-- The instance of a key comes to its place. -/
theorem Waits.place (h : Waits L b busy lost hand anchors seen [key] f) (site : L.Site r n b hand)
    {i : InstanceId} (hm : (key, i) ∈ f.held.instances) (hk : key ∉ seen) {reference : Option NodeId}
    (before : b.regular → reference =
      ((((f.held.order.drop seen.length).erase key).filterMap f.held.instance?).map f.world.root
        ++ b.after).head?) :
    Tended L b busy lost hand anchors (key :: seen)
      ⟨{ f.held with order := pullForward key seen.length f.held.order }, { f.world with
        document := f.world.document.insertBefore b.container (f.world.root i) reference }⟩ :=
  h.settle hm hk
    (h.tends.insert site (List.mem_map_of_mem (f := (·.2)) hm) (h.split hm hk).1 before)

/-- A key whose instance is in its place already stays there. -/
theorem Waits.stay (h : Waits L b busy lost hand anchors seen [key] f) {i : InstanceId}
    (hm : (key, i) ∈ f.held.instances) (hk : key ∉ seen) (there : f.held.order[seen.length]? = some key) :
    Tended L b busy lost hand anchors (key :: seen) f := by
  have same := pullForward_self there
  have inOrder := (h.split hm hk).2
  rw [same] at inOrder
  have settled := h.settle hm hk (inOrder ▸ h.tends)
  rwa [same] at settled

/-- A key goes with its instance. -/
theorem Waits.forget {kept rest : List ItemKey} {rows : Keyed} {w v : World}
    (h : Waits L b busy lost hand anchors seen [] ⟨{ rows with order := kept ++ key :: rest }, w⟩)
    (tends : v.Tends L b busy lost hand ((rows.instances.filter (·.1 ≠ key)).map (·.2))
      ((kept ++ rest).filterMap rows.instance?)) :
    Tended L b busy lost hand anchors []
      ⟨{ rows with order := kept ++ rest, instances := rows.instances.filter (·.1 ≠ key) }, v⟩ := by
  obtain ⟨fresh, order⟩ := List.nodup_cons.mp (List.perm_middle.nodup_iff.mp h.order)
  refine
    { definition := h.definition, anchors := h.anchors, order := order
      keys := h.keys.sublist (List.filter_sublist.map _), same := fun k => ?_, front := rfl
      tends := ?_ }
  · have same : k ∈ [] ∨ k ∈ kept ++ key :: rest ↔ k ∈ rows.instances.map (·.1) := h.same k
    rw [List.perm_middle.mem_iff, List.mem_cons] at same
    show k ∈ [] ∨ k ∈ kept ++ rest ↔ k ∈ (rows.instances.filter (·.1 ≠ key)).map (·.1)
    have left : k ∈ (rows.instances.filter (·.1 ≠ key)).map (·.1) ↔
        k ≠ key ∧ k ∈ rows.instances.map (·.1) := by
      simp only [List.mem_map, List.mem_filter, decide_eq_true_eq]
      constructor
      · rintro ⟨x, ⟨hx, hne⟩, rfl⟩
        exact ⟨hne, x, hx, rfl⟩
      · rintro ⟨hne, x, hx, rfl⟩
        exact ⟨x, ⟨hx, hne⟩, rfl⟩
    rw [left, ← same]
    by_cases he : k = key
    · subst he
      simpa using fresh
    · simp [he]
  · have inOrder : (kept ++ rest).filterMap (Keyed.instance? { rows with
        order := kept ++ rest, instances := rows.instances.filter (·.1 ≠ key) })
          = (kept ++ rest).filterMap rows.instance? :=
      List.filterMap_congr fun k hk =>
        lookup_filter_ne (fun he : k = key => fresh (he ▸ hk)) rows.instances
    show v.Tends L b busy lost hand _ ((kept ++ rest).filterMap _)
    rw [inOrder]
    exact tends

section Show

variable (site : L.Site r n b hand)

include site

/-- The instance of a key comes to its place. -/
theorem settle_tidy {anchor : Option NodeId} (before : b.regular → anchor = b.after.head?)
    {i : InstanceId} (hk : key ∉ seen) :
    Ends (fun f => Waits L b busy lost hand anchors seen [key] f ∧ (key, i) ∈ f.held.instances)
      (settle b.container anchor key i seen.length)
      (fun _ => Tended L b busy lost hand anchors (key :: seen)) fun stop _ => stop.GivenUp := by
  refine .pointwise fun f ⟨h, hm⟩ => ?_
  obtain ⟨rows, w⟩ := f
  have hm : (key, i) ∈ rows.instances := hm
  unfold settle
  refine .held_at (.outside_bind (Ends.rootOf_eq fun _ _ => ⟨_, rfl⟩) ?_)
  have placed {reference : Option NodeId} (hr : b.regular → reference =
      ((((rows.order.drop seen.length).erase key).filterMap rows.instance?).map w.root
        ++ b.after).head?) :
      Ends (fun f : Focus Keyed => f.held = rows ∧ w = f.world)
        (Holding.outside (Run.onDocument (·.insertBefore b.container (w.root i) reference)))
        (fun _ f => f.held = rows ∧ Tended L b busy lost hand anchors (key :: seen)
          ⟨{ rows with order := pullForward key seen.length rows.order }, f.world⟩)
        fun stop _ => stop.GivenUp := by
    refine .outside fun held => .modify fun v hv => ?_
    obtain ⟨rfl, rfl⟩ := hv
    exact ⟨rfl, h.place site hm hk hr⟩
  split
  · -- The key comes after all others.
    next none =>
    have full : rows.order.length ≤ seen.length := List.getElem?_eq_none_iff.mp none
    have last : pullForward key seen.length rows.order = rows.order ++ [key] := by
      rw [pullForward, List.take_of_length_le full, List.drop_of_length_le full, List.erase_nil]
    refine (placed fun regular => ?_).bind fun _ => .change fun _ v hv => ?_
    · rw [List.drop_of_length_le full]
      exact before regular
    · obtain ⟨rfl, hv⟩ := hv
      exact last ▸ hv
  · next there hthere =>
    obtain ⟨hlt, hget⟩ := List.getElem?_eq_some_iff.mp hthere
    split
    · -- Another key is in its position, and it comes before the instance of that.
      next hne =>
      split
      · exact .outside fun _ => .throw fun _ _ => ⟨_, rfl⟩
      · next j hj =>
        refine .outside_bind (Ends.rootOf_eq fun _ _ => ⟨_, rfl⟩) ?_
        refine (placed fun _ => ?_).bind fun _ => .change fun _ v hv => ?_
        · have first : rows.order.drop seen.length = there :: rows.order.drop (seen.length + 1) := by
            rw [List.drop_eq_getElem_cons hlt, hget]
          rw [first, List.erase_cons_tail (by simpa using hne), List.filterMap_cons, hj]
          rfl
        · obtain ⟨rfl, hv⟩ := hv
          exact hv
    · next he =>
      obtain rfl : there = key := Decidable.byContradiction he
      refine .pure fun f hf => ?_
      obtain ⟨rfl, rfl⟩ := hf
      exact h.stay hm hk hthere

variable (tidies : engine.Tidies) (hl : L.library = engine.library)

include tidies hl

/-- The row of a key is found, or made and then waits for its place. -/
theorem instanceFor_tidy (controller : Controller) (item : Value) :
    Ends (Tended L b busy lost hand anchors seen) (instanceFor engine controller key item)
      (fun i f => Waits L b busy lost hand anchors seen [key] f ∧ (key, i) ∈ f.held.instances)
      (Failing (Tended L b busy lost hand anchors [])) := by
  refine .pointwise fun f h => ?_
  obtain ⟨rows, w⟩ := f
  have definition := h.definition
  have tends := h.tends
  have keys := h.keys
  have same := h.same
  dsimp only at definition tends keys same
  -- When the engine fails the key has come to nothing, so the repeater is not left waiting.
  have failed (stop : Stop) (f : Focus Keyed) (hf : f.held = rows ∧
      Failing (World.Tends L b busy lost hand (rows.instances.map (·.2)) rows.inOrder)
        stop f.world) : Failing (Tended L b busy lost hand anchors []) stop f := by
    obtain ⟨rfl, hf⟩ := hf
    exact hf.mono fun tends => ⟨definition, h.anchors, h.order, keys, same, rfl, tends⟩
  unfold instanceFor
  refine .held_at ?_
  split
  · next i hi =>
    have hm := (instance?_eq_some_iff keys).mp hi
    refine ((Ends.outside_at (tends.render site tidies hl (List.mem_map_of_mem (f := (·.2)) hm) item
      controller)).mono (fun _ h => h) (fun _ _ h => h) failed).bind fun _ => .pure fun f hf => ?_
    obtain ⟨rfl, tends⟩ := hf
    refine ⟨⟨definition, h.anchors, h.order, keys, fun k => ?_, h.front, tends⟩, hm⟩
    rw [← same k, List.mem_singleton]
    refine ⟨?_, fun hk => Or.inr (hk.resolve_left (List.not_mem_nil))⟩
    rintro (rfl | hk)
    · exact (same k).mpr (List.mem_map_of_mem (f := (·.1)) hm)
    · exact Or.inr hk
  · next none =>
    have new : key ∉ rows.instances.map (·.1) := fun hk => by
      obtain ⟨⟨k, i⟩, hm, rfl⟩ := List.mem_map.mp hk
      rw [(instance?_eq_some_iff keys).mpr hm] at none
      cases none
    rw [definition]
    refine ((Ends.outside_at (tends.acquire site tidies hl rows.share item controller)).mono
      (fun _ h => h) (fun _ _ h => h) failed).bind fun i => ?_
    refine Ends.bind (Q := fun _ f => f.held = rows ∧ f.world.Tends L b busy lost hand
      (rows.instances.map (·.2) ++ [i]) rows.inOrder)
      (.outside fun _ => .modify fun v hv => ?_) fun _ => ?_
    · exact ⟨hv.1, hv.2.congr rfl rfl rfl rfl⟩
    · refine Ends.bind (Q := fun _ f => Waits L b busy lost hand anchors seen [key] f ∧
        (key, i) ∈ f.held.instances) (.change fun _ v hv => ?_) fun _ => .pure fun _ h => h
      obtain ⟨rfl, hv⟩ := hv
      exact ⟨h.join new hv, by simp⟩

/-- Showing the items after those seen keeps the rows tended. -/
theorem showItems_tidy {anchor : Option NodeId} (before : b.regular → anchor = b.after.head?)
    (controller : Controller) (items : List Value) :
    Ends (Tended L b busy lost hand anchors seen)
      (showItems engine b.container anchor controller seen seen.length items)
      (fun _ => Tended L b busy lost hand anchors []) (Failing (Tended L b busy lost hand anchors [])) := by
  induction items generalizing seen with
  | nil => exact .pure fun _ h => h.unseen
  | cons item items ih =>
    refine (Ends.held.post fun _ _ h => h.2).bind fun r => ?_
    refine Ends.bind (Q := fun _ => Tended L b busy lost hand anchors seen) (.outside fun _ => ?_)
      fun key => ?_
    · unfold itemKey
      dsimp only
      split
      · exact .pure fun _ h => h
      · exact fun w h _ _ => h.unseen
    split
    · refine Ends.bind (Q := fun _ => Tended L b busy lost hand anchors seen) (.outside fun a => ?_)
        fun _ => ih
      exact (Ends.definition fun _ _ => .of_abort).bind fun d =>
        .modify fun w h => { h.2 with tends := h.2.tends.congr rfl rfl rfl rfl }
    · next fresh =>
      refine (instanceFor_tidy site tidies hl controller item).bind fun i => ?_
      exact (settle_tidy site before fresh).failing.bind fun _ => ih

end Show

/-- The instances of the other keys are those around the instance of a key. -/
theorem exists_filter_eq {rows : Keyed} {i : InstanceId} (keys : (rows.instances.map (·.1)).Nodup)
    (hm : (key, i) ∈ rows.instances) : ∃ front back,
      rows.instances = front ++ (key, i) :: back ∧
        rows.instances.filter (·.1 ≠ key) = front ++ back := by
  obtain ⟨front, back, hsplit⟩ := List.append_of_mem hm
  refine ⟨front, back, hsplit, ?_⟩
  rw [hsplit, List.map_append, List.map_cons] at keys
  have absent := (List.nodup_cons.mp (List.perm_middle.nodup_iff.mp keys)).1
  rw [← List.map_append] at absent
  rw [hsplit, List.filter_append, List.filter_cons_of_neg (by simp), ← List.filter_append]
  exact List.filter_eq_self.mpr fun x hx =>
    decide_eq_true fun he => absent (List.mem_map.mpr ⟨x, hx, he⟩)

/-- The instance of a key that is dropped is taken out first. -/
theorem dropKey_tidy (site : L.Site r n b hand) {order kept rest : List ItemKey} :
    Ends (fun f => f.held.order = order ∧ Tended L b busy lost hand anchors []
        ⟨{ f.held with order := kept ++ key :: rest }, f.world⟩) (dropKey b.container key)
      (fun _ f => f.held.order = order ∧ Tended L b busy lost hand anchors []
        ⟨{ f.held with order := kept ++ rest }, f.world⟩) fun stop _ => stop.GivenUp := by
  refine .pointwise fun f ⟨ho, h⟩ => ?_
  obtain ⟨rows, w⟩ := f
  have keys : (rows.instances.map (·.1)).Nodup := h.keys
  have definition : rows.definition = b.definition := h.definition
  -- Every key of the order has an instance.
  obtain ⟨⟨key', i⟩, hm, hkey⟩ := List.mem_map.mp ((h.same key).mp (Or.inr (by simp)))
  obtain rfl : key' = key := hkey
  have hi : rows.instance? key' = some i := (instance?_eq_some_iff keys).mpr hm
  obtain ⟨front, back, hsplit, left⟩ := exists_filter_eq keys hm
  have shown : Keyed.inOrder { rows with order := kept ++ key' :: rest }
      = kept.filterMap rows.instance? ++ i :: rest.filterMap rows.instance? := by
    show (kept ++ key' :: rest).filterMap rows.instance? = _
    rw [List.filterMap_append, List.filterMap_cons, hi]
  have mapped : rows.instances.map (·.2) = front.map (·.2) ++ i :: back.map (·.2) := by
    rw [hsplit, List.map_append, List.map_cons]
  have tends : w.Tends L b busy lost hand (front.map (·.2) ++ i :: back.map (·.2))
      (kept.filterMap rows.instance? ++ i :: rest.filterMap rows.instance?) :=
    mapped ▸ shown ▸ h.tends
  unfold dropKey
  refine .held_at ?_
  rw [hi]
  refine Ends.bind (Ends.outside_eq (definition ▸ tends.takeOutDrop site rows.share)) fun _ =>
    .change fun _ v hv => ?_
  obtain ⟨rfl, hv⟩ := hv
  refine ⟨ho, h.forget ?_⟩
  rwa [left, List.map_append, List.filterMap_append]

/-- The keys from a position on are dropped one after another. -/
theorem dropFrom_tidy (site : L.Site r n b hand) (position : Nat) :
    Ends (Tended L b busy lost hand anchors []) (dropFrom b.container position)
      (fun _ => Tended L b busy lost hand anchors []) fun stop _ => stop.GivenUp := by
  refine .pointwise fun f h => ?_
  obtain ⟨rows, w⟩ := f
  unfold dropFrom
  refine .held_at ?_
  -- The order is cut after the loop; on the way the keys that are left stand for it.
  have loop : Ends (fun f : Focus Keyed => f.held.order = rows.order ∧
        Tended L b busy lost hand anchors []
          ⟨{ f.held with order := rows.order.take position ++ rows.order.drop position }, f.world⟩)
      ((rows.order.drop position).forM (dropKey b.container))
      (fun _ f => f.held.order = rows.order ∧ Tended L b busy lost hand anchors []
        ⟨{ f.held with order := rows.order.take position ++ [] }, f.world⟩)
      fun stop _ => stop.GivenUp :=
    Ends.forM_hand (P := fun rest (f : Focus Keyed) => f.held.order = rows.order ∧
      Tended L b busy lost hand anchors []
        ⟨{ f.held with order := rows.order.take position ++ rest }, f.world⟩)
      fun _ _ _ => dropKey_tidy site
  rw [List.append_nil, List.take_append_drop] at loop
  refine Ends.bind (loop.pre ?_) fun _ => .change fun rows v hv => ?_
  · rintro ⟨_, _⟩ ⟨rfl, rfl⟩
    exact ⟨rfl, h⟩
  · obtain ⟨ho, hv⟩ := hv
    dsimp only at ho hv
    rw [← ho] at hv
    exact hv

/-- A patch keeps the block of the repeater together, also when it fails on the way. -/
theorem patch_tidy (site : L.Site r n b hand) (tidies : engine.Tidies)
    (hl : L.library = engine.library) {anchor : Option NodeId}
    (before : b.regular → anchor = b.after.head?) (controller : Controller) (items : List Value) :
    Ends (Tended L b busy lost hand anchors []) (patch engine b.container anchor items controller)
      (fun _ => Tended L b busy lost hand anchors [])
      (Failing (Tended L b busy lost hand anchors [])) := by
  have shown : Ends (Tended L b busy lost hand anchors [])
      (showItems engine b.container anchor controller [] 0 items)
      (fun _ => Tended L b busy lost hand anchors [])
      (Failing (Tended L b busy lost hand anchors [])) :=
    showItems_tidy site tidies hl before controller items
  have congr {f : Focus Keyed} (h : Tended L b busy lost hand anchors [] f)
      (newcomers : List InstanceId) :
      Tended L b busy lost hand anchors [] { f with world := { f.world with newcomers } } :=
    { h with tends := h.tends.congr rfl rfl rfl rfl }
  exact .welcoming ((shown.bind fun position => (dropFrom_tidy site position).failing).mono
    (fun _ h => h) (fun _ _ h newcomers => congr h newcomers)
    fun _ _ h newcomers => h.mono fun h => congr h newcomers)

/-- So does a patch of a repeater that was handed over. -/
theorem patch_serves (site : L.Site r n b hand) (tidies : engine.Tidies)
    (hl : L.library = engine.library) {anchor : Option NodeId}
    (before : b.regular → anchor = b.after.head?) (controller : Controller) (items : List Value)
    {rows : Keyed} {w : World} (definition : rows.definition = b.definition)
    (h : w.Serves L b busy lost hand anchors (.keyed rows)) :
    Ends (⟨rows, w⟩ = ·) (patch engine b.container anchor items controller)
      (fun _ f => f.world.Serves L b busy lost hand anchors (.keyed f.held))
      (Failing fun f => f.world.Serves L b busy lost hand anchors (.keyed f.held)) := by
  have serves {f : Focus Keyed} (hf : Tended L b busy lost hand anchors [] f) :
      f.world.Serves L b busy lost hand anchors (.keyed f.held) := by
    refine ⟨fun id hlt => ⟨?_, ?_, hf.order⟩, hf.anchors, ⟨hf.order, hf.keys, fun key => ?_⟩,
      hf.tends⟩
    · rw [hf.definition]
      exact hlt
    · rw [hf.definition]
      exact hf.tends.ranks
    · simpa using hf.same key
  refine (patch_tidy site tidies hl before controller items).mono ?_ (fun _ _ hf => serves hf)
    fun _ _ hf => hf.mono serves
  rintro _ rfl
  obtain ⟨order, keys, same⟩ := h.even
  exact ⟨definition, h.anchors, order, keys, fun key => by simpa using same key, rfl, h.tends⟩

end Keyed

end ComponentView
