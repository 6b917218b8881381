import ComponentView.Proofs.Repeat.Keyed
import ComponentView.Proofs.Repeat.Checks

/-! # Patches of a repeater by key

A patch walks over its items, and after each of them the first positions of the order belong to the
keys that have come (`Keyed.Showing`). Wherever it stops, the keys of the order are those of the
instances and the roots stand as one block (`Keyed.Settled`); so any sequence of patches leaves the
foreign children of the container as they were (`Keyed.block_of_calls`). What is asked of the rows is
that the renders and constructions to which the walk comes are quiet about the container
(`Keyed.Unnoticed`); any of them may fail. -/

namespace ComponentView

/-- Where a computation ends or stops is where it comes to from its one state. -/
theorem Ends.recall {σ α : Type} {x : EStateM Stop σ α} {s : σ} {Q : α → σ → Prop}
    {E : Stop → σ → Prop} (h : Ends (· = s) x Q E) :
    Ends (· = s) x (fun a later => Q a later ∧ x s = .ok a later)
      fun stop later => E stop later ∧ x s = .error stop later := by
  rintro _ rfl
  have := h _ rfl
  cases hx : x _ <;> rw [hx] at this <;> exact ⟨this, rfl⟩

namespace Keyed

/-- The key of an item, if it has one. -/
def keyAt? (path : Path) (item : Value) : Option ItemKey := ItemKey.ofValue? (item.get path)

/-! ## The walk over the items -/

/-- Shows the item that comes next, where `seen` holds the keys that have come before; the result is
the keys that have come then. -/
def showItem (engine : Engine) (container : NodeId) (anchor : Option NodeId)
    (controller : Controller) (seen : List ItemKey) (item : Value) :
    Holding Keyed (List ItemKey) := do
  let r ← Holding.held
  let key ← Holding.outside (r.itemKey item)
  if key ∈ seen then
    Holding.outside do
      let d ← engine.library.definition r.definition
      Run.log .warn (d.name ++ ": duplicate repeat key `" ++ key.text ++ "`, item skipped")
    return seen
  else
    let i ← instanceFor engine controller key item
    settle container anchor key i seen.length
    return key :: seen

/-- Showing items is showing the first of them and then the others. -/
theorem showItems_cons (engine : Engine) (container : NodeId) (anchor : Option NodeId)
    (controller : Controller) (seen : List ItemKey) (item : Value) (rest : List Value) :
    showItems engine container anchor controller seen seen.length (item :: rest)
      = showItem engine container anchor controller seen item >>= fun seen =>
        showItems engine container anchor controller seen seen.length rest := by
  rw [showItems, showItem]
  simp only [bind_assoc]
  refine bind_congr fun r => bind_congr fun key => ?_
  split <;> simp only [bind_assoc, pure_bind, List.length_cons]

/-- The instance of a key has been rendered with an item. -/
structure Rendering where
  key : ItemKey
  row : InstanceId
  item : Value

/-- The walk over items from the focus `f` comes to its end at `g`. On its way it has passed over the
items whose keys had come before, and `done` are the renderings that it has made for the others, in
their order. -/
inductive Walks (engine : Engine) (container : NodeId) (anchor : Option NodeId)
    (controller : Controller) :
    (seen : List ItemKey) → List Value → Focus Keyed → List Rendering → Focus Keyed → Prop where
  | nil (seen : List ItemKey) (f : Focus Keyed) :
    Walks engine container anchor controller seen [] f [] f
  | skip {seen : List ItemKey} {item : Value} {rest : List Value} {f f' g : Focus Keyed}
      {done : List Rendering} {key : ItemKey} (found : keyAt? f.held.key item = some key)
      (old : key ∈ seen)
      (step : showItem engine container anchor controller seen item f = .ok seen f')
      (onward : Walks engine container anchor controller seen rest f' done g) :
      Walks engine container anchor controller seen (item :: rest) f done g
  | render {seen : List ItemKey} {item : Value} {rest : List Value} {f f' g : Focus Keyed}
      {done : List Rendering} {key : ItemKey} {i : InstanceId}
      (found : keyAt? f.held.key item = some key) (new : key ∉ seen)
      (serves : engine.Serves f.held.definition f.held.share (f.held.instance? key) item controller
        f.world i)
      (step : showItem engine container anchor controller seen item f = .ok (key :: seen) f')
      (onward : Walks engine container anchor controller (key :: seen) rest f' done g) :
      Walks engine container anchor controller seen (item :: rest) f (⟨key, i, item⟩ :: done) g

/-- What the walk over items comes to does not edit the container: at each item with a new key, what
is done for it there is quiet. -/
def Unnoticed (below : Engine) (library : Library) (container : NodeId) (foreign : List NodeId)
    (anchor : Option NodeId) (controller : Controller) :
    (seen : List ItemKey) → List Value → Focus Keyed → Prop
  | _, [], _ => True
  | seen, item :: rest, f =>
    (∀ key, keyAt? f.held.key item = some key → key ∉ seen →
      below.ServesQuietly container f.held.definition
        (fun rows w => w.Stocked container foreign f.held.definition rows) f.held.share f.held.rows
        (f.held.instance? key) item controller f.world) ∧
    ∀ seen' f', showItem (.above (fun _ => below) library) container anchor controller seen item f
        = .ok seen' f' →
      Unnoticed below library container foreign anchor controller seen' rest f'

/-! ## What a walk keeps up -/

/-- A repeater of a definition by the keys at a path stands in its container, and all its instances
have been placed. -/
structure Settled (container : NodeId) (before after : List NodeId) (id : DefinitionId)
    (path : Path) (f : Focus Keyed) : Prop where
  definition : f.held.definition = id
  path : f.held.key = path
  stands : Stands container before after f.held f.world
  full : ∀ x ∈ f.held.instances, x.1 ∈ f.held.order

/-- The repeater is settled, and the pool it takes from is sound. -/
structure Ready (container : NodeId) (before after : List NodeId) (id : DefinitionId)
    (path : Path) (f : Focus Keyed) : Prop extends Settled container before after id path f where
  stocked : f.world.Stocked container (before ++ after) id f.held.rows

/-- Where a patch stops: it failed and the repeater is settled, or the run was given up. That is not
over a key without an instance unless the engine does it. -/
def Broken (engine : Engine) (container : NodeId) (before after : List NodeId) (id : DefinitionId)
    (path : Path) (stop : Stop) (f : Focus Keyed) : Prop :=
  stop.Barred ∨ stop.GivenUp ∧ engine.Stops stop ∨
    (∃ cause, stop = .fault cause) ∧ Settled container before after id path f

variable {container : NodeId} {before after : List NodeId} {r : Keyed} {w later : World}
  {key : ItemKey} {i : InstanceId} {id : DefinitionId} {path : Path} (library : Library)
  {below : Engine}

/-- What does not disturb the container leaves the repeater where it is. -/
theorem Stands.undisturbed (h : Stands container before after r w)
    (hu : World.Undisturbed container r.rows w later)
    (tenants : later.Tenants container (before ++ after) r.rows) :
    Stands container before after r later := by
  have roots {x : ItemKey × InstanceId} (hx : x ∈ r.instances) : later.root? x.2 = w.root? x.2 :=
    hu.roots x.2 (List.mem_map_of_mem hx)
  have block : r.block later = r.block w := by
    refine List.filterMap_congr fun k _ => ?_
    unfold Keyed.rootOf?
    cases hi : r.instance? k with
    | none => rfl
    | some i => exact roots ((instance?_eq_some_iff h.keys).mp hi)
  exact
    { order := h.order, keys := h.keys, occupied := h.occupied, tenants
      unplaced := fun x hx ho root hr => by
        rw [roots hx] at hr
        rw [hu.children]
        exact h.unplaced x hx ho root hr
      children := by rw [hu.children, block]; exact h.children
      nodup := by rw [hu.children]; exact h.nodup
      linked := fun c => by rw [hu.parent, hu.children]; exact h.linked c
      inside := Nat.lt_of_lt_of_le h.inside hu.size }

/-- A new tenant that is not in the container yet comes under a new key. -/
theorem Stands.receive (h : Stands container before after r w) (hkey : key ∉ r.instances.map (·.1))
    (tenants : w.Tenants container (before ++ after) (r.rows ++ [i]))
    (unplaced : ∀ root, w.root? i = some root → root ∉ w.document.children container) :
    Stands container before after { r with instances := r.instances ++ [(key, i)] } w := by
  have keys : ((r.instances ++ [(key, i)]).map (·.1)).Nodup := by
    rw [List.map_append]
    refine List.nodup_append.mpr ⟨h.keys, by simp, fun a ha b hb hab => ?_⟩
    obtain rfl : b = key := by simpa using hb
    exact hkey (hab ▸ ha)
  have block : Keyed.block { r with instances := r.instances ++ [(key, i)] } w = r.block w := by
    refine List.filterMap_congr fun k hk => ?_
    unfold Keyed.rootOf?
    refine congrArg (Option.bind · w.root?) (Option.ext fun j => ?_)
    rw [instance?_eq_some_iff keys, instance?_eq_some_iff h.keys, List.mem_append,
      List.mem_singleton, or_iff_left]
    rintro ⟨⟩
    exact hkey (h.occupied _ hk)
  refine
    { order := h.order, keys, occupied := fun k hk => ?_
      tenants := by rwa [Keyed.rows, List.map_append], unplaced := fun x hx ho => ?_
      children := by rw [block]; exact h.children, nodup := h.nodup, linked := h.linked
      inside := h.inside }
  · rw [List.map_append]
    exact List.mem_append_left _ (h.occupied k hk)
  · rcases List.mem_append.mp hx with hx | hx
    · exact h.unplaced x hx ho
    · obtain rfl := List.mem_singleton.mp hx
      exact unplaced

/-- What the instance of a key comes to: the repeater has it, and it has been served. -/
structure Shown (engine : Engine) (controller : Controller) (r : Keyed) (w : World) (key : ItemKey)
    (item : Value) (i : InstanceId) (f : Focus Keyed) : Prop where
  order : f.held.order = r.order
  definition : f.held.definition = r.definition
  path : f.held.key = r.key
  instances : ∀ x, x ∈ f.held.instances ↔ x ∈ r.instances ∨ x = (key, i)
  serves : engine.Serves r.definition r.share (r.instance? key) item controller w i

/-- The instance of a key is rendered or made. -/
theorem instanceFor_ends (h : Ready container before after id path ⟨r, w⟩)
    {controller : Controller} {item : Value}
    (quiet : below.ServesQuietly container id
      (fun rows w => w.Stocked container (before ++ after) id rows) r.share r.rows
      (r.instance? key) item controller w) :
    Ends (fun f => f.held = r ∧ f.world = w)
      (instanceFor (Engine.above (fun _ => below) library) controller key item)
      (fun i f => Shown (Engine.above (fun _ => below) library) controller r w key item i f ∧
        Stands container before after f.held f.world ∧
        f.world.Stocked container (before ++ after) id f.held.rows)
      (Broken (Engine.above (fun _ => below) library) container before after id path) := by
  have stands : Stands container before after r w := h.stands
  have stocked : w.Stocked container (before ++ after) id r.rows := h.stocked
  have definition : r.definition = id := h.definition
  have tenants {later : World}
      (hs : later.Stocked container (before ++ after) id r.rows) :
      later.Tenants container (before ++ after) r.rows :=
    hs.tenants.sublist (List.sublist_append_left ..)
  unfold instanceFor
  refine .held_bind (P := (· = w)) ?_
  -- Where the engine stops, the repeater is as it was.
  have broken {γ : Type} {x : Run γ} {stop : Stop} {f : Focus Keyed}
      (hx : ∀ stop later, x w = .error stop later →
        (Engine.above (fun _ => below) library).Stops stop)
      (hf : f.held = r ∧ (stop.GivenUp ∨ World.Undisturbed container r.rows w f.world ∧
        f.world.Stocked container (before ++ after) id r.rows) ∧ x w = .error stop f.world) :
      Broken (Engine.above (fun _ => below) library) container before after id path stop f := by
    obtain ⟨rfl, hstop, he⟩ := hf
    cases stop with
    | abort cause => exact Or.inr (Or.inl ⟨⟨cause, rfl⟩, hx _ _ he⟩)
    | fault cause =>
      obtain ⟨hu, hs⟩ := hstop.resolve_left fun ⟨_, hg⟩ => nomatch hg
      exact Or.inr (Or.inr ⟨⟨cause, rfl⟩, h.definition, h.path,
        stands.undisturbed hu (tenants hs), h.full⟩)
  split
  · next i hi =>
    have hm := (instance?_eq_some_iff stands.keys).mp hi
    rw [hi] at quiet
    have quiet : below.RendersQuietly container
      (fun rows w => w.Stocked container (before ++ after) id rows) r.rows i item controller w := quiet
    have render := Ends.outside_at (a := r) (quiet stocked).recall
    refine (render.mono (fun _ hf => hf) (fun _ _ hf => hf) fun stop f hf =>
      broken (fun _ _ he => Or.inl ⟨_, _, _, _, _, he⟩) hf).bind fun stats => .pure fun f hf => ?_
    obtain ⟨r', v⟩ := f
    obtain ⟨rfl, ⟨hu, hs⟩, he⟩ := hf
    refine ⟨⟨rfl, rfl, rfl, fun x => ?_, ?_⟩, stands.undisturbed hu (tenants hs), hs⟩
    · exact (or_iff_left_of_imp fun hx => hx ▸ hm).symm
    · rw [hi]
      exact ⟨rfl, stats, v, he⟩
  · next hi =>
    have hkey : key ∉ r.instances.map (·.1) := by
      intro hk
      obtain ⟨⟨_, i⟩, hm, rfl⟩ := List.mem_map.mp hk
      rw [(instance?_eq_some_iff stands.keys).mpr hm] at hi
      cases hi
    rw [hi] at quiet
    have acquire := Ends.outside_at (a := r) (Engine.AcquiresQuietly.ends library
      (World.rule_stocked container (before ++ after) id) quiet stocked).recall
    rw [← definition] at acquire
    refine (acquire.mono (fun _ hf => hf) (fun _ _ hf => hf) fun stop f hf =>
      broken (fun _ _ he => Or.inr ⟨_, _, _, _, _, _, he⟩) (definition ▸ hf)).bind fun i => ?_
    rintro ⟨r', v⟩ ⟨rfl, ⟨hu, hs, unplaced⟩, he⟩
    rw [definition] at hs
    have stocked' : World.Stocked container (before ++ after) id (r'.rows ++ [i])
        { v with newcomers := i :: v.newcomers } := hs.congr rfl rfl rfl rfl
    have undisturbed : World.Undisturbed container r'.rows w
        { v with newcomers := i :: v.newcomers } := hu.congr rfl rfl rfl rfl rfl rfl
    have rows : Keyed.rows { r' with instances := r'.instances ++ [(key, i)] } = r'.rows ++ [i] :=
      List.map_append
    refine ⟨⟨rfl, rfl, rfl, fun x => ?_, ?_⟩, ?_, ?_⟩
    · show x ∈ r'.instances ++ [(key, i)] ↔ _
      rw [List.mem_append, List.mem_singleton]
    · rw [hi]
      exact ⟨v, he⟩
    · refine (stands.undisturbed undisturbed ?_).receive hkey ?_ unplaced
      · exact tenants (stocked'.sublist (List.sublist_append_left ..))
      · exact stocked'.tenants.sublist (List.sublist_append_left ..)
    · show World.Stocked _ _ _ (Keyed.rows { r' with instances := r'.instances ++ [(key, i)] }) _
      rw [rows]
      exact stocked'

/-- Only the document, the instances, the pools and what is held matter. -/
theorem Ready.congr (h : Ready container before after id path ⟨r, w⟩) (document : later.document = w.document)
    (instances : later.instances = w.instances) (pools : later.pools = w.pools)
    (busy : later.busy = w.busy) : Ready container before after id path ⟨r, later⟩ := by
  have stocked : later.Stocked container (before ++ after) id r.rows :=
    h.stocked.congr document instances pools busy
  have undisturbed : World.Undisturbed container r.rows w later := by
    refine ⟨by rw [document], fun c => by rw [document], document ▸ Nat.le_refl _, busy, fun i _ => ?_⟩
    rw [World.root?, instances, World.root?]
  exact ⟨⟨h.definition, h.path, h.stands.undisturbed undisturbed
    (stocked.tenants.sublist (List.sublist_append_left ..)), h.full⟩, stocked⟩

/-- What a patch has made of the items that have come, with the renderings `done`: the first
positions belong to their keys, and each is one of the first item that has its key. -/
structure Showing (container : NodeId) (before after : List NodeId) (id : DefinitionId)
    (path : Path) (r₀ : Keyed) (past : List Value) (done : List Rendering) (f : Focus Keyed) :
    Prop where
  ready : Ready container before after id path f
  kept : ∀ x ∈ r₀.instances, x ∈ f.held.instances
  order : f.held.order.take done.length = done.map (·.key)
  keys : ∃ keys : List ItemKey, past.map (keyAt? path) = keys.map some ∧
    done.map (·.key) = keys.eraseDups
  rows : ∀ x ∈ done, (x.key, x.row) ∈ f.held.instances ∧
    past.find? (keyAt? path · = some x.key) = some x.item

namespace Showing

variable {r₀ : Keyed} {past : List Value} {done : List Rendering} {item : Value}

/-- There are positions for all keys that have come. -/
theorem length_le (h : Showing container before after id path r₀ past done ⟨r, w⟩) :
    done.length ≤ r.order.length := by
  have := congrArg List.length h.order
  rw [List.length_take, List.length_map] at this
  exact this ▸ Nat.min_le_right ..

/-- A rendering of an item that has come is one of it when more items have come. -/
theorem find?_append {x : Rendering} (h : past.find? (keyAt? path · = some x.key) = some x.item) :
    (past ++ [item]).find? (keyAt? path · = some x.key) = some x.item := by
  rw [List.find?_append, h]
  rfl

/-- An item whose key has come before changes nothing. -/
theorem skip (h : Showing container before after id path r₀ past done ⟨r, w⟩)
    (hkey : keyAt? path item = some key) (hseen : key ∈ done.map (·.key)) :
    Showing container before after id path r₀ (past ++ [item]) done ⟨r, w⟩ where
  ready := h.ready
  kept := h.kept
  order := h.order
  keys := by
    obtain ⟨keys, hpast, hkeys⟩ := h.keys
    refine ⟨keys ++ [key], by simp [hpast, hkey], ?_⟩
    have : key ∈ keys := by
      rw [← List.mem_eraseDups, ← hkeys]
      exact hseen
    rw [List.eraseDups_append, hkeys]
    simp [List.removeAll, this]
  rows x hx := ⟨(h.rows x hx).1, find?_append (h.rows x hx).2⟩

/-- An item with a new key comes to the next position. -/
theorem advance {engine : Engine} {controller : Controller}
    (h : Showing container before after id path r₀ past done ⟨r, w⟩)
    (hkey : keyAt? path item = some key) (hseen : key ∉ done.map (·.key)) {r' : Keyed} {v : World}
    (shown : Shown engine controller r w key item i ⟨r', v⟩)
    (ready : Ready container before after id path
      ⟨{ r' with order := pullForward key done.length r'.order }, later⟩) :
    Showing container before after id path r₀ (past ++ [item]) (done ++ [⟨key, i, item⟩])
      ⟨{ r' with order := pullForward key done.length r'.order }, later⟩ where
  ready := ready
  kept x hx := (shown.instances x).mpr (Or.inl (h.kept x hx))
  order := by
    show (pullForward key done.length r'.order).take _ = _
    rw [show r'.order = r.order from shown.order, List.length_append, List.length_singleton,
      take_pullForward h.length_le, List.map_append]
    exact congrArg (· ++ [key]) h.order
  keys := by
    obtain ⟨keys, hpast, hkeys⟩ := h.keys
    refine ⟨keys ++ [key], by simp [hpast, hkey], ?_⟩
    have : key ∉ keys := by
      rw [← List.mem_eraseDups, ← hkeys]
      exact hseen
    rw [List.eraseDups_append, ← hkeys]
    simp [List.removeAll, this, List.eraseDups_cons]
  rows x hx := by
    rcases List.mem_append.mp hx with hx | hx
    · obtain ⟨hm, hf⟩ := h.rows x hx
      exact ⟨(shown.instances _).mpr (Or.inl hm), find?_append hf⟩
    · obtain rfl := List.mem_singleton.mp hx
      refine ⟨(shown.instances _).mpr (Or.inr rfl), ?_⟩
      -- No item with the key has come before.
      have first : past.find? (keyAt? path · = some key) = none := by
        obtain ⟨keys, hpast, hkeys⟩ := h.keys
        refine List.find?_eq_none.mpr fun x hx hk => hseen ?_
        have hk : some key ∈ keys.map some := hpast ▸ of_decide_eq_true hk ▸
          List.mem_map_of_mem hx
        rw [hkeys, List.mem_eraseDups]
        simpa using hk
      simp [first, hkey]

/-- No instance has been rendered twice. -/
theorem nodup (h : Showing container before after id path r₀ past done ⟨r, w⟩) :
    (done.map (·.row)).Nodup := by
  have distinct : (done.map (·.key)).Nodup :=
    h.order ▸ h.ready.stands.order.sublist (List.take_sublist ..)
  refine List.Nodup.map_on (fun x hx y hy he => ?_) (List.Nodup.of_map _ distinct)
  obtain ⟨hx', -⟩ := h.rows x hx
  obtain ⟨hy', -⟩ := h.rows y hy
  have same : (x.key, x.row) = (y.key, y.row) :=
    List.inj_on_of_nodup_map h.ready.stands.tenants.nodup hx' hy' he
  exact List.inj_on_of_nodup_map distinct hx hy (congrArg Prod.fst same)

end Showing

/-- The key of an item is found, or the patch fails. -/
theorem itemKey_ends {item : Value} : Ends (· = w) (r.itemKey item)
    (fun key v => keyAt? r.key item = some key ∧ v = w)
    fun stop v => (∃ cause, stop = .fault cause) ∧ v = w := by
  unfold itemKey keyAt?
  dsimp only
  split
  · next hkey => exact .pure fun v hv => ⟨hkey, hv⟩
  · exact .throw fun _ hv => ⟨⟨_, rfl⟩, hv⟩

/-- One item is shown: it is passed over, or its key comes to the next position with an instance that
has been served. -/
theorem showItem_ends {r₀ : Keyed} {past : List Value} {done : List Rendering} {item : Value}
    {controller : Controller} {seen : List ItemKey} (same : seen = (done.map (·.key)).reverse)
    (h : Showing container before after id path r₀ past done ⟨r, w⟩)
    (quiet : ∀ key, keyAt? r.key item = some key → key ∉ seen →
      below.ServesQuietly container r.definition
        (fun rows w => w.Stocked container (before ++ after) r.definition rows) r.share r.rows
        (r.instance? key) item controller w) :
    Ends (· = ⟨r, w⟩)
      (showItem (Engine.above (fun _ => below) library) container after.head? controller seen item)
      (fun seen' g => ∃ key, keyAt? r.key item = some key ∧
        (key ∈ seen ∧ seen' = seen ∧
            Showing container before after id path r₀ (past ++ [item]) done g ∨
          key ∉ seen ∧ seen' = key :: seen ∧ ∃ i,
            (Engine.above (fun _ => below) library).Serves r.definition r.share (r.instance? key) item
              controller w i ∧
            Showing container before after id path r₀ (past ++ [item]) (done ++ [⟨key, i, item⟩]) g))
      (Broken (Engine.above (fun _ => below) library) container before after id path) := by
  have settled : Settled container before after id path ⟨r, w⟩ := h.ready.toSettled
  have definition : r.definition = id := h.ready.definition
  have mem {key : ItemKey} : key ∈ seen ↔ key ∈ done.map (·.key) := by rw [same, List.mem_reverse]
  have length : seen.length = done.length := by rw [same, List.length_reverse, List.length_map]
  unfold showItem
  refine Ends.pre (Ends.held_bind (P := (· = w)) ?_) (by rintro _ rfl; exact ⟨rfl, rfl⟩)
  refine Ends.bind ((Ends.outside_at itemKey_ends).mono (fun _ hf => hf) (fun _ _ hf => hf)
    fun _ f hf => ?_) fun key => ?_
  · obtain ⟨_, _⟩ := f
    obtain ⟨rfl, hfault, rfl⟩ := hf
    exact Or.inr (Or.inr ⟨hfault, settled⟩)
  refine Ends.pre (P := fun f => keyAt? r.key item = some key ∧ f.held = r ∧ f.world = w)
    (.assume fun found => ?_) fun f hf => ⟨hf.2.1, hf.1, hf.2.2⟩
  have hkey : keyAt? path item = some key := by
    rw [← found, show r.key = path from h.ready.path]
  split
  · next hseen =>
    refine Ends.bind
      (Q := fun _ => Showing container before after id path r₀ (past ++ [item]) done)
      ?_ fun _ => .pure fun g hg => ⟨key, found, Or.inl ⟨hseen, rfl, hg⟩⟩
    refine (Ends.outside_at (P := (· = w)) (Q := fun _ v => ∃ entries, v = { w with
      journal := w.journal ++ entries }) (E := fun stop _ => stop.Barred) ?_).mono
        (fun _ hf => hf) ?_ fun _ _ hf => Or.inl hf.2
    · exact Library.definition_ends.bind fun _ => .modify fun v hv => by
        obtain ⟨-, rfl⟩ := hv
        exact ⟨_, rfl⟩
    · rintro _ ⟨r', _⟩ ⟨hr, entries, rfl⟩
      obtain rfl : r' = r := hr
      have next := h.skip hkey (mem.mp hseen)
      exact ⟨next.1.congr rfl rfl rfl rfl, next.2, next.3, next.4, next.5⟩
  · next hseen =>
    have serves := quiet key found hseen
    rw [definition] at serves
    refine (instanceFor_ends library h.ready serves).bind fun i => ?_
    rintro ⟨r', v⟩ ⟨shown, stands, stocked⟩
    have hm : (key, i) ∈ r'.instances := (shown.instances _).mpr (Or.inr rfl)
    have hrow : i ∈ r'.rows := List.mem_map_of_mem (f := (·.2)) hm
    obtain ⟨-, root, hroot, -⟩ := stands.tenants.present i hrow
    have order : r'.order = r.order := shown.order
    have hnew : key ∉ done.map (·.key) := fun hk => hseen (mem.mpr hk)
    have hk : key ∉ r'.order.take seen.length := by
      rw [order, length, show r.order.take done.length = _ from h.order]
      exact hnew
    have fits : seen.length ≤ r'.order.length := by
      rw [order, length]
      exact h.length_le
    refine Ends.bind (P := fun f => f.held = r' ∧ f.world = v)
      (Q := fun _ => Showing container before after id path r₀ (past ++ [item])
        (done ++ [⟨key, i, item⟩]))
      ((settle_ends stands hm hk fits hroot).mono (fun _ hf => hf) ?_
        fun _ _ hf => hf.elim)
      (fun _ => .pure fun g hg => ⟨key, found, Or.inr ⟨hseen, rfl, i, shown.serves, hg⟩⟩) _ ⟨rfl, rfl⟩
    rintro _ ⟨_, later⟩ ⟨rfl, placed, moved⟩
    have moved : later = v ∨ ∃ reference,
      later = { v with document := v.document.insertBefore container root reference } := moved
    rw [length] at placed ⊢
    refine h.advance hkey hnew shown ⟨⟨shown.definition.trans h.ready.definition,
      shown.path.trans h.ready.path, placed, fun x hx => ?_⟩, ?_⟩
    · refine mem_pullForward.mpr ?_
      rcases (shown.instances x).mp hx with hx | rfl
      · exact Or.inr (order ▸ h.ready.full x hx)
      · exact Or.inl rfl
    · rcases moved with rfl | ⟨reference, rfl⟩
      · exact stocked
      · exact stocked.of_insertBefore hrow hroot reference

/-- Items are shown one after another. -/
theorem showItems_ends {r₀ : Keyed} (controller : Controller) {past rest : List Value}
    {done : List Rendering} {seen : List ItemKey} (same : seen = (done.map (·.key)).reverse)
    {f : Focus Keyed} (h : Showing container before after id path r₀ past done f)
    (quiet : Unnoticed below library container (before ++ after) after.head? controller seen rest f) :
    Ends (· = f)
      (showItems (Engine.above (fun _ => below) library) container after.head? controller seen
        seen.length rest)
      (fun position g => ∃ new, position = (done ++ new).length ∧
        Walks (Engine.above (fun _ => below) library) container after.head? controller seen rest f
          new g ∧
        Showing container before after id path r₀ (past ++ rest) (done ++ new) g)
      (Broken (Engine.above (fun _ => below) library) container before after id path) := by
  -- By induction on the items that are left, while `past` and `done` grow.
  induction rest generalizing past done seen f with
  | nil =>
    refine .pure ?_
    rintro _ rfl
    refine ⟨[], ?_, .nil .., by rwa [List.append_nil, List.append_nil]⟩
    rw [same, List.length_reverse, List.length_map, List.append_nil]
  | cons item rest ih =>
    obtain ⟨r, w⟩ := f
    obtain ⟨first, others⟩ := quiet
    rw [showItems_cons]
    refine (showItem_ends library same h first).recall.mono (fun _ hf => hf) (fun _ _ hf => hf)
      (fun _ _ hf => hf.1) |>.bind fun seen' => .pointwise ?_
    rintro f' ⟨⟨key, found, hshown⟩, step⟩
    have onward := others seen' f' step
    rcases hshown with ⟨old, rfl, next⟩ | ⟨new, rfl, i, serves, next⟩
    · refine (ih same next onward).mono (fun _ hf => hf.symm) (fun position g hg => ?_)
        fun _ _ hf => hf
      obtain ⟨more, length, walks, showing⟩ := hg
      exact ⟨more, length, .skip found old step walks, by rwa [List.append_cons]⟩
    · have same' : key :: seen = ((done ++ [(⟨key, i, item⟩ : Rendering)]).map (·.key)).reverse := by
        simp [same]
      refine (ih same' next onward).mono (fun _ hf => hf.symm) (fun position g hg => ?_)
        fun _ _ hf => hf
      obtain ⟨more, length, walks, showing⟩ := hg
      refine ⟨⟨key, i, item⟩ :: more, ?_, .render found new serves step walks, ?_⟩
      · rw [length, ← List.append_cons]
      · rwa [List.append_cons past, List.append_cons done]

/-- The order is that of the items, the first of each key. A key that was there keeps its instance.
The walk over the items has rendered every instance that is there with the first item of its key, and
it has rendered no instance twice. -/
structure InStep (engine : Engine) (container : NodeId) (anchor : Option NodeId)
    (controller : Controller) (items : List Value) (f g : Focus Keyed) : Prop where
  order : ∃ keys : List ItemKey, items.map (keyAt? f.held.key) = keys.map some ∧
    g.held.order = keys.eraseDups
  kept : ∀ key i, f.held.instance? key = some i → key ∈ g.held.order →
    g.held.instance? key = some i
  rendered : ∃ done last, Walks engine container anchor controller [] items f done last ∧
    (∀ key i, g.held.instance? key = some i ↔ ∃ item,
      items.find? (keyAt? f.held.key · = some key) = some item ∧ ⟨key, i, item⟩ ∈ done) ∧
    (done.map (·.row)).Nodup

/-- Newcomers do not matter to a repeater that is settled. -/
theorem Settled.welcomed (h : Settled container before after id path ⟨r, w⟩)
    (newcomers : List InstanceId) :
    Settled container before after id path ⟨r, { w with newcomers }⟩ := by
  obtain ⟨definition, path, stands, full⟩ := h
  refine ⟨definition, path, stands.undisturbed ⟨rfl, fun _ => Iff.rfl, Nat.le_refl _, rfl,
    fun _ _ => rfl⟩ ?_, full⟩
  exact ⟨stands.tenants.1, stands.tenants.2, stands.tenants.3, stands.tenants.4, stands.tenants.5⟩

/-- A patch that ends leaves the repeater settled and in step with the items; one that fails leaves
it settled. -/
theorem patch_ends (h : Ready container before after id path ⟨r, w⟩) {items : List Value}
    {controller : Controller}
    (quiet : Unnoticed below library container (before ++ after) after.head? controller [] items
      ⟨r, w⟩) :
    Ends (· = ⟨r, w⟩)
      (patch (Engine.above (fun _ => below) library) container after.head? items controller)
      (fun _ g => Settled container before after id path g ∧
        InStep (Engine.above (fun _ => below) library) container after.head? controller items ⟨r, w⟩ g)
      (Broken (Engine.above (fun _ => below) library) container before after id path) := by
  have start : Showing container before after id path r [] [] ⟨r, w⟩ :=
    ⟨h, fun _ hx => hx, by simp, ⟨[], by simp⟩, nofun⟩
  obtain rfl : r.key = path := h.path
  refine .welcoming ?_
  refine Ends.bind ((showItems_ends library controller rfl start quiet).mono (fun _ hf => hf)
    (fun _ _ hf => hf) ?_) fun position => ?_
  · rintro stop f (hb | hg | hs) newcomers
    · exact Or.inl hb
    · exact Or.inr (Or.inl hg)
    · exact Or.inr (Or.inr ⟨hs.1, hs.2.welcomed newcomers⟩)
  rintro ⟨r₁, w₁⟩ ⟨done, rfl, walks, showing⟩
  rw [List.nil_append] at showing ⊢
  have positions : r₁.order.take done.length = done.map (·.key) := showing.order
  refine (dropFrom_ends showing.ready.stands showing.ready.full done.length).mono
    (fun _ hf => hf) ?_ (fun _ _ hs _ => Or.inl hs) _ ⟨rfl, rfl⟩
  rintro _ ⟨r₂, w₂⟩ ⟨held, instances, stands⟩ newcomers
  rw [positions] at held instances
  have order : r₂.order = done.map (·.key) := congrArg Keyed.order held
  have mem {key : ItemKey} {i : InstanceId} :
      r₂.instance? key = some i ↔ (key, i) ∈ r₁.instances ∧ key ∈ done.map (·.key) :=
    (instance?_eq_some_iff stands.keys).trans (instances (key, i))
  constructor
  · refine Settled.welcomed ⟨?_, ?_, stands, fun x hx => ?_⟩ newcomers
    · exact (congrArg Keyed.definition held).trans showing.ready.definition
    · exact (congrArg Keyed.key held).trans showing.ready.path
    · exact order ▸ ((instances x).mp hx).2
  · refine ⟨?_, fun key i hi hk => ?_, done, _, walks, fun key i => ?_, showing.nodup⟩
    · exact order ▸ showing.keys
    · exact mem.mpr ⟨showing.kept _ ((instance?_eq_some_iff h.stands.keys).mp hi), order ▸ hk⟩
    · constructor
      · intro hi
        obtain ⟨hm, hk⟩ := mem.mp hi
        obtain ⟨x, hx, rfl⟩ := List.mem_map.mp hk
        obtain ⟨hm', hf⟩ := showing.rows x hx
        obtain rfl : i = x.row := congrArg Prod.snd
          (List.inj_on_of_nodup_map showing.ready.stands.keys hm hm' rfl)
        exact ⟨x.item, hf, hx⟩
      · rintro ⟨item, -, hx⟩
        exact mem.mpr ⟨(showing.rows _ hx).1, List.mem_map_of_mem (f := (·.key)) hx⟩

/-! ## Sequences of patches -/

/-- A patch can be made: the block stands before the child of the container that is its anchor, and
the instances in the pool of the definition are distinct and held nowhere else. -/
structure Due (container : NodeId) (before after : List NodeId) (f : Focus Keyed) : Prop where
  children : f.world.document.children container = before ++ f.held.block f.world ++ after
  stocked : f.world.Stocked container (before ++ after) f.held.definition f.held.rows

/-- Patches of one repeater in one container, one after another, each of which ends or fails. What
they come to does not edit the container. -/
inductive Calls (below : Engine) (library : Library) (container : NodeId) (foreign : List NodeId) :
    Focus Keyed → Focus Keyed → Prop where
  | none (f : Focus Keyed) : Calls below library container foreign f f
  | next {f g h : Focus Keyed} {before after : List NodeId} {items : List Value}
      {controller : Controller} (earlier : Calls below library container foreign f g)
      (split : before ++ after = foreign) (due : Due container before after g)
      (quiet : Unnoticed below library container foreign after.head? controller [] items g)
      (call : patch (.above (fun _ => below) library) container after.head? items controller g
          = .ok () h ∨ ∃ cause,
        patch (.above (fun _ => below) library) container after.head? items controller g
          = .error (.fault cause) h) :
      Calls below library container foreign f h

/-- The keys of the order are the keys of the instances, each once, and the roots stand in that order
as one block between the foreign nodes. -/
structure Placed (container : NodeId) (before after : List NodeId) (f : Focus Keyed) : Prop where
  order : f.held.order.Nodup
  keys : (f.held.instances.map (·.1)).Nodup
  same : ∀ key, key ∈ f.held.order ↔ key ∈ f.held.instances.map (·.1)
  block : ∃ roots, f.held.order.map (f.held.rootOf? f.world) = roots.map some ∧
    f.world.document.children container = before ++ roots ++ after

/-- Where the block is empty, it stands anywhere among the foreign nodes. -/
theorem Settled.split {before' after' : List NodeId} {f : Focus Keyed}
    (h : Settled container before after id path f) (split : before' ++ after' = before ++ after)
    (children : f.world.document.children container = before' ++ f.held.block f.world ++ after') :
    Settled container before' after' id path f where
  definition := h.definition
  path := h.path
  stands := { h.stands with tenants := by rw [split]; exact h.stands.tenants, children }
  full := h.full

/-- One more patch leaves the repeater settled, unless the run is given up. -/
theorem Settled.patch_ends {before' after' : List NodeId} {f : Focus Keyed}
    (h : Settled container before after id path f) (split : before' ++ after' = before ++ after)
    (due : Due container before' after' f) {items : List Value} {controller : Controller}
    (quiet : Unnoticed below library container (before ++ after) after'.head? controller [] items f) :
    Ends (· = f)
      (patch (Engine.above (fun _ => below) library) container after'.head? items controller)
      (fun _ g => Settled container before' after' id path g ∧
        InStep (Engine.above (fun _ => below) library) container after'.head? controller items f g)
      (Broken (Engine.above (fun _ => below) library) container before' after' id path) := by
  have settled := h.split split due.children
  have stocked := due.stocked
  rw [settled.definition] at stocked
  rw [← split] at quiet
  exact Keyed.patch_ends library ⟨settled, stocked⟩ quiet

/-- Any sequence of patches leaves the repeater settled. -/
theorem Settled.calls {f g : Focus Keyed} {foreign : List NodeId}
    (start : before ++ after = foreign) (h : Settled container before after id path f)
    (calls : Calls below library container foreign f g) :
    ∃ before after, before ++ after = foreign ∧ Settled container before after id path g := by
  induction calls with
  | none => exact ⟨before, after, start, h⟩
  | @next g' h before after items controller _ split due quiet call ih =>
    obtain ⟨before', after', rfl, settled⟩ := ih
    have ends := settled.patch_ends library split due quiet
    refine ⟨_, _, split, ?_⟩
    rcases call with call | ⟨cause, call⟩
    · exact (ends.of_ok rfl call).1
    · rcases ends.of_error rfl call with ⟨_, hb, -⟩ | ⟨⟨_, hb⟩, -⟩ | hs
      · cases hb
      · cases hb
      · exact hs.2

/-- The roots of a settled repeater, in its order. -/
theorem Settled.roots {f : Focus Keyed} (h : Settled container before after id path f) :
    f.held.order.map (f.held.rootOf? f.world) = (f.held.block f.world).map some := by
  have all : ∀ key ∈ f.held.order, ∃ root, f.held.rootOf? f.world key = some root := by
    intro key hk
    obtain ⟨⟨_, i⟩, hm, rfl⟩ := List.mem_map.mp (h.stands.occupied key hk)
    obtain ⟨-, root, hroot, -⟩ := h.stands.tenants.present i (List.mem_map_of_mem (f := (·.2)) hm)
    exact ⟨root, h.stands.rootOf?_eq_some_iff.mpr ⟨i, hm, hroot⟩⟩
  unfold block
  generalize f.held.order = order at all
  induction order with
  | nil => rfl
  | cons key order ih =>
    obtain ⟨root, hroot⟩ := all key (List.mem_cons_self ..)
    rw [List.map_cons, List.filterMap_cons, hroot, List.map_cons,
      ih fun k hk => all k (List.mem_cons_of_mem key hk)]

/-- A settled repeater is placed. -/
theorem Settled.placed {f : Focus Keyed} (h : Settled container before after id path f) :
    Placed container before after f where
  order := h.stands.order
  keys := h.stands.keys
  same key := by
    refine ⟨h.stands.occupied key, fun hk => ?_⟩
    obtain ⟨x, hx, rfl⟩ := List.mem_map.mp hk
    exact h.full x hx
  block := ⟨_, h.roots, h.stands.children⟩

/-- Whether what the walk of a repeater by key comes to is quiet. -/
def unnoticed? (below : Engine) (library : Library) (container : NodeId)
    (foreign : List NodeId) (anchor : Option NodeId) (controller : Controller) :
    (seen : List ItemKey) → List Value → Focus Keyed → Bool
  | _, [], _ => true
  | seen, item :: rest, f =>
    ((keyAt? f.held.key item).all fun key => seen.contains key ||
      below.servesQuietly? container f.held.definition
        (World.stocked? container foreign f.held.definition) f.held.share f.held.rows
        (f.held.instance? key) item controller f.world) &&
    match showItem (.above (fun _ => below) library) container anchor controller seen item f with
    | .ok seen' f' => unnoticed? below library container foreign anchor controller seen' rest f'
    | .error _ _ => true

end Keyed

end ComponentView
