import ComponentView.Proofs.Retirement
import ComponentView.Proofs.Visits
import Mathlib.Data.List.Perm.Subperm
import Mathlib.Data.List.Nodup
import Mathlib.Tactic.Tauto

/-! # Who holds which instance

An instance that is in use stands at one place: in a pool, in the stash of another instance, or in
the hand of what is running (`World.Orderly`). What an instance holds has earlier definitions, so that
nobody comes to hold itself. An operation that is given some instances only changes those, what they
hold, and what is in the pools; a `Frame` names instances that it has to leave as they are. -/

namespace ComponentView

/-! ## Places -/

/-- A place where instances stand. -/
inductive Place where
  /-- The hand of what is running. -/
  | hand
  | pool (id : DefinitionId)
  | stash (i : InstanceId)
  deriving DecidableEq

/-- Every instance stands at one place at most, and there once. -/
structure Spread (listed : Place → List InstanceId) : Prop where
  nodup : ∀ p, (listed p).Nodup
  apart : ∀ {p q i}, i ∈ listed p → i ∈ listed q → p = q

/-- Instances go from one place to another, or are lost on the way. -/
theorem Spread.move {f g : Place → List InstanceId} (h : Spread f) {a b : Place} (hab : a ≠ b)
    (others : ∀ p, p ≠ a → p ≠ b → g p = f p) (both : (g a ++ g b).Subperm (f a ++ f b)) :
    Spread g := by
  have before : (f a ++ f b).Nodup := List.nodup_append.mpr
    ⟨h.nodup a, h.nodup b, fun i hi j hj he => hab (h.apart hi (he ▸ hj))⟩
  obtain ⟨l, hp, hs⟩ := both
  have after : (g a ++ g b).Nodup := hp.nodup_iff.mp (hs.nodup before)
  obtain ⟨nodup_a, nodup_b, distinct⟩ := List.nodup_append.mp after
  -- Whatever is at `a` or `b` was at one of them before.
  have came {p : Place} {i : InstanceId} (hp' : p = a ∨ p = b) (hi : i ∈ g p) :
      i ∈ f a ∨ i ∈ f b := by
    refine List.mem_append.mp (hs.subset (hp.mem_iff.mpr (List.mem_append.mpr ?_)))
    rcases hp' with rfl | rfl
    · exact Or.inl hi
    · exact Or.inr hi
  have elsewhere {p q : Place} {i : InstanceId} (hp' : p = a ∨ p = b) (hq : ¬ (q = a ∨ q = b))
      (hi : i ∈ g p) (hj : i ∈ g q) : False := by
    rw [others q (fun h => hq (Or.inl h)) fun h => hq (Or.inr h)] at hj
    rcases came hp' hi with hi | hi
    · exact hq (Or.inl (h.apart hj hi))
    · exact hq (Or.inr (h.apart hj hi))
  constructor
  · intro p
    by_cases ha : p = a
    · rwa [ha]
    · by_cases hb : p = b
      · rwa [hb]
      · rw [others p ha hb]
        exact h.nodup p
  · intro p q i hi hj
    by_cases hp' : p = a ∨ p = b <;> by_cases hq : q = a ∨ q = b
    · rcases hp' with rfl | rfl <;> rcases hq with rfl | rfl
      · rfl
      · exact absurd rfl (distinct i hi i hj)
      · exact absurd rfl (distinct i hj i hi)
      · rfl
    · exact (elsewhere hp' hq hi hj).elim
    · exact (elsewhere hq hp' hj hi).elim
    · rw [others p (fun h => hp' (Or.inl h)) fun h => hp' (Or.inr h)] at hi
      rw [others q (fun h => hq (Or.inl h)) fun h => hq (Or.inr h)] at hj
      exact h.apart hi hj

/-- The instance of a key is one of the repeater. -/
theorem Keyed.mem_of_instance? {r : Keyed} {key : ItemKey} {i : InstanceId}
    (h : r.instance? key = some i) : (key, i) ∈ r.instances := by
  obtain ⟨front, back, he, -⟩ := List.lookup_eq_some_iff.mp h
  simp [he]

/-- The definition of an instance. -/
def World.definition? (w : World) (i : InstanceId) : Option DefinitionId :=
  w.instances[i]?.map (·.definition)

/-- The instances at every place, with what is in hand. What a held instance holds is in hand, not in
its stash. -/
def World.placed (w : World) (hand : List InstanceId) : Place → List InstanceId
  | .hand => hand
  | .pool id => w.pool id
  | .stash i => if i ∈ w.busy then [] else w.instances[i]?.elim [] Instance.held

/-- What an entry of a stash holds has definitions before `id`, and the rows of a repeater have that
of the repeater. -/
def StashItem.Ranks (w : World) (id : DefinitionId) : StashItem → Prop
  | .tracker _ => True
  | .child i => ∃ k < id, w.definition? i = some k
  | .sequential r => r.definition < id ∧ ∀ i ∈ r.instances, w.definition? i = some r.definition
  | .keyed r => r.definition < id ∧ (∀ i ∈ r.instances.map (·.2), w.definition? i = some r.definition) ∧
      r.order.Nodup

/-- An entry of a stash ranks as before when instances are added. -/
theorem StashItem.Ranks.grows {w later : World} {id : DefinitionId} {item : StashItem}
    (h : item.Ranks w id)
    (grown : ∀ {i k}, w.definition? i = some k → later.definition? i = some k) :
    item.Ranks later id := by
  cases item with
  | tracker t => trivial
  | child i =>
    obtain ⟨k, hk, hi⟩ := h
    exact ⟨k, hk, grown hi⟩
  | sequential r => exact ⟨h.1, fun i hi => grown (h.2 i hi)⟩
  | keyed r => exact ⟨h.1, fun i hi => grown (h.2.1 i hi), h.2.2⟩

/-- An entry that ranks below a definition ranks below later ones. -/
theorem StashItem.Ranks.mono {w : World} {id later : DefinitionId} {item : StashItem}
    (h : item.Ranks w id) (hle : id ≤ later) : item.Ranks w later := by
  cases item with
  | tracker t => trivial
  | child i =>
    obtain ⟨k, hk, hi⟩ := h
    exact ⟨k, Nat.lt_of_lt_of_le hk hle, hi⟩
  | sequential r => exact ⟨Nat.lt_of_lt_of_le h.1 hle, h.2⟩
  | keyed r => exact ⟨Nat.lt_of_lt_of_le h.1 hle, h.2⟩

/-- What an entry holds has a definition before `id`. -/
theorem StashItem.Ranks.lt {w : World} {id : DefinitionId} {item : StashItem}
    (h : item.Ranks w id) {i : InstanceId} (hi : i ∈ item.held) :
    ∃ k < id, w.definition? i = some k := by
  cases item with
  | tracker t => cases hi
  | child j =>
    obtain rfl := List.mem_singleton.mp hi
    exact h
  | sequential r => exact ⟨r.definition, h.1, h.2 i hi⟩
  | keyed r => exact ⟨r.definition, h.1, h.2.1 i hi⟩

/-- The instance has the nodes, the stash and the cache that its definition asks for. -/
def Instance.Shaped (lib : Library) (inst : Instance) : Prop :=
  ∃ d, lib[inst.definition]? = some d ∧ inst.Fits d.template ∧
    inst.cache.map List.length = d.template.watches.map (·.callbacks.length)

/-- The instance is as its definition asks for, and what it holds ranks below it. -/
structure Instance.Sound (lib : Library) (w : World) (inst : Instance) : Prop where
  ranks : ∀ item ∈ inst.stash, item.Ranks w inst.definition
  shaped : inst.Shaped lib

/-- An instance stays sound when instances are added. -/
theorem Instance.Sound.grows {lib : Library} {w later : World} {inst : Instance}
    (h : inst.Sound lib w)
    (grown : ∀ {i k}, w.definition? i = some k → later.definition? i = some k) :
    inst.Sound lib later := ⟨fun item hm => (h.ranks item hm).grows grown, h.shaped⟩

/-! ## Order among the instances -/

/-- The definitions of a run, and instances that are to stay as they are in a world. -/
structure Frame where
  library : Library
  start : World
  still : InstanceId → Prop

/-- Instances at the place are none of the frame. -/
def Frame.Clears (frame : Frame) : Place → Prop
  | .hand => False
  | .pool _ => True
  | .stash i => ¬ frame.still i

/-- Every instance is sound and stands at one place, and the instances of the frame are as they were
and out of reach. -/
structure World.Orderly (frame : Frame) (busy hand : List InstanceId) (w : World) : Prop where
  busy_eq : w.busy = busy
  spread : Spread (w.placed hand)
  known : ∀ i ∈ hand, (w.definition? i).isSome
  sound : ∀ {i inst}, w.instances[i]? = some inst → i ∉ busy → inst.Sound frame.library w
  pooled : ∀ {id i}, i ∈ w.pool id → w.definition? i = some id
  grown : ∀ {i id}, frame.start.definition? i = some id → w.definition? i = some id
  same : ∀ i, frame.still i → w.instances[i]? = frame.start.instances[i]?
  there : ∀ i, frame.still i → (frame.start.definition? i).isSome
  aside : ∀ {p i}, frame.Clears p → i ∈ w.placed hand p → ¬ frame.still i
  free : ∀ i ∈ busy, ¬ frame.still i

namespace World

variable {frame : Frame} {busy hand : List InstanceId} {w later : World} {i : InstanceId}
  {inst : Instance}

/-- Exactly the instances that exist have a definition. -/
theorem isSome_definition? : (w.definition? i).isSome ↔ i < w.instances.size := by
  simp [definition?]

/-- The definition of an instance that exists is its own. -/
theorem definition?_of_get {inst : Instance} (h : w.instances[i]? = some inst) :
    w.definition? i = some inst.definition := by rw [definition?, h, Option.map_some]

/-- The places in the stash of an instance that is not held are what it holds. -/
theorem mem_placed_stash {inst : Instance} (hb : i ∉ w.busy) (hi : w.instances[i]? = some inst) :
    w.placed hand (.stash i) = inst.held := by rw [placed, if_neg hb, hi, Option.elim_some]

/-- Only the instances matter for their definitions. -/
theorem definition?_congr (instances : later.instances = w.instances) :
    later.definition? = w.definition? := by
  funext i
  rw [definition?, definition?, instances]

/-- A change to an instance that keeps its definition keeps everybody's. -/
theorem definition?_modify {g : Instance → Instance}
    (hg : ∀ inst, (g inst).definition = inst.definition) (w : World) (i : InstanceId) :
    World.definition? { w with instances := w.instances.modify i g } = w.definition? := by
  funext j
  simp only [definition?, Array.getElem?_modify]
  split
  · cases w.instances[j]? <;> simp [hg]
  · rfl

/-- An instance of the same definition in the place of one changes no definition. -/
theorem definition?_put {inst : Instance}
    (hd : w.definition? i = some inst.definition) (j : InstanceId) :
    World.definition? { w with instances := w.instances.setIfInBounds i inst } j
      = w.definition? j := by
  have hi := isSome_definition?.mp (hd ▸ rfl : (w.definition? i).isSome)
  by_cases hj : i = j
  · subst hj
    rw [hd]
    exact definition?_of_get (by simp [hi])
  · simp [definition?, Array.getElem?_setIfInBounds_ne hj]

namespace Orderly

/-- Only the instances, the pools and the list of held instances matter. -/
theorem congr (h : w.Orderly frame busy hand) (instances : later.instances = w.instances)
    (pools : later.pools = w.pools) (held : later.busy = w.busy) :
    later.Orderly frame busy hand := by
  have placed : later.placed hand = w.placed hand := by
    funext p
    cases p <;> simp only [World.placed, pool, instances, pools, held]
  have definition := definition?_congr instances
  exact
    { busy_eq := held.trans h.busy_eq
      spread := placed ▸ h.spread
      known := definition ▸ h.known
      sound := fun hi hb => (h.sound (instances ▸ hi) hb).grows (definition ▸ id)
      pooled := fun hi => definition ▸ h.pooled (by rwa [pool, pools] at hi)
      grown := fun hi => definition ▸ h.grown hi
      same := fun i hi => instances ▸ h.same i hi
      there := h.there
      aside := fun hp hi => h.aside hp (placed ▸ hi)
      free := h.free }

/-- Every instance that stands somewhere has a definition. -/
theorem known_placed (h : w.Orderly frame busy hand) {p : Place} (hi : i ∈ w.placed hand p) :
    (w.definition? i).isSome := by
  cases p with
  | hand => exact h.known i hi
  | pool id => rw [h.pooled hi]; rfl
  | stash j =>
    rw [placed] at hi
    split at hi
    · cases hi
    · next hb =>
      cases hj : w.instances[j]? with
      | none => rw [hj] at hi; cases hi
      | some inst =>
        rw [hj] at hi
        obtain ⟨item, hm, hi⟩ := List.mem_flatMap.mp hi
        obtain ⟨k, -, hk⟩ := ((h.sound hj (h.busy_eq ▸ hb)).ranks item hm).lt hi
        rw [hk]
        rfl

/-- What is in hand may be put in another order or lost. -/
theorem shrink (h : w.Orderly frame busy hand) {fewer : List InstanceId}
    (hf : fewer.Subperm hand) : w.Orderly frame busy fewer where
  busy_eq := h.busy_eq
  spread := by
    refine h.spread.move (a := .hand) (b := .pool 0) (by simp) (fun p hp _ => ?_) ?_
    · cases p <;> simp_all [placed]
    · exact (List.subperm_append_right _).mpr hf
  known i hi := h.known i (hf.subset hi)
  sound := h.sound
  pooled := h.pooled
  grown := h.grown
  same := h.same
  there := h.there
  aside {p i} hp hi := by
    cases p with
    | hand => cases hp
    | pool id => exact h.aside (p := .pool id) hp hi
    | stash j => exact h.aside (p := .stash j) hp hi
  free := h.free

/-- The order of the instances in hand does not matter. -/
theorem perm (h : w.Orderly frame busy hand) {other : List InstanceId} (hp : other.Perm hand) :
    w.Orderly frame busy other := h.shrink hp.subperm

/-- An instance in hand may be forgotten. -/
theorem of_cons (h : w.Orderly frame busy (i :: hand)) : w.Orderly frame busy hand :=
  h.shrink (List.sublist_cons_self _ _).subperm

/-! ### Holding an instance -/

/-- What an instance holds comes into hand when the instance is held. -/
theorem take (h : w.Orderly frame busy hand) {inst : Instance} (hi : w.instances[i]? = some inst)
    (hb : i ∉ busy) (hs : ¬ frame.still i) :
    World.Orderly frame (i :: busy) (inst.held ++ hand) { w with busy := i :: w.busy } ∧
      ∀ j ∈ inst.held, ¬ frame.still j := by
  have own : w.placed hand (.stash i) = inst.held := mem_placed_stash (h.busy_eq ▸ hb) hi
  have held : ∀ j ∈ inst.held, j ∈ w.placed hand (.stash i) := fun j hj => own ▸ hj
  refine ⟨?_, fun j hj => h.aside (p := .stash i) hs (held j hj)⟩
  have others {j : InstanceId} (hj : j ≠ i) :
      World.placed { w with busy := i :: w.busy } (inst.held ++ hand) (.stash j)
        = w.placed hand (.stash j) := by simp [World.placed, hj]
  have none : World.placed { w with busy := i :: w.busy } (inst.held ++ hand) (.stash i) = [] := by
    simp [World.placed]
  exact
    { busy_eq := congrArg (i :: ·) h.busy_eq
      spread := by
        refine h.spread.move (a := .hand) (b := .stash i) (by simp) (fun p hp hq => ?_) ?_
        · cases p with
          | hand => exact absurd rfl hp
          | pool id => rfl
          | stash j => exact others fun he => hq (he ▸ rfl)
        · rw [none, own, List.append_nil]
          exact List.perm_append_comm.subperm
      known := fun j hj => by
        rcases List.mem_append.mp hj with hj | hj
        · exact h.known_placed (held j hj)
        · exact h.known j hj
      sound := fun hj hb => (h.sound hj fun hm => hb (List.mem_cons_of_mem _ hm)).grows id
      pooled := h.pooled
      grown := h.grown
      same := h.same
      there := h.there
      aside := fun {p j} hp hj => by
        cases p with
        | hand => cases hp
        | pool id => exact h.aside (p := .pool id) hp hj
        | stash k =>
          by_cases hk : k = i
          · rw [hk, none] at hj
            cases hj
          · exact h.aside (p := .stash k) hp (others hk ▸ hj)
      free := List.forall_mem_cons.mpr ⟨hs, h.free⟩ }

/-- What an instance holds is in its stash again when it is put back. -/
theorem back (h : w.Orderly frame (i :: busy) (inst.held ++ hand)) (hb : i ∉ busy)
    (hd : w.definition? i = some inst.definition)
    (hr : inst.Sound frame.library w) (hs : ∀ j ∈ inst.held, ¬ frame.still j) :
    World.Orderly frame busy hand
      { w with busy, instances := w.instances.setIfInBounds i inst } := by
  have hi := isSome_definition?.mp (hd ▸ rfl : (w.definition? i).isSome)
  set later : World := { w with busy, instances := w.instances.setIfInBounds i inst }
  have get_self : later.instances[i]? = some inst := by simp [later, hi]
  have get_ne {j : InstanceId} (hj : j ≠ i) : later.instances[j]? = w.instances[j]? :=
    Array.getElem?_setIfInBounds_ne (Ne.symm hj)
  have definition (j : InstanceId) : later.definition? j = w.definition? j :=
    definition?_put hd j
  have grown {j : InstanceId} {k : DefinitionId} (hj : w.definition? j = some k) :
      later.definition? j = some k := definition j ▸ hj
  have own : later.placed hand (.stash i) = inst.held := mem_placed_stash hb get_self
  have before : w.placed (inst.held ++ hand) (.stash i) = [] := by
    simp [World.placed, h.busy_eq]
  have others {j : InstanceId} (hj : j ≠ i) :
      later.placed hand (.stash j) = w.placed (inst.held ++ hand) (.stash j) := by
    simp [World.placed, get_ne hj, h.busy_eq, hj, later]
  exact
    { busy_eq := rfl
      spread := by
        refine h.spread.move (a := .hand) (b := .stash i) (by simp) (fun p hp hq => ?_) ?_
        · cases p with
          | hand => exact absurd rfl hp
          | pool id => rfl
          | stash j => exact others fun he => hq (he ▸ rfl)
        · rw [before, own, List.append_nil]
          exact List.perm_append_comm.subperm
      known := fun j hj => definition j ▸ h.known j (List.mem_append_right _ hj)
      sound := fun {j inst'} hj hbj => by
        by_cases hji : j = i
        · subst hji
          obtain rfl := Option.some.inj (get_self.symm.trans hj)
          exact hr.grows grown
        · refine (h.sound (get_ne hji ▸ hj) fun hm => ?_).grows grown
          rcases List.mem_cons.mp hm with he | hm
          · exact hji he
          · exact hbj hm
      pooled := fun hj => grown (h.pooled hj)
      grown := fun hj => grown (h.grown hj)
      same := fun j hj => by
        rw [get_ne fun he => h.free i (List.mem_cons_self ..) (he ▸ hj)]
        exact h.same j hj
      there := h.there
      aside := fun {p j} hp hj => by
        cases p with
        | hand => cases hp
        | pool id => exact h.aside (p := .pool id) hp hj
        | stash k =>
          by_cases hk : k = i
          · rw [hk, own] at hj
            exact hs j hj
          · exact h.aside (p := .stash k) hp (others hk ▸ hj)
      free := fun j hj => h.free j (List.mem_cons_of_mem _ hj) }

/-- What the world shows of an instance that is held does not matter. -/
theorem touch (h : w.Orderly frame busy hand) (hb : i ∈ busy) {g : Instance → Instance}
    (hg : ∀ inst, (g inst).definition = inst.definition) :
    World.Orderly frame busy hand { w with instances := w.instances.modify i g } := by
  set later : World := { w with instances := w.instances.modify i g }
  have get_ne {j : InstanceId} (hj : j ≠ i) : later.instances[j]? = w.instances[j]? := by
    simp [later, Array.getElem?_modify, Ne.symm hj]
  have definition (j : InstanceId) : later.definition? j = w.definition? j :=
    congrFun (definition?_modify hg w i) j
  have grown {j : InstanceId} {k : DefinitionId} (hj : w.definition? j = some k) :
      later.definition? j = some k := definition j ▸ hj
  have placed (p : Place) : later.placed hand p = w.placed hand p := by
    cases p with
    | stash j =>
      by_cases hj : j = i
      · simp [World.placed, later, hj, h.busy_eq, hb]
      · simp [World.placed, get_ne hj, later]
    | _ => rfl
  exact
    { busy_eq := h.busy_eq
      spread := (funext placed : later.placed hand = w.placed hand) ▸ h.spread
      known := fun j hj => definition j ▸ h.known j hj
      sound := fun {j inst'} hj hbj => by
        have hj' : j ≠ i := fun he => hbj (he.symm ▸ hb)
        exact (h.sound (get_ne hj' ▸ hj) hbj).grows grown
      pooled := fun hj => grown (h.pooled hj)
      grown := fun hj => grown (h.grown hj)
      same := fun j hj => by
        rw [get_ne fun he => h.free i hb (he ▸ hj)]
        exact h.same j hj
      there := h.there
      aside := fun {p j} hp hj => h.aside hp (placed p ▸ hj)
      free := h.free }

/-! ### New instances -/

/-- A new instance is in hand, with what it holds in its stash. -/
theorem enter (h : w.Orderly frame busy (inst.held ++ hand))
    (hr : inst.Sound frame.library w) (hs : ∀ j ∈ inst.held, ¬ frame.still j) :
    World.Orderly frame busy (w.instances.size :: hand)
        { w with instances := w.instances.push inst } ∧
      ¬ frame.still w.instances.size := by
  set later : World := { w with instances := w.instances.push inst }
  set new : InstanceId := w.instances.size
  have get_ne {j : InstanceId} (hj : j ≠ new) : later.instances[j]? = w.instances[j]? := by
    simp [later, Array.getElem?_push, hj, new]
  have get_new : later.instances[new]? = some inst := by simp [later, new]
  have unknown : w.definition? new = none := by simp [definition?, new]
  have fresh {p : Place} (hj : new ∈ w.placed (inst.held ++ hand) p) : False := by
    have := h.known_placed hj
    rw [unknown] at this
    cases this
  have grown {j : InstanceId} {k : DefinitionId} (hj : w.definition? j = some k) :
      later.definition? j = some k := by
    have hn : j ≠ new := fun he => by rw [he, unknown] at hj; cases hj
    rwa [definition?, get_ne hn]
  have notStill : ¬ frame.still new := fun hn => by
    obtain ⟨k, hk⟩ := Option.isSome_iff_exists.mp (h.there new hn)
    have := h.grown hk
    rw [unknown] at this
    cases this
  have others {j : InstanceId} (hj : j ≠ new) :
      later.placed (new :: hand) (.stash j) = w.placed (inst.held ++ hand) (.stash j) := by
    simp [World.placed, get_ne hj, later]
  have before : w.placed (inst.held ++ hand) (.stash new) = [] := by
    simp [World.placed, new]
  have own : later.placed (new :: hand) (.stash new) ⊆ inst.held := by
    intro j hj
    simp only [World.placed, get_new] at hj
    split at hj
    · cases hj
    · exact hj
  have own_sublist : (later.placed hand (.stash new)).Sublist inst.held := by
    simp only [World.placed, get_new]
    split
    · exact List.nil_sublist _
    · exact List.Sublist.refl _
  have moved : Spread (later.placed hand) := by
    refine h.spread.move (a := .hand) (b := .stash new) (by simp) (fun p hp hq => ?_) ?_
    · cases p with
      | hand => exact absurd rfl hp
      | pool id => rfl
      | stash j => exact others fun he => hq (he ▸ rfl)
    · rw [before, List.append_nil]
      exact (List.perm_append_comm.subperm).trans
        ((List.subperm_append_right _).mpr own_sublist.subperm)
  have absent (p : Place) : new ∉ later.placed hand p := by
    intro hn
    cases p with
    | hand => exact fresh (p := .hand) (List.mem_append_right _ hn)
    | pool id => exact fresh (p := .pool id) hn
    | stash j =>
      by_cases hj : j = new
      · rw [hj] at hn
        exact fresh (p := .hand) (List.mem_append_left _ (own hn))
      · exact fresh (p := .stash j) (others hj ▸ hn)
  refine ⟨?_, notStill⟩
  exact
    { busy_eq := h.busy_eq
      spread := by
        constructor
        · intro p
          cases p with
          | hand => exact List.nodup_cons.mpr ⟨absent .hand, moved.nodup .hand⟩
          | pool id => exact moved.nodup (.pool id)
          | stash j => exact moved.nodup (.stash j)
        · -- The new instance stands in hand only, the others where they stood.
          have elsewhere {p : Place} {j : InstanceId} (hj : j ∈ later.placed (new :: hand) p) :
              (p = .hand ∧ j = new) ∨ j ∈ later.placed hand p := by
            cases p with
            | hand => exact (List.mem_cons.mp hj).imp (fun h => ⟨rfl, h⟩) id
            | pool id => exact Or.inr hj
            | stash k => exact Or.inr hj
          intro p q j hp hq
          rcases elsewhere hp with ⟨rfl, rfl⟩ | hp <;> rcases elsewhere hq with ⟨rfl, he⟩ | hq
          · rfl
          · exact absurd hq (absent q)
          · exact absurd (he ▸ hp) (absent p)
          · exact moved.apart hp hq
      known := fun j hj => by
        rcases List.mem_cons.mp hj with rfl | hj
        · rw [definition?_of_get get_new]; rfl
        · obtain ⟨k, hk⟩ := Option.isSome_iff_exists.mp (h.known j (List.mem_append_right _ hj))
          rw [grown hk]; rfl
      sound := fun {j inst'} hj hb => by
        by_cases hn : j = new
        · subst hn
          obtain rfl := Option.some.inj (get_new.symm.trans hj)
          exact hr.grows grown
        · exact (h.sound (get_ne hn ▸ hj) hb).grows grown
      pooled := fun hj => grown (h.pooled hj)
      grown := fun hj => grown (h.grown hj)
      same := fun j hj => by
        rw [get_ne fun he => notStill (he ▸ hj)]
        exact h.same j hj
      there := h.there
      aside := fun {p j} hp hj => by
        cases p with
        | hand => cases hp
        | pool id => exact h.aside (p := .pool id) hp hj
        | stash k =>
          by_cases hk : k = new
          · exact hs j (own (hk ▸ hj))
          · exact h.aside (p := .stash k) hp (others hk ▸ hj)
      free := h.free }

end Orderly

/-! ### Pools -/

/-- Only the pool that is set changes. -/
theorem pool_setPool {id : DefinitionId} {spare : List InstanceId} (hs : w.pool id ≠ [] ∨ spare = [])
    (k : DefinitionId) : (w.setPool id spare).pool k = if k = id then spare else w.pool k := by
  unfold pool setPool
  rw [Array.getElem?_modify]
  by_cases hk : k = id
  · subst hk
    cases hp : w.pools[k]? with
    | none => simpa [pool, hp] using hs.symm
    | some spare' => simp
  · simp [hk, Ne.symm hk]

namespace Orderly

/-- A spare instance comes into hand. -/
theorem pop (h : w.Orderly frame busy hand) {id : DefinitionId} {rest : List InstanceId}
    (hp : w.pool id = i :: rest) :
    (w.setPool id rest).Orderly frame busy (i :: hand) ∧ w.definition? i = some id ∧
      ¬ frame.still i := by
  have pools (k : DefinitionId) : (w.setPool id rest).pool k = if k = id then rest else w.pool k :=
    pool_setPool (Or.inl (by simp [hp])) k
  have listed : i ∈ w.placed hand (.pool id) := by simp [World.placed, hp]
  have smaller {k : DefinitionId} {j : InstanceId} (hj : j ∈ (w.setPool id rest).pool k) :
      j ∈ w.pool k := by
    rw [pools] at hj
    split at hj
    · next hk => rw [hk, hp]; exact List.mem_cons_of_mem _ hj
    · exact hj
  refine ⟨?_, h.pooled (by simp [hp]), h.aside (p := .pool id) trivial listed⟩
  exact
    { busy_eq := h.busy_eq
      spread := by
        refine h.spread.move (a := .hand) (b := .pool id) (by simp) (fun p hq hr => ?_) ?_
        · cases p with
          | hand => exact absurd rfl hq
          | pool k => simp [World.placed, pools, show k ≠ id from fun he => hr (he ▸ rfl)]
          | stash j => rfl
        · simp only [World.placed, pools, if_true, hp]
          exact (List.perm_middle.symm).subperm
      known := List.forall_mem_cons.mpr ⟨h.known_placed listed, h.known⟩
      sound := fun hj hb => (h.sound hj hb).grows fun hk => hk
      pooled := fun hj => h.pooled (smaller hj)
      grown := h.grown
      same := h.same
      there := h.there
      aside := fun {p j} hq hj => by
        cases p with
        | hand => cases hq
        | pool k => exact h.aside (p := .pool k) hq (smaller hj)
        | stash k => exact h.aside (p := .stash k) hq hj
      free := h.free }

/-- An instance goes from the hand to the pool of its definition, if there is one. -/
theorem push (h : w.Orderly frame busy (i :: hand)) {id : DefinitionId}
    (hd : w.definition? i = some id) (hs : ¬ frame.still i) :
    (w.setPool id (i :: w.pool id)).Orderly frame busy hand := by
  have pools (k : DefinitionId) : (w.setPool id (i :: w.pool id)).pool k = w.pool k ∨
      k = id ∧ (w.setPool id (i :: w.pool id)).pool k = i :: w.pool k := by
    unfold pool setPool
    rw [Array.getElem?_modify]
    by_cases hk : id = k
    · subst hk
      cases hp : w.pools[id]? <;> simp
    · simp [hk]
  have member {k : DefinitionId} {j : InstanceId}
      (hj : j ∈ (w.setPool id (i :: w.pool id)).pool k) : j ∈ w.pool k ∨ k = id ∧ j = i := by
    rcases pools k with hk | ⟨rfl, hk⟩ <;> rw [hk] at hj
    · exact Or.inl hj
    · exact (List.mem_cons.mp hj).symm.imp id fun he => ⟨rfl, he⟩
  exact
    { busy_eq := h.busy_eq
      spread := by
        refine h.spread.move (a := .hand) (b := .pool id) (by simp) (fun p hq hr => ?_) ?_
        · cases p with
          | hand => exact absurd rfl hq
          | pool k =>
            rcases pools k with hk | ⟨rfl, -⟩
            · exact hk
            · exact absurd rfl hr
          | stash j => rfl
        · show (hand ++ (w.setPool id (i :: w.pool id)).pool id).Subperm (i :: hand ++ w.pool id)
          rcases pools id with hk | ⟨-, hk⟩ <;> rw [hk]
          · exact (List.sublist_cons_self _ _).subperm
          · exact List.perm_middle.subperm
      known := fun j hj => h.known j (List.mem_cons_of_mem _ hj)
      sound := fun hj hb => (h.sound hj hb).grows fun hk => hk
      pooled := fun hj => by
        rcases member hj with hj | ⟨rfl, rfl⟩
        · exact h.pooled hj
        · exact hd
      grown := h.grown
      same := h.same
      there := h.there
      aside := fun {p j} hq hj => by
        cases p with
        | hand => cases hq
        | pool k =>
          rcases member hj with hj | ⟨rfl, rfl⟩
          · exact h.aside (p := .pool k) hq hj
          · exact hs
        | stash k => exact h.aside (p := .stash k) hq hj
      free := h.free }

end Orderly

/-! ### What is left alone -/

/-- Whether an instance is another or held by it at any depth, as far as instances lead that are not
held by what is running. -/
def Reaches (w : World) : InstanceId → InstanceId → Prop :=
  Relation.ReflTransGen fun i j => j ∈ w.placed [] (.stash i)

/-- From `w` to `later` an instance and all that it holds stay as they are. -/
structure Leaves (w later : World) (i : InstanceId) : Prop where
  busy_eq : later.busy = w.busy
  same : ∀ j, w.Reaches i j → j ∉ w.busy → later.instances[j]? = w.instances[j]?

namespace Leaves

/-- Where instances and held ones stay the same, all is left as it is. -/
theorem of_instances (instances : later.instances = w.instances) (busy_eq : later.busy = w.busy)
    (i : InstanceId) : w.Leaves later i := ⟨busy_eq, fun _ _ _ => by rw [instances]⟩

/-- A world that stays as it is leaves an instance as it is. -/
theorem refl (w : World) (i : InstanceId) : w.Leaves w i := of_instances rfl rfl i

/-- What an instance reaches has the same places as before. -/
theorem placed (h : w.Leaves later i) {j : InstanceId} (hj : w.Reaches i j) :
    later.placed [] (.stash j) = w.placed [] (.stash j) := by
  by_cases hb : j ∈ w.busy
  · simp [World.placed, h.busy_eq, hb]
  · simp [World.placed, h.busy_eq, h.same j hj hb]

/-- The same instances are reached as before. -/
theorem reaches (h : w.Leaves later i) {j : InstanceId} : later.Reaches i j ↔ w.Reaches i j := by
  constructor
  · intro hj
    induction hj with
    | refl => exact .refl
    | tail _ hk ih => exact ih.tail (h.placed ih ▸ hk)
  · intro hj
    induction hj with
    | refl => exact .refl
    | tail hb hk ih => exact ih.tail (by rwa [h.placed hb])

/-- Two changes that leave an instance as it is are one. -/
theorem trans {latest : World} (h : w.Leaves later i) (h' : later.Leaves latest i) :
    w.Leaves latest i :=
  ⟨h'.busy_eq.trans h.busy_eq, fun j hj hb =>
    (h'.same j (h.reaches.mpr hj) (h.busy_eq ▸ hb)).trans (h.same j hj hb)⟩

end Leaves

end World

/-- The frame with some instances more: all that others reach in a world. -/
def Frame.widen (frame : Frame) (w : World) (others : List InstanceId) : Frame where
  library := frame.library
  start := w
  still k := frame.still k ∨ ∃ j ∈ others, w.Reaches j k ∧ k ∉ w.busy

namespace World

variable {frame : Frame} {busy hand : List InstanceId} {w later : World} {i : InstanceId}

/-- From `w` to `later` no instance changes its definition, and some are left as they are. -/
structure Since (others : List InstanceId) (w later : World) : Prop where
  grown : ∀ {i id}, w.definition? i = some id → later.definition? i = some id
  leaves : ∀ j ∈ others, w.Leaves later j

/-- Where instances and held ones stay the same nothing has happened since. -/
theorem Since.of_instances (instances : later.instances = w.instances)
    (busy_eq : later.busy = w.busy) (others : List InstanceId) : Since others w later :=
  ⟨fun hi => by rwa [definition?, instances], fun j _ => .of_instances instances busy_eq j⟩

namespace Orderly

variable {others : List InstanceId}

/-- What an instance in hand reaches stands at no other place. -/
theorem reaches_aside (h : w.Orderly frame busy hand) {j : InstanceId} (hj : j ∈ hand)
    (hi : w.Reaches j i) {p : Place} (hp : i ∈ w.placed hand p) :
    (p = .hand ∧ i = j) ∨ ∃ k, p = .stash k ∧ w.Reaches j k ∧ k ∉ w.busy := by
  rcases Relation.ReflTransGen.cases_tail hi with rfl | ⟨k, hk, hi⟩
  · exact Or.inl ⟨h.spread.apart (q := .hand) hp hj, rfl⟩
  · refine Or.inr ⟨k, h.spread.apart (q := .stash k) hp hi, hk, fun hb => ?_⟩
    simp [placed, hb] at hi

/-- What an instance holds has an earlier definition. -/
theorem lt_of_holds (h : w.Orderly frame busy hand) {j : InstanceId} {id : DefinitionId}
    (hj : j ∈ w.placed [] (.stash i)) (hi : w.definition? i = some id) :
    ∃ k < id, w.definition? j = some k := by
  rw [placed] at hj
  split at hj
  · cases hj
  · next hb =>
    obtain ⟨inst, hinst, rfl⟩ := Option.map_eq_some_iff.mp hi
    rw [hinst] at hj
    obtain ⟨item, hm, hj⟩ := List.mem_flatMap.mp hj
    exact ((h.sound hinst (h.busy_eq ▸ hb)).ranks item hm).lt hj

/-- What an instance reaches has the same definition or an earlier one. -/
theorem le_of_reaches (h : w.Orderly frame busy hand) {j : InstanceId} {id : DefinitionId}
    (hj : w.Reaches i j) (hi : w.definition? i = some id) :
    ∃ k ≤ id, w.definition? j = some k := by
  induction hj with
  | refl => exact ⟨id, Nat.le_refl _, hi⟩
  | tail _ hk ih =>
    obtain ⟨k, hle, hd⟩ := ih
    obtain ⟨k', hlt, hd'⟩ := h.lt_of_holds hk hd
    exact ⟨k', Nat.le_trans (Nat.le_of_lt hlt) hle, hd'⟩

/-- No instance is reached from what it holds. -/
theorem ne_of_reaches (h : w.Orderly frame busy hand) {j k : InstanceId}
    (hj : j ∈ w.placed [] (.stash i)) (hk : w.Reaches j k) : k ≠ i := by
  rintro rfl
  obtain ⟨id, hid⟩ : ∃ id, w.definition? k = some id := by
    rw [placed] at hj
    split at hj
    · cases hj
    · cases hk' : w.instances[k]? with
      | none => rw [hk'] at hj; cases hj
      | some inst => exact ⟨_, definition?_of_get hk'⟩
  obtain ⟨a, ha, hd⟩ := h.lt_of_holds hj hid
  obtain ⟨b, hb, hd'⟩ := h.le_of_reaches hk hd
  obtain rfl := Option.some.inj (hid.symm.trans hd')
  exact absurd ha (Nat.not_lt.mpr hb)

/-- What instances in hand reach can join the frame. -/
theorem widen (h : w.Orderly frame busy hand) (ho : others ⊆ hand) :
    w.Orderly (frame.widen w others) busy hand where
  busy_eq := h.busy_eq
  spread := h.spread
  known := h.known
  sound := h.sound
  pooled := h.pooled
  grown := id
  same _ _ := rfl
  there k hk := by
    rcases hk with hk | ⟨j, hj, hk, -⟩
    · obtain ⟨id, hid⟩ := Option.isSome_iff_exists.mp (h.there k hk)
      exact h.grown hid ▸ rfl
    · rcases Relation.ReflTransGen.cases_tail hk with rfl | ⟨l, -, hk⟩
      · exact h.known _ (ho hj)
      · exact h.known_placed (p := .stash l) hk
  aside {p i} hp hi := by
    rintro (hs | ⟨j, hj, hr, -⟩)
    · refine h.aside (p := p) ?_ hi hs
      cases p with
      | hand => exact hp
      | pool id => trivial
      | stash k => exact fun hk => hp (Or.inl hk)
    · rcases h.reaches_aside (ho hj) hr hi with ⟨rfl, -⟩ | ⟨k, rfl, hk, hb⟩
      · exact hp
      · exact hp (Or.inr ⟨j, hj, hk, hb⟩)
  free i hi := by
    rintro (hs | ⟨j, -, -, hb⟩)
    · exact h.free i hi hs
    · exact hb (h.busy_eq ▸ hi)

/-- An instance in hand is not reached by others. -/
theorem not_widen (h : w.Orderly frame busy hand) (ho : others ⊆ hand) (hi : i ∈ hand)
    (hn : i ∉ others) (hs : ¬ frame.still i) : ¬ (frame.widen w others).still i := by
  rintro (hs' | ⟨j, hj, hr, -⟩)
  · exact hs hs'
  · rcases h.reaches_aside (p := .hand) (ho hj) hr hi with ⟨-, rfl⟩ | ⟨k, hk, -⟩
    · exact hn hj
    · cases hk

/-- What was orderly in a wider frame is orderly in the frame itself, and what the frame was widened
by has been left as it was. -/
theorem narrow {hand' : List InstanceId} (h : w.Orderly frame busy hand)
    (h' : later.Orderly (frame.widen w others) busy hand') :
    later.Orderly frame busy hand' ∧ Since others w later := by
  refine ⟨?_, fun hi => h'.grown hi, fun j hj => ⟨h'.busy_eq.trans h.busy_eq.symm, fun k hk hb =>
    h'.same k (Or.inr ⟨j, hj, hk, hb⟩)⟩⟩
  exact
    { busy_eq := h'.busy_eq
      spread := h'.spread
      known := h'.known
      sound := h'.sound
      pooled := h'.pooled
      grown := fun hi => h'.grown (h.grown hi)
      same := fun i hi => (h'.same i (Or.inl hi)).trans (h.same i hi)
      there := h.there
      aside := fun {p i} hp hi => by
        by_cases hw : (frame.widen w others).Clears p
        · exact fun hs => h'.aside hw hi (Or.inl hs)
        · -- The stash of an instance that joined the frame is as it was.
          cases p with
          | hand => exact (hp : False).elim
          | pool id => exact absurd trivial hw
          | stash k =>
            have hk : (frame.widen w others).still k := not_not.mp hw
            have stash : later.placed hand' (.stash k) = w.placed hand (.stash k) := by
              rw [placed, placed, h'.busy_eq, h.busy_eq, h'.same k hk]
              rfl
            exact h.aside (p := .stash k) hp (stash ▸ hi)
      free := fun i hi hs => h'.free i hi (Or.inl hs) }

end Orderly

end World

end ComponentView
