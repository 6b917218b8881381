import ComponentView.Proofs.Ownership.Session
import ComponentView.Proofs.Tight.Runs
import Mathlib.Data.Set.Lattice

/-! # Trees of instances

An instance holds instances that hold others again, down to some that hold nothing. Between two
operations all that an instance holds, at any depth, forms a tree: nothing is held at two places, and
nothing holds itself (`World.Arranged`). Some of it is only on loan to a shared repeater and goes back
to the pools when the instance is dismounted (`World.loans`). -/

namespace ComponentView

/-! ## What is on loan -/

namespace StashItem

/-- The instances that an entry of a stash has on loan: those of a shared repeater. -/
def lent : StashItem → List InstanceId
  | sequential r => if r.share then r.instances else []
  | keyed r => if r.share then r.instances.map (·.2) else []
  | _ => []

/-- The entry with nothing on loan: a shared repeater is empty, and everything else stays. -/
def vacated : StashItem → StashItem
  | sequential r => .sequential (if r.share then { r with instances := [], attached := 0 } else r)
  | keyed r => .keyed (if r.share then { r with instances := [], order := [] } else r)
  | item => item

/-- What is on loan is held. -/
theorem lent_subset_held (item : StashItem) : item.lent ⊆ item.held := by
  cases item with
  | tracker | child => exact List.nil_subset _
  | sequential r =>
    show (if r.share then r.instances else []) ⊆ r.instances
    split
    · exact List.Subset.refl _
    · exact List.nil_subset _
  | keyed r =>
    show (if r.share then r.instances.map (·.2) else []) ⊆ r.instances.map (·.2)
    split
    · exact List.Subset.refl _
    · exact List.nil_subset _

end StashItem

namespace Instance

/-- The instances that an instance has on loan. -/
def lent (inst : Instance) : List InstanceId := inst.stash.flatMap StashItem.lent

/-- The instance after it has been dismounted: nothing is on loan, and it is not in use. -/
def dismounted (inst : Instance) : Instance :=
  { inst with stash := inst.stash.map StashItem.vacated, mounted := false }

end Instance

namespace World

variable {w : World} {i j k : InstanceId} {inst : Instance}

/-- An instance and all that it holds, at any depth. -/
def tree (w : World) (i : InstanceId) : Set InstanceId := {k | w.Holds i k}

/-- All that an instance, or one that it holds at any depth, has on loan. -/
def loans (w : World) (i : InstanceId) : Set InstanceId :=
  {j | ∃ k ∈ w.tree i, ∃ inst, w.instances[k]? = some inst ∧ j ∈ inst.lent}

/-- All that the instances hold, at any depth, and they themselves. -/
def below (w : World) (is : List InstanceId) : Set InstanceId := ⋃ j ∈ is, w.tree j

/-- All that the entries and the instances below them have on loan. -/
def due (w : World) (items : List StashItem) : Set InstanceId :=
  {j | j ∈ items.flatMap StashItem.lent} ∪ ⋃ k ∈ items.flatMap StashItem.held, w.loans k

/-- The trees of two instances have nothing in common. -/
def Severed (w : World) (j k : InstanceId) : Prop := ∀ m ∈ w.tree j, m ∉ w.tree k

/-- Being severed goes both ways. -/
theorem Severed.symm (h : w.Severed j k) : w.Severed k j := fun m hm hm' => h m hm' hm

/-- Every instance is in its own tree. -/
theorem mem_tree_self (w : World) (i : InstanceId) : i ∈ w.tree i := .refl

/-- What is below some instances is in the tree of one of them. -/
theorem mem_below {is : List InstanceId} : k ∈ w.below is ↔ ∃ j ∈ is, k ∈ w.tree j := by
  rw [below, Set.mem_iUnion₂]
  simp only [exists_prop]

/-- Due are the rows that are lent, and the loans of all that is held. -/
theorem mem_due {items : List StashItem} : j ∈ w.due items ↔
    j ∈ items.flatMap StashItem.lent ∨ ∃ k ∈ items.flatMap StashItem.held, j ∈ w.loans k := by
  rw [due, Set.mem_union, Set.mem_iUnion₂]
  simp only [exists_prop, Set.mem_ofPred_eq]

/-- A tree is its top and what the top holds. -/
theorem tree_eq (hi : w.instances[i]? = some inst) :
    w.tree i = insert i (w.below inst.held) := by
  ext k
  rw [Set.mem_insert_iff, mem_below]
  constructor
  · intro hk
    rcases Relation.ReflTransGen.cases_head hk with rfl | ⟨j, ⟨inst', hi', hj⟩, hk⟩
    · exact Or.inl rfl
    · obtain rfl := Option.some.inj (hi.symm.trans hi')
      exact Or.inr ⟨j, hj, hk⟩
  · rintro (rfl | ⟨j, hj, hk⟩)
    · exact .refl
    · exact .head ⟨inst, hi, hj⟩ hk

/-- What is on loan in a tree is on loan at its top or below it. -/
theorem loans_eq (hi : w.instances[i]? = some inst) : w.loans i = w.due inst.stash := by
  ext j
  rw [mem_due]
  constructor
  · rintro ⟨k, hk, inst', hk', hj⟩
    rw [tree_eq hi, Set.mem_insert_iff, mem_below] at hk
    rcases hk with rfl | ⟨m, hm, hk⟩
    · obtain rfl := Option.some.inj (hi.symm.trans hk')
      exact Or.inl hj
    · exact Or.inr ⟨m, hm, k, hk, inst', hk', hj⟩
  · rintro (hj | ⟨m, hm, k, hk, inst', hk', hj⟩)
    · exact ⟨i, .refl, inst, hi, hj⟩
    · exact ⟨k, .head ⟨inst, hi, hm⟩ hk, inst', hk', hj⟩

/-- What is on loan in a tree is held in it. -/
theorem exists_holder_of_mem_loans (hj : j ∈ w.loans i) :
    ∃ k ∈ w.tree i, ∃ inst, w.instances[k]? = some inst ∧ j ∈ inst.held := by
  obtain ⟨k, hk, inst, get, hj⟩ := hj
  obtain ⟨item, hm, hj⟩ := List.mem_flatMap.mp hj
  exact ⟨k, hk, inst, get, List.mem_flatMap.mpr ⟨item, hm, item.lent_subset_held hj⟩⟩

/-- The loans of an instance are in its tree. -/
theorem loans_subset_tree (w : World) (i : InstanceId) : w.loans i ⊆ w.tree i := fun _ hj => by
  obtain ⟨k, hk, inst, get, hj⟩ := exists_holder_of_mem_loans hj
  exact .tail hk ⟨inst, get, hj⟩

/-- What is below two lists is below either. -/
theorem below_append (is js : List InstanceId) : w.below (is ++ js) = w.below is ∪ w.below js := by
  ext k
  simp only [Set.mem_union, mem_below, List.mem_append, or_and_right, exists_or]

/-- What is due of one entry: its own rows and the loans of what it holds. -/
theorem due_singleton (item : StashItem) :
    w.due [item] = {j | j ∈ item.lent} ∪ ⋃ k ∈ item.held, w.loans k := by
  rw [due, List.flatMap_cons, List.flatMap_nil, List.append_nil, List.flatMap_cons, List.flatMap_nil,
    List.append_nil]

/-- What is due of a stash is due of its first entry or of the others. -/
theorem due_cons (item : StashItem) (items : List StashItem) :
    w.due (item :: items) = w.due [item] ∪ w.due items := by
  ext k
  simp only [mem_due, List.flatMap_cons, List.flatMap_nil, List.append_nil, List.mem_append,
    Set.mem_union, or_and_right, exists_or]
  exact or_or_or_comm

/-! ## Nothing is held twice -/

/-- No operation is going on, every instance stands at one place and follows its template. -/
structure Arranged (lib : Library) (w : World) : Prop where
  orderly : ∃ hand, w.Orderly (.plain lib) [] hand
  tight : w.Tight lib []

namespace Arranged

variable {lib : Library} (h : w.Arranged lib)

include h

/-- Nothing is held at the moment, so each instance holds what its stash says. -/
theorem placed_eq (hi : w.instances[i]? = some inst) (hand : List InstanceId) :
    w.placed hand (.stash i) = inst.held :=
  mem_placed_stash (by rw [h.tight.busy_eq]; exact List.not_mem_nil) hi

/-- What an instance holds it reaches. -/
theorem reaches_of_holds (hk : w.Holds i k) : w.Reaches i k :=
  Relation.ReflTransGen.mono (fun _ _ ⟨_, hi, hj⟩ => h.placed_eq hi [] ▸ hj) _ _ hk

/-- An instance holds nothing twice. -/
theorem nodup_held (hi : w.instances[i]? = some inst) : inst.held.Nodup := by
  obtain ⟨hand, orderly⟩ := h.orderly
  exact h.placed_eq hi hand ▸ orderly.spread.nodup (.stash i)

/-- What an instance holds does not hold it. -/
theorem not_mem_tree (hi : w.instances[i]? = some inst) (hj : j ∈ inst.held) : i ∉ w.tree j := by
  obtain ⟨hand, orderly⟩ := h.orderly
  rw [← h.placed_eq hi []] at hj
  exact fun hk => orderly.ne_of_reaches hj (h.reaches_of_holds hk) rfl

/-- Different instances that one instance holds have nothing in common. -/
theorem eq_of_mem_tree (hi : w.instances[i]? = some inst) (hj : j ∈ inst.held) {j' : InstanceId}
    (hj' : j' ∈ inst.held) (hk : k ∈ w.tree j) (hk' : k ∈ w.tree j') : j = j' := by
  obtain ⟨hand, orderly⟩ := h.orderly
  -- Whoever holds an instance is the only one.
  have holder {a b c : InstanceId} {x y : Instance} (ha : w.instances[a]? = some x)
      (hb : w.instances[b]? = some y) (hc : c ∈ x.held) (hc' : c ∈ y.held) : a = b := by
    rw [← h.placed_eq ha hand] at hc
    rw [← h.placed_eq hb hand] at hc'
    exact Place.stash.inj (orderly.spread.apart hc hc')
  -- Going up from `k` both ways meet the same holders, until one of them has come to its top; the other
  -- one cannot go on there, since the instance would hold itself.
  induction hk' with
  | refl =>
    rcases Relation.ReflTransGen.cases_tail hk with rfl | ⟨m, hm, x, hx, hj'm⟩
    · rfl
    · obtain rfl := holder hi hx hj' hj'm
      exact absurd hm (h.not_mem_tree hi hj)
  | tail hm hc ih =>
    rename_i m k
    obtain ⟨x, hx, hkm⟩ := hc
    rcases Relation.ReflTransGen.cases_tail hk with rfl | ⟨m', hm', y, hy, hkm'⟩
    · obtain rfl := holder hi hx hj hkm
      exact absurd hm (h.not_mem_tree hi hj')
    · obtain rfl := holder hx hy hkm hkm'
      exact ih hm'

/-- What an instance holds has no descendants in common. -/
theorem pairwise_held (hi : w.instances[i]? = some inst) :
    inst.held.Pairwise w.Severed :=
  (h.nodup_held hi).imp_of_mem fun hj hk hne _ hm hm' => hne (h.eq_of_mem_tree hi hj hk hm hm')

/-- No instance is on loan to itself. -/
theorem not_mem_loans (i : InstanceId) : i ∉ w.loans i := fun hi => by
  obtain ⟨k, hk, inst, get, held⟩ := exists_holder_of_mem_loans hi
  exact h.not_mem_tree get held hk

/-- What is held is there, and what a shared repeater holds is of its definition. -/
theorem ranks (hi : w.instances[i]? = some inst) {item : StashItem} (hm : item ∈ inst.stash) :
    item.Ranks w inst.definition := by
  obtain ⟨hand, orderly⟩ := h.orderly
  exact (orderly.sound hi List.not_mem_nil).ranks item hm

/-- What an instance holds exists. -/
theorem exists_of_mem_held (hi : w.instances[i]? = some inst) (hj : j ∈ inst.held) :
    ∃ inst', w.instances[j]? = some inst' := by
  obtain ⟨item, hm, hj⟩ := List.mem_flatMap.mp hj
  obtain ⟨id, -, hid⟩ := (h.ranks hi hm).lt hj
  obtain ⟨inst', hj, -⟩ := Option.map_eq_some_iff.mp hid
  exact ⟨inst', hj⟩

/-- What an instance holds stands in no pool. -/
theorem not_mem_pool (hi : w.instances[i]? = some inst) (hj : j ∈ inst.held) (id : DefinitionId) :
    j ∉ w.pool id := by
  obtain ⟨hand, orderly⟩ := h.orderly
  rw [← h.placed_eq hi hand] at hj
  intro hp
  cases orderly.spread.apart (q := .pool id) hj hp

/-- The repeaters of an instance are even. -/
theorem even (hi : w.instances[i]? = some inst) {item : StashItem} (hm : item ∈ inst.stash) :
    item.Even := by
  obtain ⟨d, -, -, backs⟩ := h.tight.follows hi List.not_mem_nil
  obtain ⟨n, hn, rfl⟩ := List.getElem_of_mem hm
  exact (backs.stash.get hn (backs.stash.length_eq ▸ hn)).even

/-- Every instance has a pool that it can go to. -/
theorem lt_pools (hi : w.instances[i]? = some inst) : inst.definition < w.pools.size := by
  obtain ⟨d, hd, -⟩ := h.tight.follows hi List.not_mem_nil
  rw [h.tight.pools]
  exact (List.getElem?_eq_some_iff.mp hd).1

end Arranged

end World

end ComponentView
