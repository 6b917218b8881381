import ComponentView.Proofs.Kinship
import ComponentView.Proofs.Layout.Walk

/-! # The watch list of a template

The watches of a template stand in the order of their addresses, so those below an address are a
block of the list. That is why a shield can pass over the nodes below its own by a number
(`Template.ExactSkips`), and a part can be told by two positions (`Template.part_of_compile`). -/

namespace ComponentView

/-! ## Blocks of addresses -/

namespace Address

variable {p a : Address} {as : List Address}

/-- Of addresses in order after one within `p`, those within `p` come first. -/
theorem within?_iff_lt_takeWhile (ordered : as.Pairwise fun a b => order a b = .lt)
    (hp : p <+: a) (ha : ∀ b ∈ as, order a b = .lt) {j : Nat} {b : Address}
    (hj : as[j]? = some b) :
    b.within? p = true ↔ j < (as.takeWhile (·.within? p)).length := by
  induction as generalizing a j with
  | nil => simp at hj
  | cons c as ih =>
    rw [List.pairwise_cons] at ordered
    cases hc : c.within? p with
    | true =>
      rw [List.takeWhile_cons, if_pos hc, List.length_cons]
      cases j with
      | zero =>
        obtain rfl : c = b := by simpa using hj
        simp [hc]
      | succ j =>
        rw [ih ordered.2 (within?_iff.mp hc) ordered.1 hj]
        omega
    | false =>
      -- Past the first address that is not within `p` there is none that is.
      rw [List.takeWhile_cons, if_neg (by simp [hc])]
      refine ⟨fun hb => ?_, fun h => absurd h (Nat.not_lt_zero j)⟩
      cases j with
      | zero =>
        obtain rfl : c = b := by simpa using hj
        rw [hc] at hb
        cases hb
      | succ j =>
        have hcb := ordered.1 b (List.mem_of_getElem? hj)
        have := within?_iff.mpr
          (prefix_of_between hp (within?_iff.mp hb) (ha c (by simp)) hcb)
        rw [hc] at this
        cases this

/-- So all addresses within `p` are the first ones that are. -/
theorem filter_within?_eq_takeWhile (ordered : as.Pairwise fun a b => order a b = .lt)
    (hp : p <+: a) (ha : ∀ b ∈ as, order a b = .lt) :
    as.filter (·.within? p) = as.takeWhile (·.within? p) := by
  induction as generalizing a with
  | nil => rfl
  | cons c as ih =>
    rw [List.pairwise_cons] at ordered
    cases hc : c.within? p with
    | true =>
      rw [List.takeWhile_cons, if_pos hc, List.filter_cons, if_pos hc,
        ih ordered.2 (within?_iff.mp hc) ordered.1]
    | false =>
      rw [List.takeWhile_cons, if_neg (by simp [hc]), List.filter_eq_nil_iff]
      intro b hb hw
      obtain ⟨j, hj⟩ := List.getElem?_of_mem hb
      have := (within?_iff_lt_takeWhile (List.pairwise_cons.mpr ordered) hp ha hj).mp hw
      rw [List.takeWhile_cons, if_neg (by simp [hc])] at this
      exact absurd this (Nat.not_lt_zero j)

end Address

namespace Watch

/-- A watch that passes over the first of the later watches that lie below it. -/
def withSkip (later : List Watch) (w : Watch) : Watch :=
  { w with shield := w.shield.map fun s =>
      { s with skip := (later.takeWhile (·.address.extends? w.address)).length } }

/-- A watch gets its skip count from those after it. -/
theorem withSkips_eq (ws : List Watch) {i : Nat} :
    (withSkips ws)[i]? = ws[i]?.map (withSkip (ws.drop (i + 1))) := by
  induction ws generalizing i with
  | nil => rfl
  | cons w ws ih => cases i <;> simp [withSkips, withSkip, ih]

/-- Skip counts leave the addresses as they are. -/
@[simp] theorem address_withSkips (ws : List Watch) :
    (withSkips ws).map (·.address) = ws.map (·.address) := by
  induction ws with
  | nil => rfl
  | cons w ws ih => simp [withSkips, ih]

end Watch

/-! ## Shields -/

namespace Template

/-- The watches stand in the order of their addresses. -/
def Ordered (t : Template) : Prop :=
  (t.watches.map (·.address)).Pairwise fun a b => Address.order a b = .lt

/-- A shield passes over as many watches as lie below it, and those are the ones right after. -/
structure ExactSkips (t : Template) : Prop where
  count : ∀ {i : Nat} {w : Watch} {s : Shield}, t.watches[i]? = some w → w.shield = some s →
    s.skip = ((t.watches.drop (i + 1)).filter (·.address.extends? w.address)).length
  block : ∀ {i j : Nat} {w later : Watch} {s : Shield}, t.watches[i]? = some w →
    w.shield = some s → t.watches[j]? = some later → i < j →
      (later.address.extends? w.address = true ↔ j ≤ i + s.skip)

/-- Shields that pass over the first watches below them pass over all of them. -/
theorem exactSkips_of_withSkips {t : Template} {ws : List Watch}
    (ht : t.watches = Watch.withSkips ws) (ordered : t.Ordered) : t.ExactSkips := by
  -- What is below the watch at `i`, told by the addresses that come after it.
  have facts {i : Nat} {w : Watch} {s : Shield} (hi : t.watches[i]? = some w)
      (hs : w.shield = some s) :
      let later := (t.watches.drop (i + 1)).map (·.address)
      s.skip = (later.takeWhile (·.within? w.address)).length ∧
        later.Pairwise (fun a b => Address.order a b = .lt) ∧
        ∀ b ∈ later, Address.order w.address b = .lt := by
    have hd : (t.watches.map (·.address)).drop i
        = w.address :: (t.watches.drop (i + 1)).map (·.address) := by
      rw [← List.map_drop, List.drop_eq_getElem_cons (List.getElem?_eq_some_iff.mp hi).1,
        (List.getElem?_eq_some_iff.mp hi).2, List.map_cons]
    have sorted := ordered.drop (i := i)
    rw [hd, List.pairwise_cons] at sorted
    refine ⟨?_, sorted.2, sorted.1⟩
    rw [ht, Watch.withSkips_eq, Option.map_eq_some_iff] at hi
    obtain ⟨w, -, rfl⟩ := hi
    obtain ⟨s, -, rfl⟩ := Option.map_eq_some_iff.mp hs
    have same : (t.watches.drop (i + 1)).map (·.address)
        = (ws.drop (i + 1)).map (·.address) := by
      rw [List.map_drop, List.map_drop, ht, Watch.address_withSkips]
    show _ = (List.takeWhile (fun a : Address => a.within? w.address) _).length
    rw [same] at sorted ⊢
    rw [List.takeWhile_map, List.length_map]
    -- The later watches are the same whether they extend the address or lie within it.
    refine congrArg List.length (takeWhile_congr fun v hv => ?_)
    have := Address.extends?_iff_within?_of_order (sorted.1 v.address (List.mem_map_of_mem hv))
    exact Bool.eq_iff_iff.mpr this
  constructor
  · intro i w s hi hs
    obtain ⟨skip, sorted, after⟩ := facts hi hs
    rw [skip, ← Address.filter_within?_eq_takeWhile sorted List.prefix_rfl after,
      List.filter_map, List.length_map]
    refine congrArg List.length (List.filter_congr fun v hv => ?_)
    have := Address.extends?_iff_within?_of_order (after v.address (List.mem_map_of_mem hv))
    exact Bool.eq_iff_iff.mpr this.symm
  · intro i j w later s hi hs hj hij
    obtain ⟨skip, sorted, after⟩ := facts hi hs
    have hj' : ((t.watches.drop (i + 1)).map (·.address))[j - (i + 1)]? = some later.address := by
      rw [List.getElem?_map, List.getElem?_drop, show i + 1 + (j - (i + 1)) = j by omega, hj]
      rfl
    rw [Address.extends?_iff_within?_of_order (after _ (List.mem_of_getElem? hj')),
      Address.within?_iff_lt_takeWhile sorted List.prefix_rfl after hj', ← skip]
    omega
where
  takeWhile_congr {α : Type} {p q : α → Bool} {xs : List α} (h : ∀ x ∈ xs, p x = q x) :
      xs.takeWhile p = xs.takeWhile q := by
    induction xs with
    | nil => rfl
    | cons x xs ih =>
      rw [List.forall_mem_cons] at h
      rw [List.takeWhile_cons, List.takeWhile_cons, h.1, ih h.2]

/-! ## Parts -/

/-- The window of an address holds the positions of the addresses within it. -/
theorem partWindow_spec {as : List Address}
    (ordered : as.Pairwise fun a b => Address.order a b = .lt) (p : Address) :
    let window := Watch.partWindow as p
    window.1 ≤ window.2 ∧ window.2 ≤ as.length ∧ ∀ (i : Nat) (a : Address), as[i]? = some a →
      (window.1 ≤ i ∧ i < window.2 ↔ a.within? p = true) := by
  dsimp only
  rw [Watch.partWindow]
  split
  · next start hstart =>
    obtain ⟨hlt, hfound, hfirst⟩ := List.findIdx?_eq_some_iff_getElem.mp hstart
    have hd := List.drop_eq_getElem_cons hlt
    have sorted := ordered.drop (i := start)
    rw [hd, List.pairwise_cons] at sorted
    rw [hd, List.takeWhile_cons, if_pos hfound, List.length_cons]
    have bound := (List.takeWhile_prefix (l := as.drop (start + 1)) (·.within? p)).length_le
    rw [List.length_drop] at bound
    refine ⟨by dsimp only; omega, by dsimp only; omega, fun i a hi => ?_⟩
    dsimp only
    obtain ⟨hi', rfl⟩ := List.getElem?_eq_some_iff.mp hi
    rcases Nat.lt_trichotomy i start with h | rfl | h
    · exact iff_of_false (fun hb => absurd hb.1 (Nat.not_le.mpr h)) (hfirst i h)
    · simp_all
    · have hj : (as.drop (start + 1))[i - (start + 1)]? = some as[i] := by
        rw [List.getElem?_drop, show start + 1 + (i - (start + 1)) = i by omega, hi]
      rw [Address.within?_iff_lt_takeWhile sorted.2 (Address.within?_iff.mp hfound) sorted.1 hj]
      omega
  · next hnone =>
    refine ⟨Nat.le_refl 0, Nat.zero_le _, fun i a hi => ?_⟩
    have := List.findIdx?_eq_none_iff.mp hnone a (List.mem_of_getElem? hi)
    simp [this]

/-! ## What is compiled -/

section Compiled

variable {options : CompileSettings} {name : String} {root : Node} {t : Template}

/-- What is compiled is an accepted component. -/
theorem accepts_of_compile (h : compile options name root = .ok t) :
    Outline.Accepts root ∧ t = ofOutline options root (Outline.ofRoot root) := by
  unfold compile at h
  split at h
  · cases h
  · next hr =>
    dsimp only at h
    split at h
    · cases h
    · next hc => exact ⟨⟨hr, hc⟩, by simpa using h.symm⟩

/-- The watches of a compiled template, with what they pass over left open. -/
theorem watches_of_compile (h : compile options name root = .ok t) :
    t.watches = Watch.withSkips (Lay.walked options (Outline.ofRoot root)).watches := by
  obtain ⟨accepts, rfl⟩ := accepts_of_compile h
  rw [ofOutline_eq]
  exact congrArg _ (Lay.finished_anchored accepts.sound options).2.1.watches

/-- The watches of a compiled template are in order. -/
theorem ordered_of_compile (h : compile options name root = .ok t) : t.Ordered := by
  have accepts := (accepts_of_compile h).1
  rw [Ordered, watches_of_compile h, Watch.address_withSkips]
  refine List.Pairwise.sublist (Lay.walked_covers accepts.sound options).addresses ?_
  rw [List.take_length, List.pairwise_map]
  exact Outline.pairwise_ofRoot root

/-- The skip counts of a compiled template are exact. -/
theorem exactSkips_of_compile (h : compile options name root = .ok t) : t.ExactSkips :=
  exactSkips_of_withSkips (watches_of_compile h) (ordered_of_compile h)

/-- A part is found under its name, with the watches at and below its node. -/
theorem part_of_compile (h : compile options name root = .ok t) {e : OutlineEntry}
    (he : e ∈ Outline.ofRoot root) {part : String} (hp : e.node.head.part = some part) :
    t.part? part = some (Watch.partWindow (t.watches.map (·.address)) e.address) := by
  have accepts := (accepts_of_compile h).1
  have parts : t.parts = (Outline.ofRoot root).filterMap fun e => e.node.head.part.map fun name =>
      (name, Watch.partWindow (t.watches.map (·.address)) e.address) := by
    rw [(accepts_of_compile h).2, ofOutline_eq]
    dsimp only
    rw [Watch.address_withSkips]
  obtain ⟨i, hi⟩ := List.getElem?_of_mem he
  -- Before the entry no other has the name of its part.
  have split : Outline.ofRoot root
      = (Outline.ofRoot root).take i ++ e :: (Outline.ofRoot root).drop (i + 1) := by
    obtain ⟨hlt, rfl⟩ := List.getElem?_eq_some_iff.mp hi
    rw [← List.drop_eq_getElem_cons hlt, List.take_append_drop]
  rw [part?, parts, split, List.filterMap_append, List.filterMap_cons, hp, List.lookup_append]
  have fresh : List.lookup part (((Outline.ofRoot root).take i).filterMap fun e =>
      e.node.head.part.map fun name =>
        (name, Watch.partWindow (t.watches.map (·.address)) e.address)) = none := by
    rw [List.lookup_eq_none_iff]
    intro x hx
    obtain ⟨b, hb, hx⟩ := List.mem_filterMap.mp hx
    obtain ⟨other, ho, rfl⟩ := Option.map_eq_some_iff.mp hx
    obtain ⟨j, hj⟩ := List.getElem?_of_mem hb
    have hji : j < i := by
      have := (List.getElem?_eq_some_iff.mp hj).1
      rw [List.length_take] at this
      omega
    rw [List.getElem?_take, if_pos hji] at hj
    have := accepts.part hj hi hji ho
    rw [hp, ne_eq, Option.some_inj] at this
    simpa using this
  rw [fresh]
  simp

/-- The watches of a compiled template are in lexicographic order of their addresses, no two at the
same; a shield passes over all watches below it, which are the ones right after it; and a part has
exactly the watches at and below its node. -/
theorem watch_list_of_compile (h : compile options name root = .ok t) :
    (t.watches.map (·.address)).Pairwise (· < ·) ∧ (t.watches.map (·.address)).Nodup ∧
    (∀ (i : Nat) (w : Watch) (s : Shield), t.watches[i]? = some w → w.shield = some s →
      s.skip = ((t.watches.drop (i + 1)).filter (·.address.extends? w.address)).length ∧
      i + s.skip < t.watches.length ∧
      ∀ (j : Nat) (later : Watch), t.watches[j]? = some later →
        (i < j ∧ later.address.extends? w.address = true ↔ i + 1 ≤ j ∧ j ≤ i + s.skip)) ∧
    (∀ e ∈ Outline.ofRoot root, ∀ part, e.node.head.part = some part →
      ∃ start stop, t.part? part = some (start, stop) ∧ start ≤ stop ∧
        stop ≤ t.watches.length ∧ ∀ (i : Nat) (w : Watch), t.watches[i]? = some w →
          (start ≤ i ∧ i < stop ↔ w.address.within? e.address = true)) := by
  have ordered := ordered_of_compile h
  have skips := exactSkips_of_compile h
  refine ⟨?_, ?_, fun i w s hi hs => ⟨skips.count hi hs, ?_, fun j later hj => ?_⟩,
    fun e he part hp => ?_⟩
  · exact ordered.imp Address.order_eq_lt_iff.mp
  · refine ordered.imp fun hab hne => ?_
    exact Address.order_self_ne_lt _ (hne ▸ hab)
  · have hlt := (List.getElem?_eq_some_iff.mp hi).1
    have := List.length_filter_le (·.address.extends? w.address) (t.watches.drop (i + 1))
    rw [← skips.count hi hs, List.length_drop] at this
    omega
  · constructor
    · rintro ⟨hij, he⟩
      exact ⟨hij, (skips.block hi hs hj hij).mp he⟩
    · rintro ⟨hij, hle⟩
      exact ⟨hij, (skips.block hi hs hj hij).mpr hle⟩
  · obtain ⟨first, last, inside⟩ := partWindow_spec ordered e.address
    rw [List.length_map] at last
    refine ⟨_, _, part_of_compile h he hp, first, last, fun i w hi => ?_⟩
    exact inside i w.address (by rw [List.getElem?_map, hi]; rfl)

/-- A component with a part that can be out of sight. -/
def card : Node :=
  ⟨{ kind := .element "div" }, [
    ⟨{ kind := .element "p", part := some "body",
       visibility := some ⟨.state [.field "open"], false, .hide⟩ }, [
      ⟨{ kind := .text "", watches := [⟨.state [.field "text"], .setText⟩] }, []⟩]⟩]⟩

/-- Its part has two watches, and the first passes over the second. -/
theorem watch_list_of_card :
    ∃ t, compile {} "Card" card = .ok t ∧ (t.watches.map (·.address)).Pairwise (· < ·) ∧
      t.watches.map (fun w => w.shield.map (·.skip)) = [some 1, none] ∧
      t.part? "body" = some (0, 2) := by
  have compiled : compile {} "Card" card = .ok (ofOutline {} card (Outline.ofRoot card)) := rfl
  exact ⟨_, compiled, (watch_list_of_compile compiled).1, rfl, rfl⟩

end Compiled

end Template

end ComponentView
