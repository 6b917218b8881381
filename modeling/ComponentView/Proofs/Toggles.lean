import ComponentView.Tracker
import ComponentView.Proofs.Document.Handled
import ComponentView.Proofs.Document.Moves
import ComponentView.Proofs.Document.Placeholder
import ComponentView.Proofs.Repeat.Blocks

/-! # Siblings that come and go

A tracker and the document agree on which of some siblings are on show: the children of the parent
are the nodes of the attached positions, in order (`Tracker.Shows`). One call keeps it so, because a
node that comes back stands after as many children as positions before it are attached
(`Tracker.place_eq`), and so do any calls one after another (`Tracker.children_of_toggles`). -/

namespace ComponentView

namespace Document

variable {L : Type} {d : Document L} {p i : NodeId}

/-- Removing a child leaves every node as live as it was. -/
theorem isLive_remove (j : NodeId) : (d.remove p i).isLive j = d.isLive j := by
  rw [isLive, kind_remove, isLive]

/-- Putting a node in is one change, wherever it was before. -/
theorem structural_insertBefore (reference : Option NodeId) :
    (d.insertBefore p i reference).tally.structural = d.tally.structural + 1 := by
  have kept : (d.without i).tally = d.tally := by
    unfold Document.without
    split <;> rfl
  have counted : (d.insertBefore p i reference).tally =
      if reference.isNone then
        { (d.without i).tally with appends := (d.without i).tally.appends + 1 }
      else { (d.without i).tally with inserts := (d.without i).tally.inserts + 1 } := rfl
  rw [counted, kept]
  cases reference <;> simp only [Option.isNone_none, Option.isNone_some, if_true,
    Bool.false_eq_true, if_false, Tally.structural] <;> omega

/-- Taking a child out of its parent is one change. -/
theorem structural_remove (h : d.parent? i = some p) :
    (d.remove p i).tally.structural = d.tally.structural + 1 := by
  rw [remove, if_pos h]
  rfl

end Document

namespace Tracker

variable {L : Type} {nodes : List NodeId} {parent : NodeId} {shown : Nat → Bool} {t : Tracker}
  {d : Document L}

/-! ## The nodes on show -/

/-- The nodes of the positions that are on show, in the order of the positions. -/
def onShow (shown : Nat → Bool) (nodes : List NodeId) : List NodeId :=
  (nodes.zipIdx.filter fun entry => shown entry.2).map (·.1)

/-- What is on show before a node, the node if it is shown, and what is on show after it. -/
theorem onShow_append_cons (shown : Nat → Bool) (before : List NodeId) (i : NodeId)
    (after : List NodeId) : onShow shown (before ++ i :: after)
      = onShow shown before ++ (if shown before.length then [i] else [])
        ++ onShow (fun k => shown (before.length + 1 + k)) after := by
  have shifted : (after.zipIdx (before.length + 1)).filter (fun entry => shown entry.2)
      = (after.zipIdx.filter fun entry => shown (before.length + 1 + entry.2)).map
          (Prod.map id (before.length + 1 + ·)) := by
    rw [List.zipIdx_eq_map_add, List.filter_map]
    rfl
  simp only [onShow, List.zipIdx_append, List.zipIdx_cons, List.filter_append, List.map_append,
    List.filter_cons, Nat.zero_add, shifted]
  cases shown before.length <;> simp [Function.comp_def]

/-- Only the positions that there are count. -/
theorem onShow_congr {other : Nat → Bool} (h : ∀ k < nodes.length, shown k = other k) :
    onShow shown nodes = onShow other nodes :=
  congrArg (List.map _) (List.filter_congr fun _ he => h _ (by
    simpa using List.snd_lt_of_mem_zipIdx he))

/-- As many nodes are on show as positions are shown. -/
theorem length_onShow (shown : Nat → Bool) (nodes : List NodeId) :
    (onShow shown nodes).length = ((List.range nodes.length).filter shown).length := by
  have positions : nodes.zipIdx.map (·.2) = List.range nodes.length := by
    rw [List.zipIdx_map_snd, List.range_eq_range']
  rw [onShow, List.length_map, ← positions, List.filter_map, List.length_map]
  rfl

/-- Only nodes of the list are on show. -/
theorem mem_of_mem_onShow {i : NodeId} (h : i ∈ onShow shown nodes) : i ∈ nodes := by
  obtain ⟨entry, he, rfl⟩ := List.mem_map.mp h
  exact List.fst_mem_of_mem_zipIdx (List.mem_filter.mp he).1

/-- One position among the others: with it on show its node stands between those on show before it
and those after it, and without it these stand together. -/
theorem exists_onShow_update (distinct : nodes.Nodup) (shown : Nat → Bool) {k : Nat}
    (hk : k < nodes.length) : ∃ before after : List NodeId,
      (∀ visible, onShow (Function.update shown k visible) nodes
        = before ++ (if visible then [nodes[k]] else []) ++ after) ∧
      before.length = ((List.range k).filter shown).length ∧ nodes[k] ∉ before ++ after := by
  -- Split at the position, the list before it has the positions that a change of it leaves alone.
  obtain ⟨first, last, hs, rfl⟩ : ∃ first last, nodes = first ++ nodes[k] :: last ∧
      first.length = k :=
    ⟨nodes.take k, nodes.drop (k + 1), by simp, by simp; omega⟩
  generalize nodes[first.length] = i at hs
  subst hs
  refine ⟨onShow shown first, onShow (fun j => shown (first.length + 1 + j)) last,
    fun visible => ?_, length_onShow shown first, fun hi => ?_⟩
  · have earlier : onShow (Function.update shown first.length visible) first = onShow shown first :=
      onShow_congr fun j hj => Function.update_of_ne hj.ne _ _
    have later : (fun j => Function.update shown first.length visible (first.length + 1 + j))
        = fun j => shown (first.length + 1 + j) :=
      funext fun j => Function.update_of_ne (by omega) _ _
    rw [onShow_append_cons, earlier, later, Function.update_self]
  · rw [List.nodup_middle, List.nodup_cons] at distinct
    exact distinct.1 (List.mem_append.mpr
      ((List.mem_append.mp hi).imp mem_of_mem_onShow mem_of_mem_onShow))

/-! ## The place of a position -/

/-- The tracker notes no position twice. -/
theorem nodup_ofDetached (positions : List Nat) : (ofDetached positions).detached.Nodup := by
  show positions.eraseDups.Nodup
  induction positions using List.reverseRecOn with
  | nil => exact List.nodup_nil
  | append_singleton positions k ih =>
    rw [List.eraseDups_append]
    by_cases hk : k ∈ positions
    · simpa [List.removeAll, hk] using ih
    · simpa [List.removeAll, hk, List.eraseDups_cons] using ih.concat (by simpa using hk)

/-- A tracker keeps each detached position once, and these are the positions not on show. -/
structure Notes (count : Nat) (shown : Nat → Bool) (t : Tracker) : Prop where
  nodup : t.detached.Nodup
  mem_iff : ∀ k, k ∈ t.detached ↔ k < count ∧ shown k = false

namespace Notes

variable {count k : Nat}

/-- The tracker says of a position whether it is shown. -/
theorem isAttached_eq (h : Notes count shown t) (hk : k < count) : t.isAttached k = shown k := by
  have mem := h.mem_iff k
  rw [isAttached, List.contains_eq_mem]
  cases hs : shown k <;> simp_all

/-- What is detached before a position and what is on show there are all positions before it. -/
theorem length_before (h : Notes count shown t) (hk : k ≤ count) :
    (t.detached.filter (· < k)).length + ((List.range k).filter shown).length = k := by
  -- The tracker need not have the positions in order, so the two lists are compared as sets.
  have hidden : (t.detached.filter (· < k)).Perm ((List.range k).filter fun j => !shown j) := by
    refine (List.perm_ext_iff_of_nodup (h.nodup.filter _) (List.nodup_range.filter _)).mpr
      fun j => ?_
    simp only [List.mem_filter, List.mem_range, h.mem_iff, decide_eq_true_eq, Bool.not_eq_true']
    constructor
    · exact fun hj => ⟨hj.2, hj.1.2⟩
    · exact fun hj => ⟨⟨by omega, hj.2⟩, hj.1⟩
  have all := List.length_eq_length_filter_add (l := List.range k) shown
  rw [List.length_range] at all
  rw [hidden.length_eq]
  omega

/-- The place of a position is the number of positions on show before it. -/
theorem place_eq (h : Notes count shown t) (few : count < 2 ^ 31) (hk : k < count) :
    t.place k = ((List.range k).filter shown).length := by
  have sum := h.length_before hk.le
  -- With so few positions nothing wraps, so the place is what is left when the detached are counted off.
  rw [place, shiftBefore, ← Int32.sub_eq_add_neg, Int32.toInt_sub]
  rw [Int32.toInt_ofNat_of_lt (by omega), Int32.toInt_ofNat_of_lt (by omega),
    Int.bmod_eq_of_le (by omega) (by omega)]
  omega

/-- At the start all positions are shown but the detached ones. -/
theorem ofDetached {positions : List Nat} (inside : ∀ k ∈ positions, k < count) :
    Notes count (fun k => !positions.contains k) (.ofDetached positions) where
  nodup := nodup_ofDetached positions
  mem_iff k := by
    have := inside k
    simp [Tracker.ofDetached]
    tauto

/-- The tracker notes a toggle. -/
theorem set (h : Notes count shown t) (hk : k < count) (visible : Bool) :
    Notes count (Function.update shown k visible) (t.set k visible) where
  nodup := by
    unfold Tracker.set
    split
    · exact h.nodup.filter _
    · split
      · exact h.nodup
      · next hn => simpa using h.nodup.concat (by simpa using hn)
  mem_iff j := by
    have other := h.mem_iff j
    rcases eq_or_ne j k with rfl | hj
    · rw [Function.update_self]
      cases visible <;> by_cases hc : t.detached.contains j <;> simp_all [Tracker.set]
    · rw [Function.update_of_ne hj, ← other]
      cases visible <;> by_cases hc : t.detached.contains k <;> simp_all [Tracker.set]

end Notes

/-! ## One call -/

/-- The tracker notes what is on show, and the children of the parent are the nodes on show. -/
structure Shows (parent : NodeId) (nodes : List NodeId) (shown : Nat → Bool) (t : Tracker)
    (d : Document L) : Prop where
  sound : d.Sound
  live : d.isLive parent = true
  alive : ∀ i ∈ nodes, d.isLive i = true
  notes : Notes nodes.length shown t
  children : d.children parent = onShow shown nodes

/-- What a call does: it brings one position to a state and says whether that was another one. -/
structure Answers (parent : NodeId) (nodes : List NodeId) (shown : Nat → Bool) (d : Document L)
    (k : Nat) (visible : Bool) (result : Tracker × Document L × Bool) : Prop where
  shows : Shows parent nodes (Function.update shown k visible) result.1 result.2.1
  changed : result.2.2 = true ↔ shown k ≠ visible
  moves : result.2.1.tally.structural
    = d.tally.structural + if shown k = visible then 0 else 1

namespace Shows

variable {k : Nat}

/-- A position that is already as asked is left alone. -/
theorem apply_same (h : Shows parent nodes shown t d) (hk : k < nodes.length) (target : NodeId) :
    t.apply d k parent target (shown k) = (t, d, false) := by
  rw [apply, if_pos (h.notes.isAttached_eq hk)]

/-- Inserting a hidden node at its place shows it. -/
theorem insert (h : Shows parent nodes shown t d) (few : nodes.length < 2 ^ 31)
    (distinct : nodes.Nodup) (hk : k < nodes.length) (hidden : shown k = false) :
    Shows parent nodes (Function.update shown k true) (t.set k true)
      (d.insertBefore parent nodes[k] (d.child? parent (t.place k))) where
  sound := h.sound.insertBefore parent (h.alive _ (List.getElem_mem hk)) _
  live := by rw [Document.isLive_insertBefore]; exact h.live
  alive i hi := by rw [Document.isLive_insertBefore]; exact h.alive i hi
  notes := h.notes.set hk true
  children := by
    obtain ⟨before, after, updated, length, alone⟩ := exists_onShow_update distinct shown hk
    have children : d.children parent = before ++ after := by
      rw [h.children, ← Function.update_eq_self k shown, updated, hidden]
      simp
    have nodup : (before ++ after).Nodup := children ▸ h.sound.nodup parent
    rw [h.sound.children_insertBefore h.live, if_pos rfl, Document.child?, children,
      h.notes.place_eq few hk, ← length, List.getElem?_append_right le_rfl, Nat.sub_self,
      ← List.head?_eq_getElem?, updated, if_pos rfl, List.append_assoc, List.singleton_append,
      List.filter_eq_self.mpr fun c hc => by simpa using fun he : c = nodes[k] => alone (he ▸ hc)]
    exact Document.placeBefore_head? nodup _

/-- Removing a shown node hides it. -/
theorem remove (h : Shows parent nodes shown t d) (distinct : nodes.Nodup)
    (hk : k < nodes.length) (visible : shown k = true) :
    Shows parent nodes (Function.update shown k false) (t.set k false)
      (d.remove parent nodes[k]) where
  sound := h.sound.remove _ _
  live := by rw [Document.isLive_remove]; exact h.live
  alive i hi := by rw [Document.isLive_remove]; exact h.alive i hi
  notes := h.notes.set hk false
  children := by
    obtain ⟨before, after, updated, -, alone⟩ := exists_onShow_update distinct shown hk
    have children : d.children parent = before ++ [nodes[k]] ++ after := by
      rw [h.children, ← Function.update_eq_self k shown, updated, visible]
      simp
    have others : ∀ c ∈ before ++ after, c ≠ nodes[k] := fun c hc he => alone (he ▸ hc)
    rw [List.forall_mem_append] at others
    rw [h.sound.children_remove, if_pos rfl, children, updated, List.filter_append,
      List.filter_append, List.filter_eq_self.mpr fun c hc => decide_eq_true (others.1 c hc),
      List.filter_eq_self.mpr fun c hc => decide_eq_true (others.2 c hc)]
    simp

/-- What is on show is a child of the parent, so taking it out is one change. -/
theorem parent?_of_shown (h : Shows parent nodes shown t d) (distinct : nodes.Nodup)
    (hk : k < nodes.length) (visible : shown k = true) : d.parent? nodes[k] = some parent := by
  obtain ⟨before, after, updated, -⟩ := exists_onShow_update distinct shown hk
  refine h.sound.linked ?_
  rw [h.children, ← Function.update_eq_self k shown, updated, visible]
  simp

/-- A toggle answers with what it should. -/
theorem apply (h : Shows parent nodes shown t d) (few : nodes.length < 2 ^ 31)
    (distinct : nodes.Nodup) (hk : k < nodes.length) (visible : Bool) :
    Answers parent nodes shown d k visible (t.apply d k parent nodes[k] visible) := by
  rcases eq_or_ne (shown k) visible with rfl | hv
  · rw [h.apply_same hk]
    exact ⟨by rw [Function.update_eq_self]; exact h, by simp, by simp⟩
  · rw [Tracker.apply, if_neg (h.notes.isAttached_eq hk ▸ hv)]
    cases visible with
    | true =>
      rw [if_pos rfl]
      refine ⟨h.insert few distinct hk (Bool.eq_false_of_not_eq_true hv), by simpa using hv, ?_⟩
      rw [if_neg hv]
      exact Document.structural_insertBefore ..
    | false =>
      have shows := Bool.eq_true_of_not_eq_false hv
      rw [if_neg Bool.false_ne_true]
      refine ⟨h.remove distinct hk shows, by simpa using shows, ?_⟩
      rw [if_neg hv]
      exact Document.structural_remove (h.parent?_of_shown distinct hk shows)

end Shows

/-! ## Any calls -/

/-- A call for one of the siblings. -/
structure Toggle (nodes : List NodeId) where
  position : Fin nodes.length
  visible : Bool

namespace Toggle

/-- The call, made with what the calls before it left. -/
def apply (parent : NodeId) (toggle : Toggle nodes) (s : Tracker × Document L) :
    Tracker × Document L × Bool :=
  s.1.apply s.2 toggle.position parent nodes[toggle.position] toggle.visible

/-- What some calls leave, one after another. -/
def applyAll (parent : NodeId) (toggles : List (Toggle nodes)) (s : Tracker × Document L) :
    Tracker × Document L :=
  toggles.foldl (fun s toggle => ((toggle.apply parent s).1, (toggle.apply parent s).2.1)) s

/-- The state of a position: what the latest call for it asked for, or, as long as there was none,
whether it did not start detached. -/
def latest (detached : List Nat) (toggles : List (Toggle nodes)) (k : Nat) : Bool :=
  match toggles.reverse.find? fun toggle => toggle.position = k with
  | some toggle => toggle.visible
  | none => !detached.contains k

/-- The last toggle decides about its position. -/
theorem latest_concat (detached : List Nat) (toggles : List (Toggle nodes)) (toggle : Toggle nodes) :
    latest detached (toggles ++ [toggle])
      = Function.update (latest detached toggles) toggle.position toggle.visible := by
  funext k
  rcases eq_or_ne k toggle.position with rfl | hk
  · simp [latest]
  · simp [latest, Function.update_of_ne hk, Ne.symm hk]

end Toggle

/-- After all toggles those nodes are shown that the last toggles ask for. -/
theorem Shows.applyAll {detached : List Nat} (few : nodes.length < 2 ^ 31) (distinct : nodes.Nodup)
    (h : Shows parent nodes (fun k => !detached.contains k) t d) (toggles : List (Toggle nodes)) :
    Shows parent nodes (Toggle.latest detached toggles) (Toggle.applyAll parent toggles (t, d)).1
      (Toggle.applyAll parent toggles (t, d)).2 := by
  induction toggles using List.reverseRecOn with
  | nil => exact h
  | append_singleton toggles toggle ih =>
    rw [Toggle.latest_concat, Toggle.applyAll, List.foldl_append]
    exact (ih.apply few distinct toggle.position.isLt toggle.visible).shows

/-- The siblings are distinct nodes of a sound document. Some of them start detached, and the
children of the parent are the others, in order. After any calls the children of the parent are the
nodes whose latest call, or else the start, has them on show, in the order of their positions, and
the tracker has exactly the other positions. A further call says that something changed just when
the position was in the other state; then it has made one change to the places of nodes, and
otherwise it has left the tracker and the document as they were. -/
theorem children_of_toggles {detached : List Nat} (few : nodes.length < 2 ^ 31)
    (distinct : nodes.Nodup) (inside : ∀ k ∈ detached, k < nodes.length) (sound : d.Sound)
    (live : d.isLive parent = true) (alive : ∀ i ∈ nodes, d.isLive i = true)
    (children : d.children parent = onShow (fun k => !detached.contains k) nodes)
    (toggles : List (Toggle nodes)) :
    let shown := Toggle.latest detached toggles
    let s := Toggle.applyAll parent toggles (ofDetached detached, d)
    s.2.children parent = onShow shown nodes ∧
    s.1.detached.Nodup ∧ (∀ k, k ∈ s.1.detached ↔ k < nodes.length ∧ shown k = false) ∧
    ∀ toggle : Toggle nodes,
      let result := toggle.apply parent s
      (result.2.2 = true ↔ shown toggle.position ≠ toggle.visible) ∧
      result.2.1.tally.structural
        = s.2.tally.structural + (if shown toggle.position = toggle.visible then 0 else 1) ∧
      (shown toggle.position = toggle.visible → result = (s.1, s.2, false)) := by
  intro shown s
  have start : Shows parent nodes (fun k => !detached.contains k) (ofDetached detached) d :=
    ⟨sound, live, alive, .ofDetached inside, children⟩
  have reached : Shows parent nodes shown s.1 s.2 := start.applyAll few distinct toggles
  refine ⟨reached.children, reached.notes.nodup, reached.notes.mem_iff, fun toggle => ?_⟩
  have answers := reached.apply few distinct toggle.position.isLt toggle.visible
  refine ⟨answers.changed, answers.moves, fun same => ?_⟩
  rw [Toggle.apply, ← same]
  exact reached.apply_same toggle.position.isLt _

/-- A list with three items, of which the second is not in it. -/
def threeItems : Document Unit :=
  [.createElement "ul", .createElement "li", .createElement "li", .createElement "li",
    .append 0 1, .append 0 3].foldl Document.Edit.apply {}

/-- The list of three items is sound. -/
theorem sound_threeItems : threeItems.Sound := by
  have list := Document.Handled.reset.edit (L := Unit) (.createElement "ul") nofun
  have first := list.edit (.createElement "li") nofun
  have second := first.edit (.createElement "li") nofun
  have third := second.edit (.createElement "li") nofun
  have begun := third.edit (.append 0 1) (by decide)
  exact (begun.edit (.append 0 3) (by decide)).sound

/-- The first item goes, the second comes, and the third is asked for where it is. -/
def threeToggles : List (Toggle [1, 2, 3]) := [⟨0, false⟩, ⟨1, true⟩, ⟨2, true⟩]

/-- The second item comes before the third. Asking for the first again brings it back, in one
change. -/
theorem children_of_threeToggles :
    let s := Toggle.applyAll 0 threeToggles (ofDetached [1], threeItems)
    threeItems.children 0 = [1, 3] ∧ s.2.children 0 = [2, 3] ∧ s.1.detached = [0] ∧
    ∃ result, Toggle.apply 0 (⟨0, true⟩ : Toggle [1, 2, 3]) s = result ∧ result.2.2 = true ∧
      result.2.1.tally.structural = s.2.tally.structural + 1 ∧
      result.2.1.children 0 = [1, 2, 3] := by
  obtain ⟨children, -, -, next⟩ := @children_of_toggles Unit [1, 2, 3] 0 threeItems [1] (by decide)
    (by decide) (by decide) sound_threeItems (by decide) (by decide) (by decide) threeToggles
  exact ⟨by decide, children, by decide, _, rfl, (next ⟨0, true⟩).1.mpr (by decide),
    (next ⟨0, true⟩).2.1, by decide⟩

end Tracker

end ComponentView
