import ComponentView.Proofs.WatchList
import Mathlib.Data.List.Nodup

/-! # What watches do not share

If the watches that users declare only write to their nodes, every watch of a compiled template
renders one entry of the stash at most. No two watches render the same entry, nor do they move nodes
at the same position of one parent (`Template.apart_of_compile`). -/

namespace ComponentView

namespace Effect

/-- The effect only writes to its node. -/
def Writes : Effect → Prop
  | setText | setAttribute _ | switchClass _ | switchClasses _ | setStyle _ => True
  | _ => False

instance : DecidablePred Writes
  | setText | setAttribute _ | switchClass _ | switchClasses _ | setStyle _ => isTrue trivial
  | renderChild _ _ | renderSequence _ _ | renderKeyed _ _ | record _ | failWhen _ | recordLookup _
  | recordScope | dispatch _ | publish _ => isFalse id

/-- The entry of the stash that the effect renders. -/
def entry? : Effect → Option StashIndex
  | renderChild key _ | renderSequence key _ | renderKeyed key _ => some key
  | _ => none

/-- An effect that only writes has no entry of the stash. -/
theorem Writes.entry?_eq {f : Effect} (h : f.Writes) : f.entry? = none := by
  cases f <;> first | rfl | cases h

end Effect

/-- The watches of the node only write to it. -/
def NodeHead.BuiltIn (h : NodeHead) : Prop := ∀ d ∈ h.watches, d.effect.Writes

instance (h : NodeHead) : Decidable h.BuiltIn :=
  inferInstanceAs (Decidable (∀ d ∈ h.watches, d.effect.Writes))

/-- All watches that the component declares only write to their nodes. -/
def Node.BuiltIn (root : Node) : Prop := ∀ e ∈ Outline.ofRoot root, e.node.head.BuiltIn

instance (root : Node) : Decidable root.BuiltIn :=
  inferInstanceAs (Decidable (∀ e ∈ Outline.ofRoot root, e.node.head.BuiltIn))

namespace Watch

/-- The entries of the stash that the watch renders. -/
def entries (w : Watch) : List StashIndex :=
  w.callbacks.flatMap fun c => c.effects.filterMap Effect.entry?

/-- Where the watch moves its node: a tracker, and a position among what it tracks. -/
def place? (w : Watch) : Option (StashIndex × Nat) :=
  (w.shield.bind (·.detach)).map fun plan => (plan.tracker, plan.position)

/-- Two watches neither render the same entry nor move nodes at the same position. -/
structure Apart (v w : Watch) : Prop where
  entries : ∀ key ∈ v.entries, key ∉ w.entries
  places : ∀ p ∈ v.place?, p ∉ w.place?

/-- A watch with one more effect renders what that effect does beside what it rendered before. -/
theorem entries_add (t : Trigger) (f : Effect) (w : Watch) :
    (w.add t f).entries.Perm (w.entries ++ f.entry?.toList) := by
  have inserted (cs : List Callback) :
      ((add.insert t f cs).flatMap fun c => c.effects.filterMap Effect.entry?).Perm
        ((cs.flatMap fun c => c.effects.filterMap Effect.entry?) ++ f.entry?.toList) := by
    have last : [f].filterMap Effect.entry? = f.entry?.toList := by
      cases h : f.entry? <;> simp [h]
    induction cs with
    | nil => simp [add.insert, last]
    | cons c cs ih =>
      unfold add.insert
      split
      · simp only [List.flatMap_cons, List.filterMap_append, last, List.append_assoc]
        exact List.perm_append_comm.append_left _
      · simp only [List.flatMap_cons, List.append_assoc]
        exact ih.append_left _
  exact inserted w.callbacks

/-- An effect that only writes adds no entry of the stash to a watch. -/
theorem entries_add_of_writes {t : Trigger} {f : Effect} {w : Watch} (hf : f.Writes)
    (h : w.entries = []) : (w.add t f).entries = [] := by
  have := entries_add t f w
  rw [h, hf.entry?_eq] at this
  exact this.eq_nil

/-- One effect adds at most one entry of the stash. -/
theorem length_entries_add {f : Effect} {w : Watch} (t : Trigger) (h : w.entries = []) :
    (w.add t f).entries.length ≤ 1 := by
  rw [(entries_add t f w).length_eq, h, List.nil_append]
  cases f.entry? <;> simp

end Watch

/-! ## One entry for each watch -/

namespace Lay

variable {α β : Type} {Q : α → Prop}

/-- Whatever has been laid out, `Q` holds of what the step results in. -/
def Makes (x : Lay α) (Q : α → Prop) : Prop := ∀ l, Q (x.run l).1

namespace Makes

/-- A result is made as it is. -/
theorem pure {a : α} (h : Q a) : Makes (pure a) Q := fun _ => h

/-- What the first step makes the second works on. -/
theorem bind {x : Lay α} {f : α → Lay β} {R : β → Prop} (hx : Makes x Q)
    (hf : ∀ a, Q a → Makes (f a) R) : Makes (x >>= f) R := fun l => hf _ (hx l) _

/-- Only the last step matters for what is made. -/
theorem after {x : Lay α} {f : α → Lay β} {R : β → Prop} (hf : ∀ a, Makes (f a) R) :
    Makes (x >>= f) R := fun _ => hf _ _

/-- What every step of a loop makes again, the loop makes. -/
theorem foldlM {γ : Type} {f : α → γ → Lay α} {cs : List γ}
    (hf : ∀ a, Q a → ∀ c ∈ cs, Makes (f a c) Q) {a : α} (ha : Q a) : Makes (cs.foldlM f a) Q := by
  induction cs generalizing a with
  | nil => exact .pure ha
  | cons c cs ih =>
    rw [List.foldlM_cons]
    exact (hf a ha c List.mem_cons_self).bind fun a ha =>
      ih (fun a ha c hc => hf a ha c (List.mem_cons_of_mem _ hc)) ha

end Makes

variable {options : CompileSettings} {i : Nat} {e : OutlineEntry}

/-- A component adds at most one entry of the stash to a watch. -/
theorem addComponent_makes {w : Watch} (hw : w.entries = []) :
    Makes (addComponent options i e w) fun w => w.entries.length ≤ 1 := by
  unfold addComponent
  split
  · split
    · exact .after fun _ => .after fun _ => .pure (Watch.length_entries_add _ hw)
    · exact .after fun _ => .after fun _ => .after fun _ =>
        .pure (Watch.length_entries_add _ hw)
  · exact .after fun _ => .after fun _ => .pure (Watch.length_entries_add _ hw)
  · exact .pure (by simp [hw])

/-- The watch of a node renders one entry at most. -/
theorem watch_makes (builtIn : e.node.head.BuiltIn) :
    Makes (watch options i e) fun w => w.entries.length ≤ 1 := by
  unfold watch
  refine .after fun slot => .after fun _ => .after fun _ => .after fun shield => ?_
  refine Makes.bind (Q := fun w : Watch => w.entries = []) (.foldlM (fun w hw d hd => ?_) rfl) fun w hw => ?_
  · exact .after fun _ => .pure (Watch.entries_add_of_writes (builtIn d hd) hw)
  refine Makes.bind (Q := fun w : Watch => w.entries = []) (.foldlM (fun w hw d _ => ?_) hw) fun w hw => ?_
  · exact .after fun _ => .after fun _ => .pure (Watch.entries_add_of_writes trivial hw)
  refine Makes.bind (Q := fun w : Watch => w.entries = []) (.foldlM (fun w hw d _ => ?_) hw) fun w hw => ?_
  · exact .after fun _ => .pure (Watch.entries_add_of_writes trivial hw)
  exact addComponent_makes hw

/-- Every watch that the walk lays out is the watch of a node. -/
theorem watch_of_walked {o : Outline} (ho : o.Sound) (options : CompileSettings) :
    ∀ w ∈ (walked options o).watches,
      ∃ i e l, o[i]? = some e ∧ ((watch options i e).run l).1 = w := by
  refine (walked_induction (P := fun n l => l.Covers o n ∧ ∀ w ∈ l.watches,
    ∃ i e l, o[i]? = some e ∧ ((watch options i e).run l).1 = w) options o
    ⟨⟨.empty o, by simp, by simp⟩, by simp⟩ ?_).2
  rintro i e l hi ⟨hl, made⟩
  refine ⟨entry_covers ho options hi hl, ?_⟩
  rw [entry_eq]
  split
  · obtain ⟨-, grows, -⟩ := watch_completes ho options hi l hl.regular trivial
    have own := (⟨i, e, l, hi, rfl⟩ : ∃ i' e' l', o[i']? = some e' ∧
      ((watch options i' e').run l').1 = ((watch options i e).run l).1)
    rw [StateT.run_bind]
    generalize (watch options i e).run l = result at grows own ⊢
    obtain ⟨w, later⟩ := result
    show ∀ v ∈ ((take w).run later).2.watches, _
    have old : ∀ v ∈ later.watches,
        ∃ i e l, o[i]? = some e ∧ ((watch options i e).run l).1 = v := grows.watches ▸ made
    unfold take
    split
    · exact List.forall_mem_append.mpr ⟨old, List.forall_mem_singleton.mpr own⟩
    · exact old
  · exact made

end Lay

/-! ## Different entries -/

namespace Layout

variable {o : Outline} {n : Nat} {l : Layout} {i j : Nat} {a b : OutlineEntry}

/-- What an effect renders is the child or the repeater of its entry. -/
theorem Serves.rendered {t : Trigger} {f : Effect} {key : StashIndex} (h : l.Serves i a t f)
    (builtIn : a.node.head.BuiltIn) (hf : f.entry? = some key) :
    (∃ slot source startsDetached, l.Plans key (.child slot source startsDetached) ∧
      l.Owns slot i) ∨ l.Repeats i key := by
  cases h with
  | watch mem => rw [(builtIn _ mem).entry?_eq] at hf; cases hf
  | bind => cases hf
  | toggle => cases hf
  | child plans owns =>
    obtain rfl := Option.some.inj hf
    exact Or.inl ⟨_, _, _, plans, owns⟩
  | sequence _ repeats =>
    obtain rfl := Option.some.inj hf
    exact Or.inr repeats
  | keyed _ repeats =>
    obtain rfl := Option.some.inj hf
    exact Or.inr repeats

/-- An entry of the stash belongs to one entry of the outline. -/
theorem Regular.eq_of_rendered (h : l.Regular o n) {key : StashIndex}
    (hi : (∃ slot source b, l.Plans key (.child slot source b) ∧ l.Owns slot i) ∨ l.Repeats i key)
    (hj : (∃ slot source b, l.Plans key (.child slot source b) ∧ l.Owns slot j) ∨
      l.Repeats j key) : i = j := by
  -- The plan of a repeater is not that of a child.
  have different {i slot : Nat} {source : ChildSource} {b : Bool}
      (hc : l.Plans key (.child slot source b)) (hr : l.Repeats i key) : False := by
    obtain ⟨-, e, -, -, p, hp, repeater⟩ := h.repeats hr
    obtain rfl := Option.some.inj (hc.symm.trans hp)
    cases repeater
  rcases hi with ⟨slot, source, b, hc, owns⟩ | hi <;>
    rcases hj with ⟨slot', source', b', hc', owns'⟩ | hj
  · obtain ⟨rfl, -⟩ := StashPlan.child.inj (Option.some.inj (hc.symm.trans hc'))
    exact Option.some.inj (owns.symm.trans owns')
  · exact (different hc hj).elim
  · exact (different hc' hi).elim
  · exact congrArg Prod.fst (List.inj_on_of_nodup_map h.repeats_nodup.2 hi hj rfl)

end Layout

namespace Outline

/-- Two children of one node have different places in the markup. -/
theorem address_eq_of_place {root : Node} {i j : Nat} {a b : OutlineEntry} {parent : Nat}
    (hi : (ofRoot root)[i]? = some a) (hj : (ofRoot root)[j]? = some b)
    (ha : a.parent = some parent) (hb : b.parent = some parent)
    (ra : a.node.head.isRepeated = false) (rb : b.node.head.isRepeated = false)
    (place : a.siblingPlace = b.siblingPlace) : a.address = b.address := by
  -- A child that is not repeated adds one to the places of those after it.
  have later {above : OutlineEntry} {m n : Nat} {c d : OutlineEntry}
      (hc : ChildAt above m c) (hd : ChildAt above n d) (rc : c.node.head.isRepeated = false)
      (rd : d.node.head.isRepeated = false) (hmn : m < n) : c.siblingPlace ≠ d.siblingPlace := by
    rw [OutlineEntry.siblingPlace, OutlineEntry.siblingPlace, hc.place, hd.place, rc, rd]
    simp only [Bool.false_eq_true, if_false, List.getLast?_append, List.getLast?_singleton,
      Option.some_or, ne_eq, Option.some_inj]
    obtain ⟨k, rfl⟩ := Nat.exists_eq_add_of_lt hmn
    have split : above.node.children.take (m + k + 1) = above.node.children.take m ++
        c.node :: (above.node.children.drop (m + 1)).take k := by
      obtain ⟨hlt, hm⟩ := List.getElem?_eq_some_iff.mp hc.node
      rw [← hm, Nat.add_assoc, List.take_add, List.drop_eq_getElem_cons hlt, List.take_succ_cons]
    rw [split, markupCount, markupCount, List.countP_append, List.countP_cons, rc]
    simp
  rcases parent_ofRoot hi with ⟨-, rfl⟩ | ⟨p, -, above, m, hp, hpa, hca⟩
  · cases ha
  rcases parent_ofRoot hj with ⟨-, rfl⟩ | ⟨q, -, above', n, hq, hqb, hcb⟩
  · cases hb
  obtain rfl : p = parent := by simpa [ha] using hpa.symm
  obtain rfl : q = p := by simpa [hb] using hqb.symm
  obtain rfl := Option.some.inj (hp.symm.trans hq)
  rcases Nat.lt_trichotomy m n with h | rfl | h
  · exact absurd place (later hca hcb ra rb h)
  · rw [hca.address, hcb.address]
  · exact absurd place.symm (later hcb hca rb ra h)

end Outline

/-! ## Compiled templates -/

namespace Template

/-- Lookups run effects that write, every visit renders, each watch renders one entry at most, and the
watches are apart from each other. -/
structure Apart (t : Template) : Prop where
  writes : ∀ w ∈ t.watches, ∀ c ∈ w.callbacks, c.trigger ≠ .always → ∀ f ∈ c.effects, f.Writes
  renders : ∀ w ∈ t.watches, ∀ c ∈ w.callbacks, c.trigger = .always →
    ∀ f ∈ c.effects, f.entry?.isSome
  single : ∀ w ∈ t.watches, w.entries.length ≤ 1
  pairwise : t.watches.Pairwise Watch.Apart

/-- A compiled template of which users' watches only write is so. -/
theorem apart_of_compile {options : CompileSettings} {name : String} {root : Node} {t : Template}
    (h : compile options name root = .ok t) (builtIn : root.BuiltIn) : t.Apart := by
  have accepts := (accepts_of_compile h).1
  have sound := accepts.sound
  have covers := Lay.walked_covers sound options
  obtain ⟨regular, grows, -⟩ := Lay.finished_anchored sound options
  set walked := Lay.walked options (Outline.ofRoot root)
  have watches : t.watches = Watch.withSkips walked.watches := watches_of_compile h
  -- A watch is one of the walk, but for what it passes over.
  have walk {k : Nat} {w : Watch} (hk : t.watches[k]? = some w) : ∃ v, walked.watches[k]? = some v ∧
      w.callbacks = v.callbacks ∧ w.entries = v.entries ∧ w.place? = v.place? ∧
        w.address = v.address := by
    rw [watches, Watch.withSkips_eq, Option.map_eq_some_iff] at hk
    obtain ⟨v, hv, rfl⟩ := hk
    refine ⟨v, hv, rfl, rfl, ?_, rfl⟩
    unfold Watch.place? Watch.withSkip
    cases v.shield <;> rfl
  have mem {w : Watch} (hw : w ∈ t.watches) : ∃ v ∈ walked.watches, w.callbacks = v.callbacks ∧
      w.entries = v.entries := by
    obtain ⟨k, hk⟩ := List.getElem?_of_mem hw
    obtain ⟨v, hv, callbacks, entries, -⟩ := walk hk
    exact ⟨v, List.mem_of_getElem? hv, callbacks, entries⟩
  have builtIn' {i : Nat} {e : OutlineEntry} (hi : (Outline.ofRoot root)[i]? = some e) :
      e.node.head.BuiltIn := builtIn e (List.mem_of_getElem? hi)
  refine ⟨fun w hw c hc ht f hf => ?_, fun w hw c hc ht f hf => ?_, fun w hw => ?_, ?_⟩
  · obtain ⟨v, hv, callbacks, -⟩ := mem hw
    obtain ⟨i, -, e, hi, watched⟩ := covers.watches v hv
    have served := watched.effects c (callbacks ▸ hc) f hf
    generalize c.trigger = trigger at served ht
    cases served with
    | watch mem => exact builtIn' hi _ mem
    | bind | toggle => trivial
    | child | sequence | keyed => exact absurd rfl ht
  · obtain ⟨v, hv, callbacks, -⟩ := mem hw
    obtain ⟨i, -, e, hi, watched⟩ := covers.watches v hv
    have served := watched.effects c (callbacks ▸ hc) f hf
    rw [ht] at served
    cases served <;> rfl
  · obtain ⟨v, hv, -, entries⟩ := mem hw
    obtain ⟨i, e, l, hi, rfl⟩ := Lay.watch_of_walked sound options v hv
    rw [entries]
    exact Lay.watch_makes (builtIn' hi) l
  · rw [List.pairwise_iff_getElem]
    intro j k hj hk hjk
    obtain ⟨v, hv, -, ev, pv, av⟩ := walk (List.getElem?_eq_getElem hj)
    obtain ⟨w, hw, -, ew, pw, aw⟩ := walk (List.getElem?_eq_getElem hk)
    obtain ⟨i, -, a, hi, watched⟩ := covers.watches v (List.mem_of_getElem? hv)
    obtain ⟨i', -, b, hi', watched'⟩ := covers.watches w (List.mem_of_getElem? hw)
    have addresses : a.address ≠ b.address := by
      have := List.pairwise_iff_getElem.mp (ordered_of_compile h) j k (by simpa using hj)
        (by simpa using hk) hjk
      rw [List.getElem_map, List.getElem_map, av, aw, watched.address, watched'.address] at this
      intro he
      exact Address.order_self_ne_lt _ (he ▸ this)
    have visible {i : Nat} {e : OutlineEntry} {w : Watch} (hi : (Outline.ofRoot root)[i]? = some e)
        (watched : walked.Watches i e w) {p : StashIndex × Nat} (hp : p ∈ w.place?) :
        e.node.head.isRepeated = false ∧ ∃ plan, p = (plan.tracker, plan.position) ∧
          walked.Detaches e plan := by
      obtain ⟨plan, hplan, rfl⟩ := Option.map_eq_some_iff.mp hp
      obtain ⟨shield, hs, hd⟩ := Option.bind_eq_some_iff.mp hplan
      have shown := watched.visibility
      rw [hs, Option.isSome_some] at shown
      obtain ⟨visibility, hvis⟩ := Option.isSome_iff_exists.mp shown.symm
      refine ⟨Bool.eq_false_iff.mpr fun hr => ?_, plan, rfl,
        (watched.shield shield hs visibility hvis).detach plan hd⟩
      rw [(sound.repeated hi hr).2] at hvis
      cases hvis
    refine ⟨fun key hkey hkey' => ?_, fun p hp hp' => ?_⟩
    · -- The entry belongs to one node.
      have rendered {i : Nat} {e : OutlineEntry} {w : Watch}
          (hi : (Outline.ofRoot root)[i]? = some e) (watched : walked.Watches i e w)
          (hkey : key ∈ w.entries) : (∃ slot source b,
            walked.Plans key (.child slot source b) ∧ walked.Owns slot i) ∨
              walked.Repeats i key := by
        obtain ⟨c, hc, hkey⟩ := List.mem_flatMap.mp hkey
        obtain ⟨f, hf, hkey⟩ := List.mem_filterMap.mp hkey
        exact (watched.effects c hc f hf).rendered (builtIn' hi) hkey
      obtain rfl := covers.regular.eq_of_rendered (rendered hi watched (ev ▸ hkey))
        (rendered hi' watched' (ew ▸ hkey'))
      exact addresses (congrArg _ (Option.some.inj (hi.symm.trans hi')))
    · -- The tracker belongs to one parent, and the position to one of its children.
      obtain ⟨ra, plan, rfl, detaches⟩ := visible hi watched (pv ▸ hp)
      obtain ⟨rb, plan', he, detaches'⟩ := visible hi' watched' (pw ▸ hp')
      obtain ⟨tracker, position⟩ := Prod.mk.inj he
      obtain ⟨parent, hpa, -, tracks⟩ := detaches.parent
      obtain ⟨parent', hpb, -, tracks'⟩ := detaches'.parent
      obtain rfl : parent = parent' := congrArg Prod.fst
        (List.inj_on_of_nodup_map covers.regular.trackers_nodup tracks tracks' tracker)
      refine addresses (Outline.address_eq_of_place hi hi' hpa hpb ra rb ?_)
      rw [detaches.place, detaches'.place, position]

end Template

end ComponentView
