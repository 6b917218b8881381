import ComponentView.Proofs.Retirement
import ComponentView.Repeat.Keyed

/-! # Blocks of siblings

The roots of a repeater stand among the children of its container as one block. A node is put into
its place by naming the node that comes after it (`Document.placeBefore_head?`), and pulling a key
forward in the order is taking its root out and putting it back there
(`Keyed.filterMap_pullForward`). -/

namespace ComponentView

namespace Document

/-- A node put before what comes first in the second part stands between the two parts. -/
theorem placeBefore_head? {xs ys : List NodeId} (h : (xs ++ ys).Nodup) (i : NodeId) :
    placeBefore i ys.head? (xs ++ ys) = xs ++ i :: ys := by
  induction xs with
  | nil => cases ys <;> simp [placeBefore]
  | cons x xs ih =>
    rw [List.cons_append, List.nodup_cons] at h
    have hx : ys.head? ≠ some x := fun hh =>
      h.1 (List.mem_append_right _ (List.mem_of_head? hh))
    rw [List.cons_append, placeBefore, if_neg hx, ih h.2, List.cons_append]

end Document

namespace Keyed

variable {order : List ItemKey} {key : ItemKey} {position : Nat}

/-- The keys before the position stay, and the key comes next. -/
theorem take_pullForward (h : position ≤ order.length) :
    (pullForward key position order).take (position + 1) = order.take position ++ [key] := by
  rw [pullForward, List.take_append, List.take_of_length_le (by rw [List.length_take]; omega)]
  simp [Nat.min_eq_left h]

/-- No key is lost, and none comes in but the one that is pulled forward. -/
theorem mem_pullForward {k : ItemKey} :
    k ∈ pullForward key position order ↔ k = key ∨ k ∈ order := by
  rw [pullForward, List.mem_append, List.mem_cons]
  by_cases hk : k = key
  · simp [hk]
  · rw [List.mem_erase_of_ne hk]
    conv_rhs => rw [← List.take_append_drop position order, List.mem_append]
    simp [hk]

/-- Every key still stands once. -/
theorem nodup_pullForward (h : order.Nodup) (hk : key ∉ order.take position) :
    (pullForward key position order).Nodup := by
  rw [← List.take_append_drop position order, List.nodup_append] at h
  rw [pullForward, List.nodup_append, List.nodup_cons]
  refine ⟨h.1, ⟨?_, h.2.1.erase key⟩, fun a ha b hb => ?_⟩
  · exact fun hm => ((List.Nodup.mem_erase_iff h.2.1).mp hm).1 rfl
  · rcases List.mem_cons.mp hb with rfl | hb
    · rintro rfl
      exact hk ha
    · exact h.2.2 a ha b (List.mem_of_mem_erase hb)

/-- A key that stands at its position is not moved. -/
theorem pullForward_self (h : order[position]? = some key) :
    pullForward key position order = order := by
  obtain ⟨hlt, hk⟩ := List.getElem?_eq_some_iff.mp h
  rw [pullForward, List.drop_eq_getElem_cons hlt, hk, List.erase_cons_head, ← hk,
    ← List.drop_eq_getElem_cons hlt, List.take_append_drop]

/-- The roots of the keys without one are the roots without its root. -/
theorem filterMap_erase {f : ItemKey → Option NodeId} {root : NodeId} (h : order.Nodup)
    (hroot : f key = some root) (hf : ∀ k ∈ order, f k = some root → k = key) :
    (order.erase key).filterMap f = (order.filterMap f).filter (· ≠ root) := by
  rw [h.erase_eq_filter, List.filterMap_filter, List.filter_filterMap]
  refine List.filterMap_congr fun k hk => ?_
  by_cases hkk : k = key
  · subst hkk
    simp [hroot, Option.filter]
  · have : f k ≠ some root := fun hr => hkk (hf k hk hr)
    cases hk' : f k with
    | none => simp [hkk]
    | some x =>
      rw [hk'] at this
      simp_all [Option.filter]

end Keyed

end ComponentView
