import ComponentView.Proofs.Repeat.Tenants
import ComponentView.Proofs.Returns

/-! # Roots without a parent

The instances that a repeater holds but does not show, and the spare ones in the pool, have roots
without a parent (`World.Orphaned`). A run that does not edit the container may still put such a root
somewhere else, so a repeater by position asks of the runs of its rows that they do not
(`World.Kept`, `World.rule_kept`). -/

namespace ComponentView

/-- A definition has a pool, and the roots of its spare instances and of some others have no
parent. -/
structure World.Orphaned (id : DefinitionId) (loose : List InstanceId) (w : World) : Prop where
  pooled : id < w.pools.size
  orphan : ∀ i ∈ loose ++ w.pool id, ∀ root, w.root? i = some root → w.document.parent? root = none

variable {container : NodeId} {foreign : List NodeId} {id : DefinitionId}
  {rows loose : List InstanceId} {w later : World}

namespace World

namespace Orphaned

/-- Only the document, the instances and the pools matter. -/
theorem congr (h : w.Orphaned id loose) (document : later.document = w.document)
    (instances : later.instances = w.instances) (pools : later.pools = w.pools) :
    later.Orphaned id loose where
  pooled := pools ▸ h.pooled
  orphan i hi root hr := by
    rw [document]
    rw [World.root?, instances] at hr
    rw [World.pool, pools] at hi
    exact h.orphan i hi root hr

/-- Of fewer instances no less is said of the pool. -/
theorem mono (h : w.Orphaned id loose) {fewer : List InstanceId} (hs : fewer ⊆ loose) :
    w.Orphaned id fewer where
  pooled := h.pooled
  orphan i hi := h.orphan i ((List.mem_append.mp hi).elim
    (fun hi => List.mem_append_left _ (hs hi)) (List.mem_append_right _))

/-- The spare instance that was returned last is taken. -/
theorem pop (h : w.Orphaned id loose) {i : InstanceId} {rest : List InstanceId}
    (hp : w.pool id = i :: rest) : (w.setPool id rest).Orphaned id (loose ++ [i]) where
  pooled := by simpa [setPool] using h.pooled
  orphan j hj := by
    rw [pool_setPool_self h.pooled, List.append_assoc, List.singleton_append, ← hp] at hj
    exact h.orphan j hj

/-- The root of an instance that is not loose is put into the container. -/
theorem of_insertBefore (h : w.Orphaned id loose)
    (tenants : w.Tenants container foreign (rows ++ w.pool id)) (hs : loose ⊆ rows)
    {i : InstanceId} (hi : i ∈ rows) (hn : i ∉ loose) {root : NodeId} (hroot : w.root? i = some root)
    (reference : Option NodeId) :
    Orphaned id loose { w with document := w.document.insertBefore container root reference } where
  pooled := h.pooled
  orphan j hj x hx := by
    obtain ⟨-, root', hroot', inside⟩ := tenants.present i (List.mem_append_left _ hi)
    obtain rfl : root = root' := Option.some.inj (hroot.symm.trans hroot')
    have hx : w.root? j = some x := hx
    show (w.document.insertBefore container root reference).parent? x = none
    rw [Document.parent?_insertBefore inside, if_neg, h.orphan j hj x hx]
    rintro rfl
    have all : j ∈ rows ++ w.pool id := (List.mem_append.mp hj).elim
      (fun hj => List.mem_append_left _ (hs hj)) (List.mem_append_right _)
    obtain rfl := tenants.distinct i (List.mem_append_left _ hi) j all (hroot.trans hx.symm)
    rcases List.mem_append.mp hj with hj | hj
    · exact hn hj
    · exact (List.nodup_append.mp tenants.nodup).2.2 i hi i hj rfl

end Orphaned

/-- The rows and the spare instances are tenants, and after the first `attached` of the rows neither a
row nor a spare instance has a root with a parent. -/
structure Kept (container : NodeId) (foreign : List NodeId) (id : DefinitionId) (attached : Nat)
    (rows : List InstanceId) (w : World) : Prop where
  fits : attached ≤ rows.length
  stocked : w.Stocked container foreign id rows
  loose : w.Orphaned id (rows.drop attached)

/-- That they are kept so is a rule of the rows. -/
theorem rule_kept (container : NodeId) (foreign : List NodeId) (id : DefinitionId) (attached : Nat) :
    Rule container foreign id (Kept container foreign id attached) where
  stocked h := h.stocked
  congr h document instances pools busy :=
    ⟨h.fits, h.stocked.congr document instances pools busy, h.loose.congr document instances pools⟩
  pop h hp := by
    refine ⟨by simpa using Nat.le_succ_of_le h.fits, h.stocked.pop hp, ?_⟩
    rw [List.drop_append_of_le_length h.fits]
    exact h.loose.pop hp
  fewer h h' := by
    refine ⟨h.fits, h'.stocked.sublist (List.sublist_append_left ..), h'.loose.mono ?_⟩
    rw [List.drop_append_of_le_length h.fits]
    exact List.subset_append_left ..

end World

end ComponentView
