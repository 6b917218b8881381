import ComponentView.Document

/-! # Positions of detached nodes

A node that is not visible may leave its parent, and the nodes after it move up. A tracker remembers
which markup positions of one parent are detached at the moment, so that a node that comes back is
put at its position less the number of detached positions before it. -/

namespace ComponentView

/-- The detached positions of one parent, each once; all others are attached. -/
structure Tracker where
  detached : List Nat := []
  deriving DecidableEq, Inhabited, Repr

namespace Tracker

/-- A tracker of which some positions start detached. -/
def ofDetached (positions : List Nat) : Tracker := ⟨positions.eraseDups⟩

/-- Whether a position is attached. -/
def isAttached (t : Tracker) (position : Nat) : Bool := !t.detached.contains position

/-- What a position adds to the place of the nodes after it: one less if it is detached. -/
def shift (t : Tracker) (position : Nat) : Int32 := if t.isAttached position then 0 else -1

/-- What the positions before a position add to its place. -/
def shiftBefore (t : Tracker) (position : Nat) : Int32 :=
  -(Int32.ofNat (t.detached.filter (· < position)).length)

/-- Notes that a position is attached or detached. -/
def set (t : Tracker) (position : Nat) (attached : Bool) : Tracker :=
  if attached then ⟨t.detached.filter (· ≠ position)⟩
  else if t.detached.contains position then t
  else ⟨t.detached ++ [position]⟩

/-- The place of a position among the children that are there. -/
def place (t : Tracker) (position : Nat) : Nat :=
  (Int32.ofNat position + t.shiftBefore position).toInt.toNat

/-- Brings the node of a position into its parent or out of it, and whether that changed anything. A
position that is already as asked is left alone. -/
def apply {L : Type} (t : Tracker) (d : Document L) (position : Nat) (parent target : NodeId)
    (visible : Bool) : Tracker × Document L × Bool :=
  if t.isAttached position = visible then (t, d, false)
  else if visible then
    (t.set position true, d.insertBefore parent target (d.child? parent (t.place position)), true)
  else (t.set position false, d.remove parent target, true)

/-- A position that was just noted is as noted. -/
@[simp] theorem isAttached_set_self (t : Tracker) (position : Nat) (attached : Bool) :
    (t.set position attached).isAttached position = attached := by
  cases attached
  · by_cases h : t.detached.contains position <;> simp_all [set, isAttached]
  · simp [set, isAttached]

/-- Noting one position leaves the others as they are. -/
theorem isAttached_set_of_ne {position other : Nat} (h : other ≠ position) (t : Tracker)
    (attached : Bool) : (t.set position attached).isAttached other = t.isAttached other := by
  cases attached
  · by_cases hc : t.detached.contains position <;> simp_all [set, isAttached]
  · simp [set, isAttached, h]

end Tracker

end ComponentView
