import ComponentView.Markup

/-! # The document

The document holds the nodes that are on show: elements and texts, each with its parent, its
children, its attributes and its listeners. Nodes are named by index. A released node is no longer
live; its index waits on a free list and the next new node takes the index that was released last.
The document counts the changes made to it, so that a reader can tell how much work an update was.

Everything is read through `Document.node` and changed through `Document.update` and `Document.push`;
`node_update` and `node_push` say how they fit. -/

namespace ComponentView

/-- The index of a node in the document. -/
abbrev NodeId := Nat

/-- What a live node is. -/
inductive DocKind where
  | element (tag : String)
  | text
  deriving DecidableEq, Inhabited, Repr

/-- What the document keeps under one index, read together. A node without a kind is not live. -/
structure DocNode (L : Type) where
  kind : Option DocKind := none
  parent : Option NodeId := none
  children : List NodeId := []
  attributes : Attributes := []
  text : String := ""
  /-- The listeners of the node with their events, in the order in which they were added. -/
  listeners : List (String × L) := []

/-- How many changes of each sort were made. -/
structure Tally where
  inserts : Nat := 0
  appends : Nat := 0
  removes : Nat := 0
  attributeWrites : Nat := 0
  textWrites : Nat := 0
  deriving DecidableEq, Inhabited, Repr

/-- The changes that move nodes. -/
def Tally.structural (t : Tally) : Nat := t.inserts + t.appends + t.removes

/-- Arrays without entries are over the same indices. -/
theorem Document.aligned_nothing {L : Type} :
    (#[] : Array (Option NodeId)).size = (#[] : Array (Option DocKind)).size ∧
    (#[] : Array (List NodeId)).size = (#[] : Array (Option DocKind)).size ∧
    (#[] : Array Attributes).size = (#[] : Array (Option DocKind)).size ∧
    (#[] : Array String).size = (#[] : Array (Option DocKind)).size ∧
    (#[] : Array (List (String × L))).size = (#[] : Array (Option DocKind)).size :=
  ⟨rfl, rfl, rfl, rfl, rfl⟩

/-- What is kept of the nodes, each part in an array of its own; the indices that can be used again, the
last released first; and the changes made. -/
structure Document (L : Type) where
  kinds : Array (Option DocKind) := #[]
  parents : Array (Option NodeId) := #[]
  childLists : Array (List NodeId) := #[]
  attributeLists : Array Attributes := #[]
  texts : Array String := #[]
  listenerLists : Array (List (String × L)) := #[]
  free : List NodeId := []
  tally : Tally := {}
  /-- All that is kept is kept for the same indices. -/
  aligned : parents.size = kinds.size ∧ childLists.size = kinds.size ∧
    attributeLists.size = kinds.size ∧ texts.size = kinds.size ∧
    listenerLists.size = kinds.size := by exact Document.aligned_nothing

namespace Document

variable {L : Type}

instance : Inhabited (Document L) := ⟨{}⟩

/-! ## Reading and changing one node -/

/-- The number of indices that have been used. -/
def size (d : Document L) : Nat := d.kinds.size

/-- No index has been used at the start. -/
@[simp] theorem size_empty : ({} : Document L).size = 0 := rfl

/-- The node at an index; an index never used holds a node that is not live. -/
def node (d : Document L) (i : NodeId) : DocNode L where
  kind := d.kinds[i]?.getD none
  parent := d.parents[i]?.getD none
  children := d.childLists[i]?.getD []
  attributes := d.attributeLists[i]?.getD []
  text := d.texts[i]?.getD ""
  listeners := d.listenerLists[i]?.getD []

/-- Changes the node at an index. -/
def update (d : Document L) (i : NodeId) (f : DocNode L → DocNode L) : Document L :=
  let n := f (d.node i)
  { d with
    kinds := d.kinds.setIfInBounds i n.kind
    parents := d.parents.setIfInBounds i n.parent
    childLists := d.childLists.setIfInBounds i n.children
    attributeLists := d.attributeLists.setIfInBounds i n.attributes
    texts := d.texts.setIfInBounds i n.text
    listenerLists := d.listenerLists.setIfInBounds i n.listeners
    aligned := by simpa using d.aligned }

/-- Puts a node under the next index. -/
def push (d : Document L) (n : DocNode L) : Document L :=
  { d with
    kinds := d.kinds.push n.kind
    parents := d.parents.push n.parent
    childLists := d.childLists.push n.children
    attributeLists := d.attributeLists.push n.attributes
    texts := d.texts.push n.text
    listenerLists := d.listenerLists.push n.listeners
    aligned := by simpa using d.aligned }

/-- Counts changes. -/
def count (d : Document L) (f : Tally → Tally) : Document L := { d with tally := f d.tally }

/-- An index never used holds a node that is not live and has nothing. -/
theorem node_of_size_le {d : Document L} {i : NodeId} (h : d.size ≤ i) : d.node i = {} := by
  obtain ⟨parents, childLists, attributeLists, texts, listenerLists⟩ := d.aligned
  unfold size at h
  simp only [node, Array.getElem?_eq_none h, Array.getElem?_eq_none (parents ▸ h),
    Array.getElem?_eq_none (childLists ▸ h), Array.getElem?_eq_none (attributeLists ▸ h),
    Array.getElem?_eq_none (texts ▸ h), Array.getElem?_eq_none (listenerLists ▸ h),
    Option.getD_none]

/-- Changing one node leaves the others as they are. -/
theorem node_update (d : Document L) (i j : NodeId) (f : DocNode L → DocNode L) :
    (d.update i f).node j = if i = j ∧ i < d.size then f (d.node j) else d.node j := by
  obtain ⟨parents, childLists, attributeLists, texts, listenerLists⟩ := d.aligned
  by_cases he : i = j
  · subst he
    by_cases hi : i < d.size
    · have hk : i < d.kinds.size := hi
      simp [node, update, hi, hk, parents, childLists, attributeLists, texts, listenerLists]
    · have hk : ¬ i < d.kinds.size := hi
      rw [if_neg fun h => hi h.2]
      simp [node, update, hk, parents, childLists, attributeLists, texts, listenerLists]
  · rw [if_neg fun h => he h.1]
    simp [node, update, Array.getElem?_setIfInBounds_ne he]

/-- A node under the next index leaves the others as they are. -/
theorem node_push (d : Document L) (n : DocNode L) (j : NodeId) :
    (d.push n).node j = if j = d.size then n else d.node j := by
  obtain ⟨parents, childLists, attributeLists, texts, listenerLists⟩ := d.aligned
  by_cases hj : j = d.kinds.size <;>
    simp only [node, push, size, Array.getElem?_push, parents, childLists, attributeLists, texts,
      listenerLists, hj, if_true, if_false, Option.getD_some]

/-- Counting changes no node. -/
@[simp] theorem node_count (d : Document L) (f : Tally → Tally) (i : NodeId) :
    (d.count f).node i = d.node i := rfl

/-- Changing a node makes no new index. -/
@[simp] theorem size_update (d : Document L) (i : NodeId) (f : DocNode L → DocNode L) :
    (d.update i f).size = d.size := Array.size_setIfInBounds

/-- A node under the next index makes one new index. -/
@[simp] theorem size_push (d : Document L) (n : DocNode L) : (d.push n).size = d.size + 1 :=
  Array.size_push ..

/-- A node under the next index frees nothing. -/
@[simp] theorem free_push (d : Document L) (n : DocNode L) : (d.push n).free = d.free := rfl

/-! ## Questions -/

/-- Whether there is a node at an index. -/
def isLive (d : Document L) (i : NodeId) : Bool := (d.node i).kind.isSome

/-- The number of live nodes. -/
def liveCount (d : Document L) : Nat := (d.kinds.toList.filter Option.isSome).length

/-- The tag of an element. -/
def tag? (d : Document L) (i : NodeId) : Option String :=
  match (d.node i).kind with
  | some (.element tag) => some tag
  | _ => none

/-- The parent of a node. -/
def parent? (d : Document L) (i : NodeId) : Option NodeId := (d.node i).parent

/-- The children of a node, in order. -/
def children (d : Document L) (i : NodeId) : List NodeId := (d.node i).children

/-- The child at a position. -/
def child? (d : Document L) (i position : Nat) : Option NodeId := (d.children i)[position]?

/-- The node that a path of child positions leads to. -/
def descend (d : Document L) (i : NodeId) : List Nat → Option NodeId
  | [] => some i
  | position :: rest => (d.child? i position).bind fun child => d.descend child rest

/-- The value of an attribute. -/
def attribute? (d : Document L) (i : NodeId) (name : String) : Option String :=
  (d.node i).attributes.lookup name

/-! ## New and released nodes -/

/-- A new node without parent, children or attributes. -/
def allocate (d : Document L) (kind : DocKind) (text : String) : Document L × NodeId :=
  match d.free with
  | i :: rest =>
    ({ d with free := rest }.update i fun n => { kind, text, listeners := n.listeners }, i)
  | [] => (d.push { kind, text }, d.size)

/-- Where no index waits a new node takes the next one. -/
theorem allocate_of_nil {d : Document L} (h : d.free = []) (kind : DocKind) (text : String) :
    d.allocate kind text = (d.push { kind, text }, d.size) := by
  unfold allocate
  rw [h]

/-- Otherwise it takes the index that was released last. -/
theorem allocate_of_cons {d : Document L} {i : NodeId} {rest : List NodeId} (h : d.free = i :: rest)
    (kind : DocKind) (text : String) : d.allocate kind text =
      ({ d with free := rest }.update i fun n => { kind, text, listeners := n.listeners }, i) := by
  unfold allocate
  rw [h]

/-- A new element. -/
def createElement (d : Document L) (tag : String) : Document L × NodeId :=
  d.allocate (.element tag) ""

/-- A new text. -/
def createText (d : Document L) (content : String) : Document L × NodeId :=
  d.allocate .text content

mutual
/-- A copy of some markup as new nodes; an element comes before its children. -/
def instantiate (d : Document L) : Markup → Document L × NodeId
  | .text content => d.createText content
  | .element tag attributes children =>
    let (d, i) := d.createElement tag
    let d := d.update i fun n => { n with attributes }
    let (d, kids) := d.instantiateAll children
    let d := kids.foldl (fun d kid => d.update kid fun n => { n with parent := some i }) d
    (d.update i fun n => { n with children := kids }, i)

/-- Copies of some trees, in order. -/
def instantiateAll (d : Document L) : List Markup → Document L × List NodeId
  | [] => (d, [])
  | m :: rest =>
    let (d, i) := d.instantiate m
    let (d, kids) := d.instantiateAll rest
    (d, i :: kids)
end

/-- The number of links from parents to children, which bounds the depth of every tree. -/
def linkCount (d : Document L) : Nat :=
  d.childLists.toList.foldl (fun n kids => n + kids.length) 0

/-- Releases a node and everything below it, the children first; trees deeper than `depth` keep
their lowest nodes. -/
def releaseWithin : (depth : Nat) → Document L → NodeId → Document L
  | 0, d, _ => d
  | depth + 1, d, i =>
    let kids := d.children i
    let d := d.update i fun n => { n with children := [] }
    let d := kids.foldl (releaseWithin depth) d
    let d := d.update i fun _ => {}
    { d with free := i :: d.free }

/-- Takes a node out of the children of a parent. -/
def unlink (d : Document L) (parent i : NodeId) : Document L :=
  (d.update parent fun n => { n with children := n.children.filter (· ≠ i) }).update i
    fun n => { n with parent := none }

/-- Takes a node out of its parent and releases it with everything below it. -/
def release (d : Document L) (i : NodeId) : Document L :=
  if d.isLive i then
    let d := match d.parent? i with
      | some parent => d.unlink parent i
      | none => d
    releaseWithin (d.linkCount + 1) d i
  else d

/-! ## Moving nodes -/

/-- A list with a node put before the first occurrence of another, or at the end. -/
def placeBefore (i : NodeId) (reference : Option NodeId) : List NodeId → List NodeId
  | [] => [i]
  | kid :: rest =>
    if reference = some kid then i :: kid :: rest else kid :: placeBefore i reference rest

/-- Puts a node into a parent before a child of that parent, or at the end if there is no such
child. A node that is somewhere else leaves it first. -/
def insertBefore (d : Document L) (parent i : NodeId) (reference : Option NodeId) : Document L :=
  let d := match d.parent? i with
    | some old => d.unlink old i
    | none => d
  let d := d.update parent fun n => { n with children := placeBefore i reference n.children }
  let d := d.update i fun n => { n with parent := some parent }
  d.count fun t =>
    if reference.isNone then { t with appends := t.appends + 1 }
    else { t with inserts := t.inserts + 1 }

/-- Puts a node at the end of a parent. -/
def append (d : Document L) (parent i : NodeId) : Document L := d.insertBefore parent i none

/-- Takes a node out of a parent, if it is there. -/
def remove (d : Document L) (parent i : NodeId) : Document L :=
  if d.parent? i = some parent then
    (d.unlink parent i).count fun t => { t with removes := t.removes + 1 }
  else d

/-- Takes a node out of whatever parent it has. -/
def detach (d : Document L) (i : NodeId) : Document L :=
  match d.parent? i with
  | some parent => d.remove parent i
  | none => d

/-- Puts a node where another one is; the other one ends up without a parent. -/
def replace (d : Document L) (old i : NodeId) : Document L :=
  match d.parent? old with
  | some parent => (d.insertBefore parent i (some old)).remove parent old
  | none => d

/-! ## Listeners -/

/-- Adds a listener to a node. -/
def listen (d : Document L) (i : NodeId) (event : String) (listener : L) : Document L :=
  d.update i fun n => { n with listeners := n.listeners ++ [(event, listener)] }

/-- The listeners of a node for an event, in order. -/
def listenersFor (d : Document L) (i : NodeId) (event : String) : List L :=
  ((d.node i).listeners.filter (·.1 = event)).map (·.2)

/-- The number of listeners of a node. -/
def listenerCount (d : Document L) (i : NodeId) : Nat := (d.node i).listeners.length

/-- The same document with nothing counted. -/
def resetTally (d : Document L) : Document L := { d with tally := {} }

end Document

end ComponentView
