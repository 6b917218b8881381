import ComponentView.Proofs.Repeat.Orphans

/-! # Checking that runs are quiet

What is asked of the runs of a patch can be computed where the rows hold no instances of their own:
each of the checks below evaluates one of the conditions, and its `_sound` lemma says so. -/

namespace ComponentView

namespace World

variable {container : NodeId} {foreign : List NodeId} {id : DefinitionId} {attached : Nat}
  {rows : List InstanceId} {w later : World}

/-- The nodes below a node, down to a depth. -/
def span (d : Document Listener) : (depth : Nat) → NodeId → List NodeId
  | 0, root => [root]
  | depth + 1, root => root :: (d.children root).flatMap (span d depth)

/-- Whether the instance can be a row beside the others: it is there and not held, it holds nothing,
its nodes are neither the container nor foreign ones, and the root of another row is none of them. -/
def lodges (container : NodeId) (foreign : List NodeId) (rows : List InstanceId) (w : World)
    (i : InstanceId) : Bool :=
  match w.instances[i]? with
  | none => false
  | some inst =>
    let nodes := span w.document w.document.size inst.root
    !w.busy.contains i && inst.held.isEmpty && decide (inst.root < w.document.size) &&
      nodes.all fun n => n ≠ container && (w.document.children n).all nodes.contains &&
        !foreign.contains n && rows.all fun k => k = i || w.root? k != some n

/-- Whether the rows and the spare instances are stocked. -/
def stocked? (container : NodeId) (foreign : List NodeId) (id : DefinitionId)
    (rows : List InstanceId) (w : World) : Bool :=
  decide (rows ++ w.pool id).Nodup &&
    (rows ++ w.pool id).all (lodges container foreign (rows ++ w.pool id) w) &&
    (w.pool id).all fun i => (w.root? i).all fun root =>
      !(w.document.children container).contains root

/-- Whether the rows and the spare instances are kept as a repeater by position keeps them. -/
def kept? (container : NodeId) (foreign : List NodeId) (id : DefinitionId) (attached : Nat)
    (rows : List InstanceId) (w : World) : Bool :=
  decide (attached ≤ rows.length) && stocked? container foreign id rows w &&
    decide (id < w.pools.size) && (rows.drop attached ++ w.pool id).all fun i =>
      (w.root? i).all fun root => (w.document.parent? root).isNone

/-- Whether the container and the roots of the rows are as they were. -/
def undisturbed? (container : NodeId) (rows : List InstanceId) (w later : World) : Bool :=
  later.document.children container == w.document.children container &&
    (List.range later.document.size).all (fun c =>
      (later.document.parent? c == some container) == (w.document.parent? c == some container)) &&
    decide (w.document.size ≤ later.document.size) && later.busy == w.busy &&
    rows.all fun i => later.root? i == w.root? i

end World

namespace Engine

variable {below : Engine} {container : NodeId} {id : DefinitionId}
  {S : List InstanceId → World → Prop} {check : List InstanceId → World → Bool}
  {rows : List InstanceId} {w : World}

/-- Whether the render of a row is quiet. -/
def rendersQuietly? (below : Engine) (container : NodeId) (check : List InstanceId → World → Bool)
    (rows : List InstanceId) (i : InstanceId) (props : Value) (controller : Controller) (w : World) :
    Bool :=
  match Run.hold i (Instance.render below props controller) w with
  | .ok _ later | .error (.fault _) later =>
    World.undisturbed? container rows w later && check rows later
  | .error (.abort _) _ => true

/-- Whether the construction of an instance is quiet. -/
def makesQuietly? (below : Engine) (container : NodeId) (id : DefinitionId)
    (check : List InstanceId → World → Bool) (rows : List InstanceId) (props : Value)
    (controller : Controller) (w : World) : Bool :=
  match Run.construct below id props controller w with
  | .ok i later =>
    World.undisturbed? container rows w later && check (rows ++ [i]) later &&
      (later.root? i).all fun root => !(later.document.children container).contains root
  | .error (.fault _) later => World.undisturbed? container rows w later && check rows later
  | .error (.abort _) _ => true

/-- Whether what is done for an item is quiet. -/
def servesQuietly? (below : Engine) (container : NodeId) (id : DefinitionId)
    (check : List InstanceId → World → Bool) (share : Bool) (rows : List InstanceId)
    (there : Option InstanceId) (props : Value) (controller : Controller) (w : World) : Bool :=
  match there with
  | some i => rendersQuietly? below container check rows i props controller w
  | none =>
    match below.library[id]? with
    | none => true
    | some d =>
      match share, w.pool id with
      | true, i :: rest =>
        rendersQuietly? below container check (rows ++ [i]) i props controller
          ((w.setPool id rest).logged (d.name ++ ": reusing pooled instance"))
      | _, _ =>
        makesQuietly? below container id check rows props controller
          (w.logged (d.name ++ ": constructing instance"))

end Engine

end ComponentView
