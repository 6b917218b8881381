import ComponentView.Session.State

/-! # Carrying out steps

Each step is carried out by the operation of the library that it names. -/

namespace ComponentView

/-! ## Views -/

/-- What can be seen of an instance. -/
def Instance.view (lib : Library) (i : Instance) : Run InstanceView := do
  let d ← lib.definition i.definition
  let children ← i.children.mapM fun child => do
    let inst ← Run.look child
    return ((← lib.definition inst.definition).name, inst.root, inst.mounted)
  return {
    definition := d.name, props := i.props, state := i.state, mounted := i.mounted, root := i.root
    controller := i.controller, children }

/-- What can be seen of a node. -/
def Document.view {L : Type} (d : Document L) (i : NodeId) : NodeView where
  kind := (d.node i).kind
  tag := d.tag? i
  parent := d.parent? i
  children := d.children i
  text := d.textContent i
  listeners := d.listenerCount i

/-- What can be seen of a repeater. -/
def Repeater.view : Repeater → Run RepeaterView
  | .sequential r => do
    let head ← r.head?.mapM Run.rootOf
    return { length := r.attached, head, roots := ← r.instances.mapM Run.rootOf, keys := none }
  | .keyed r => do
    let head ← r.head?.mapM Run.rootOf
    return { length := r.order.length, head, roots := ← r.inOrder.mapM Run.rootOf
             keys := some r.order }

/-- What can be seen of an observable. -/
def Observable.view (o : Observable) (w : World) : ObservableView where
  path := o.path
  value := w.read o
  changes := o.changes w

/-! ## Steps -/

open Work

/-- Carries out a step on an instance. -/
def InstanceStep.perform (engine : Engine) : InstanceStep → Work Reply
  | construct name definition props controller => do
    let i ← onWorld (Run.construct engine definition props controller)
    return .node (← nameInstance name i)
  | acquire name definition share props controller => do
    let i ← onWorld (Run.acquire engine definition share props controller)
    return .node (← nameInstance name i)
  | render target props controller =>
    return .stats (← holding target (Instance.render engine props controller))
  | update target => return .stats (← holding target (Instance.update engine))
  | updateWindow target start stop =>
    return .stats (← holding target (Instance.updateWindow engine start stop))
  | updatePart target part => return .stats (← holding target (Instance.updatePart engine part))
  | dismount target => do
    onWorld (Run.retire .dismount (← named Session.instances target))
    return .done
  | destroy target => do
    onWorld (Run.retire .destroy (← named Session.instances target))
    return .done
  | forget target => do
    modify fun s => { s with instances := s.instances.erase target }
    return .done
  | setState target value => do
    holding target (Holding.change fun i => { i with state := value })
    return .done
  | writeState target path value =>
    return .flag (← holding target (Handler.writeState path value))
  | describe target => do
    let (_, inst) ← instanceOf target
    return .instance (← onWorld (inst.view engine.library))
  | child target position name => do
    let (_, inst) ← instanceOf target
    match inst.children[position]? with
    | some i => return .maybeNode (some (← nameInstance name i))
    | none => return .maybeNode none
  | element target slot => do
    let (_, inst) ← instanceOf target
    return .maybeNode inst.elements[slot]?
  | reference target name => do
    let (_, inst) ← instanceOf target
    let d ← onWorld (engine.library.definition inst.definition)
    return .maybeNode ((d.template.ref? name).bind (inst.elements[·]?))

/-- Carries out a step on a pool. -/
def PoolStep.perform : PoolStep → Work Reply
  | size definition => return .pool ((← get).world.pool definition).length
  | release definition target => do
    let i ← named Session.instances target
    onWorld (Retire.giveBack Run.retire definition i)
    return .done
  | clear definition => do
    onWorld (Run.clearPool definition)
    return .done

/-- Makes a new node and names it. -/
def Work.newNode (name : String) (f : Document Listener → Document Listener × NodeId) :
    Work Reply := do
  let i ← onWorld (Run.newNode f)
  nameNode name i
  return .node i

/-- Carries out a step on a node. -/
def NodeStep.perform (engine : Engine) : NodeStep → Work Reply
  | createElement name tag => newNode name (·.createElement tag)
  | createText name content => newNode name (·.createText content)
  | instantiate name markup => newNode name (·.instantiate markup)
  | html markup => return .text markup.html
  | label name ref => do
    let i ← node ref
    nameNode name i
    return .node i
  | release ref => do
    let i ← node ref
    onDocument (·.release i)
    return .done
  | detach ref => do
    let i ← node ref
    onDocument (·.detach i)
    return .done
  | describe ref => do
    let i ← node ref
    return .describedNode ((← document).view i)
  | childAt ref position => do
    let i ← node ref
    return .maybeNode ((← document).child? i position)
  | getAttribute ref name => do
    let i ← node ref
    return .attribute ((← document).attribute? i name)
  | insertBefore parent ref reference => do
    let parent ← node parent
    let i ← node ref
    let reference ← maybeNode reference
    onDocument (·.insertBefore parent i reference)
    return .done
  | append parent ref => do
    let parent ← node parent
    let i ← node ref
    onDocument (·.append parent i)
    return .done
  | remove parent ref => do
    let parent ← node parent
    let i ← node ref
    onDocument (·.remove parent i)
    return .done
  | replace old ref => do
    let old ← node old
    let i ← node ref
    onDocument (·.replace old i)
    return .done
  | setAttribute ref name value => do
    let i ← node ref
    onDocument (·.setAttribute i name value)
    return .done
  | setStyle ref property value => do
    let i ← node ref
    onDocument (·.setStyle i property value)
    return .done
  | setText ref content => do
    let i ← node ref
    onDocument (·.setText i content)
    return .done
  | setClass ref name on => do
    let i ← node ref
    onDocument (·.setClass i name on)
    return .flag ((← document).hasClass i name)
  | listen ref event tag => do
    let i ← node ref
    onDocument (·.listen i event (.probe tag))
    return .done
  | dispatch ref event value => do
    let i ← node ref
    return .count (← onWorld (Run.dispatch engine i event value))

/-- Ends the mount of a handle. -/
def HeldMount.close (h : HeldMount) : Work Unit :=
  match h.mount with
  | some id => onWorld (Run.endMount id)
  | none => return

/-- Carries out a step on the document as a whole. -/
def DocumentStep.perform : DocumentStep → Work Reply
  | structural => return .count (← document).tally.structural
  | resetTally => do
    onDocument (·.resetTally)
    return .done
  | reset => do
    (← get).mounts.forM fun entry => entry.2.close
    onDocument fun _ => {}
    modify fun s => { library := s.library, world := s.world }
    return .done

/-- Carries out a step on a tracker. -/
def TrackerStep.perform : TrackerStep → Work Reply
  | create name detached => do
    modify fun s => { s with trackers := s.trackers.set name (.ofDetached detached) }
    return .done
  | offset target position => do
    let t ← named Session.trackers target
    return .offset (t.shift position).toInt (t.isAttached position) (t.shiftBefore position).toInt
  | apply target position parent ref visible => do
    let t ← named Session.trackers target
    let parent ← node parent
    let i ← node ref
    let (t, d, changed) := t.apply (← document) position parent i visible
    onDocument fun _ => d
    modify fun s => { s with trackers := s.trackers.set target t }
    return .flag changed

/-- Carries out a step on a repeater. -/
def RepeaterStep.perform (engine : Engine) : RepeaterStep → Work Reply
  | create name repeater => do
    modify fun s => { s with repeaters := s.repeaters.set name repeater }
    return .done
  | patch target container items anchor controller => do
    let container ← node container
    let anchor ← maybeNode anchor
    match ← named Session.repeaters target with
    | .sequential r =>
      beside r (Sequential.patch engine container anchor items controller)
        fun r s => { s with repeaters := s.repeaters.set target (.sequential r) }
    | .keyed r =>
      beside r (Keyed.patch engine container anchor items controller)
        fun r s => { s with repeaters := s.repeaters.set target (.keyed r) }
    view target
  | describe target => view target
  | take target position key name => do
    let i := match ← named Session.repeaters target with
      | .sequential r => r.instances[position]?
      | .keyed r => (ItemKey.ofValue? key).bind r.instance?
    match i with
    | some i => return .maybeNode (some (← nameInstance name i))
    | none => return .maybeNode none
where
  /-- What can be seen of a named repeater. -/
  view (target : String) : Work Reply := do
    return .repeater (← onWorld (← named Session.repeaters target).view)

/-- Carries out a step on an observable. Every named observable is published under its name. -/
def ObservableStep.perform (engine : Engine) : ObservableStep → Work Reply
  | create name value tracked => do
    let o ← onWorld (Observable.new value tracked)
    nameObservable name o
  | member name source steps => do
    nameObservable name ((← named Session.observables source).member steps)
  | read source => return .observable (← view source)
  | write source value => do
    let written ← onWorld ((← named Session.observables source).set engine value)
    return .written written (← view source)
  | push source item => do
    let written ← onWorld ((← named Session.observables source).push engine item)
    return .written written (← view source)
  | remove source position => do
    let item ← onWorld ((← named Session.observables source).remove engine position)
    return .removed item (← view source)
  | update source path value => do
    let o ← named Session.observables source
    let written ← onWorld (o.update engine fun v => v.set path value)
    return .updated written.isSome (written.getD false) (← view source)
where
  /-- What can be seen of a named observable. -/
  view (source : String) : Work ObservableView := do
    let o ← named Session.observables source
    return o.view (← get).world
  /-- Names an observable and publishes it. -/
  nameObservable (name : String) (o : Observable) : Work Reply := do
    modify fun s => { s with
      observables := s.observables.set name o
      world := { s.world with published := s.world.published.set name o } }
    return .observable (← view name)

/-- Carries out a step on a mount. A handle that loses its name to a new one is closed. -/
def MountStep.perform (engine : Engine) : MountStep → Work Reply
  | mount name target source => do
    let component ← named Session.instances target
    let o ← named Session.observables source
    let id ← onWorld (Run.mount engine component o)
    let root ← onWorld (Run.rootOf component)
    match (← get).mounts.get? name with
    | some old => old.close
    | none => pure ()
    modify fun s => { s with mounts := s.mounts.set name ⟨component, id⟩ }
    return .mounted id.isSome root
  | unmount handle => do
    let h ← named Session.mounts handle
    h.close
    onWorld (Run.retire .dismount h.component)
    modify fun s => { s with mounts := s.mounts.erase handle }
    return .done
  | drop handle => do
    (← named Session.mounts handle).close
    modify fun s => { s with mounts := s.mounts.erase handle }
    return .done

/-- Carries out a step. -/
def Step.perform (engine : Engine) : Step → Work Reply
  | onInstance step => step.perform engine
  | onPool step => step.perform
  | onNode step => step.perform engine
  | onDocument step => step.perform
  | onTracker step => step.perform
  | onRepeater step => step.perform engine
  | onObservable step => step.perform engine
  | onMount step => step.perform engine

end ComponentView
