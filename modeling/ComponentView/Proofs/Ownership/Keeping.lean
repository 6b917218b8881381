import ComponentView.Proofs.Ownership.Rows

/-! # Computations that keep the order

As long as no instance has to stay as it is, a computation keeps the order (`Run.Keeps`) if its parts
do. It may also bring a new instance into hand (`Run.Brings`). An engine is orderly if it does either
whatever it is asked for (`Engine.Orderly`). -/

namespace ComponentView

/-! ## Keeping the order -/

/-- A frame in which nothing has to stay as it is stays so if nothing joins it. -/
theorem Frame.not_still_widen (frame : Frame) {w : World} (hs : ∀ i, ¬ frame.still i) (j : InstanceId) :
    ¬ (frame.widen w []).still j := by
  rintro (hj | ⟨k, hk, -⟩)
  · exact hs j hj
  · cases hk

/-- Who is held and who is in hand, in a frame in which no instance has to stay as it is. -/
structure Frame.Moving (lib : Library) where
  frame : Frame
  busy : List InstanceId
  hand : List InstanceId
  library : frame.library = lib
  moving : ∀ i, ¬ frame.still i

/-- There is order in the world, for these who are held and in hand. -/
def World.OrderlyIn {lib : Library} (k : Frame.Moving lib) : World → Prop :=
  World.Orderly k.frame k.busy k.hand

namespace Run

variable {α β γ : Type} {lib : Library}

/-- The computation keeps the order, while no instance has to stay as it is. -/
def Keeps (lib : Library) (x : Run α) : Prop :=
  Preserves (@World.OrderlyIn lib) (fun k => Failing (World.OrderlyIn k)) x

namespace Keeps

/-- Such a computation does so whoever is held and in hand. -/
theorem ends {x : Run α} (h : Keeps lib x) {frame : Frame} (busy hand : List InstanceId)
    (hl : frame.library = lib) (hs : ∀ i, ¬ frame.still i) :
    Ends (World.Orderly frame busy hand) x (fun _ => World.Orderly frame busy hand)
      (Failing (World.Orderly frame busy hand)) := h ⟨frame, busy, hand, hl, hs⟩

/-- A failure leaves the order as it is. -/
theorem fail {cause : Fault} : Keeps lib (fail cause : Run α) := fun _ => .fail

/-- Of a run that is given up nothing is said. -/
theorem giveUp {cause : Abort} : Keeps lib (giveUp cause : Run α) := fun _ => .giveUp

/-- Only the instances, the pools and the list of held instances matter. -/
theorem modifyGet {f : World → α × World} (h : ∀ w, (f w).2.instances = w.instances ∧
    (f w).2.pools = w.pools ∧ (f w).2.busy = w.busy) : Keeps lib (modifyGet f) :=
  Preserves.modifyGet fun _ w hw => World.Orderly.congr hw (h w).1 (h w).2.1 (h w).2.2

/-- Only the instances, the pools and the list of held instances matter. -/
theorem modify {f : World → World} (h : ∀ w, (f w).instances = w.instances ∧
    (f w).pools = w.pools ∧ (f w).busy = w.busy) : Keeps lib (modify f) :=
  Preserves.modify fun _ w hw => World.Orderly.congr hw (h w).1 (h w).2.1 (h w).2.2

/-- Writing into the log keeps the order. -/
theorem log (level : Level) (line : String) : Keeps lib (log level line) :=
  modify fun _ => ⟨rfl, rfl, rfl⟩

/-- Recording a value keeps the order. -/
theorem record (value : Value) : Keeps lib (record value) := modify fun _ => ⟨rfl, rfl, rfl⟩

/-- Looking at an instance keeps the order. -/
theorem look (i : InstanceId) : Keeps lib (look i) := fun _ =>
  (Ends.look (fun _ _ => .of_abort) fun _ _ => .of_abort).post fun _ _ h => h.2.2

/-- Asking for the root of an instance keeps the order. -/
theorem rootOf (i : InstanceId) : Keeps lib (rootOf i) := (look i).bind fun _ => .pure _

/-- Asking for a definition keeps the order. -/
theorem definition (other : Library) (id : DefinitionId) : Keeps lib (other.definition id) :=
  fun _ => (Ends.definition fun _ _ => .of_abort).post fun _ _ h => h.2

/-- An attempt goes on in order after a failure. -/
theorem attempt {x : Run α} (h : Keeps lib x) : Keeps lib (attempt x) :=
  fun k => (h k).attempt.post fun r w hw => by
    cases r with
    | ok a => exact hw.1 a rfl
    | error fault => exact hw.2 fault rfl fault rfl

section InHand

variable {frame : Frame} {busy hand : List InstanceId} {id : DefinitionId} {w : World} {x : Run α}

/-- What keeps the order changes no definition. -/
theorem since (h : Keeps lib x) (hl : frame.library = lib) (hs : ∀ i, ¬ frame.still i)
    (orderly : w.Orderly frame busy hand) :
    Ends (w = ·) x (fun _ later => later.Orderly frame busy hand ∧ World.Since [] w later)
      (Failing fun later => later.Orderly frame busy hand ∧ World.Since [] w later) :=
  (Ends.beside (Q := fun _ _ => True) (List.nil_subset _) orderly
    ((h ⟨frame.widen w [], busy, hand, hl, frame.not_still_widen hs⟩).post
      fun _ _ h => ⟨h, trivial⟩)).post fun _ _ h => ⟨h.1, h.2.1⟩

/-- What keeps the order keeps that of an instance of which the definition is known. -/
theorem known (h : Keeps lib x) (hl : frame.library = lib) (hs : ∀ i, ¬ frame.still i)
    {i : InstanceId} :
    Ends (fun w => w.Orderly frame busy hand ∧ w.definition? i = some id) x
      (fun _ w => w.Orderly frame busy hand ∧ w.definition? i = some id)
      (Failing (World.Orderly frame busy hand)) :=
  .pointwise fun _ hw => (h.since hl hs hw.1).mono (fun _ h => h)
    (fun _ _ h => ⟨h.1, h.2.grown hw.2⟩) fun _ _ h => h.mono And.left

/-- What keeps the order keeps that of the entries of a stash in hand. -/
theorem stocks (h : Keeps lib x) {items : List StashItem} (hl : frame.library = lib)
    (hs : ∀ i, ¬ frame.still i) (stocks : w.Stocks frame busy hand id items) :
    Ends (w = ·) x
      (fun _ later => later.Stocks frame busy hand id items ∧ World.Since [] w later)
      (Failing fun later => later.Stocks frame busy hand id items ∧ World.Since [] w later) :=
  (h.since hl hs stocks.orderly).mono (fun _ h => h)
    (fun _ _ h => ⟨stocks.after h.1 h.2, h.2⟩) fun _ _ h => h.mono fun h => ⟨stocks.after h.1 h.2, h.2⟩

/-- What keeps the order keeps that of rows in hand. -/
theorem rows (h : Keeps lib x) {rows : List InstanceId} (hl : frame.library = lib)
    (hs : ∀ i, ¬ frame.still i) :
    Ends (World.Rows frame busy hand id rows) x (fun _ => World.Rows frame busy hand id rows)
      (Failing (World.Rows frame busy hand id rows)) :=
  .pointwise fun _ rows => (h.since hl hs rows.orderly).mono (fun _ h => h)
    (fun _ _ h => rows.after h.1 h.2) fun _ _ h => h.mono fun h => rows.after h.1 h.2

end InHand

/-- An instance that is held may be worked on in order. -/
theorem hold {x : Holding Instance α} {i : InstanceId} (h : ∀ (frame : Frame)
    (busy hand : List InstanceId), frame.library = lib → (∀ i, ¬ frame.still i) →
      Ends (Instance.Housed frame busy hand i) x (fun _ => Instance.Housed frame busy hand i)
        (Failing (Instance.Housed frame busy hand i))) : Keeps lib (hold i x) :=
  fun ⟨frame, busy, hand, hl, hs⟩ =>
    (Ends.hold_housed (S := fun _ => True) (A := fun _ => True) (Q := fun _ _ => True)
      (fun _ => trivial) (hs i) ((h frame busy hand hl hs).mono (fun _ h => h.1)
        (fun _ _ h => ⟨h, trivial⟩) fun _ _ h => ⟨trivial, h⟩)).mono
      (fun _ h => ⟨h, fun _ _ => trivial⟩) (fun _ _ h => h.1) fun _ _ h => h.2

/-- Retiring an instance keeps the order. -/
theorem retire (mode : Retirement) (i : InstanceId) : Keeps lib (retire mode i) :=
  fun k => (retire_orderly mode i (k.moving i)).failing

end Keeps

end Run

/-! ## Bringing an instance into hand -/

/-- The computation brings an instance of a definition into hand, while no instance has to stay as it
is. -/
def Run.Brings (lib : Library) (id : DefinitionId) (x : Run InstanceId) : Prop :=
  ∀ (frame : Frame) (busy hand : List InstanceId), frame.library = lib → (∀ i, ¬ frame.still i) →
    Ends (World.Orderly frame busy hand) x
      (fun i w => w.Orderly frame busy (i :: hand) ∧ w.definition? i = some id)
      (Failing (World.Orderly frame busy hand))

namespace Run.Brings

variable {lib : Library} {id : DefinitionId} {x : Run InstanceId}

/-- An instance that nobody takes up is lost. -/
theorem keeps (h : Brings lib id x) : Keeps lib x := fun k =>
  (h k.frame k.busy k.hand k.library k.moving).post fun _ _ h => h.1.of_cons

/-- The instance comes into hand beside the entries of a stash. -/
theorem stocks (h : Brings lib id x) {frame : Frame} {busy hand : List InstanceId}
    {later : DefinitionId} {items : List StashItem} {w : World} (hl : frame.library = lib)
    (hs : ∀ i, ¬ frame.still i) (stocks : w.Stocks frame busy hand later items) :
    Ends (w = ·) x (fun i => World.Stocks frame busy (i :: hand) later items)
      (Failing (World.Stocks frame busy hand later items)) := by
  refine (Ends.beside (List.nil_subset _) stocks.orderly (h (frame.widen w []) busy _ hl
    (frame.not_still_widen hs))).mono (fun _ h => h) (fun i w' h => ?_)
    fun _ _ h => h.mono fun h => stocks.after h.1 h.2
  exact ⟨h.1.perm List.perm_middle, fun item hm => (stocks.ranks item hm).grows h.2.1.grown,
    stocks.aside⟩

/-- A new row comes beside the others. -/
theorem rows (h : Brings lib id x) {frame : Frame} {busy hand rows : List InstanceId}
    (hl : frame.library = lib) (hs : ∀ i, ¬ frame.still i) :
    Ends (World.Rows frame busy hand id rows) x
      (fun i => World.Rows frame busy hand id (rows ++ [i]))
      (Failing (World.Rows frame busy hand id rows)) := by
  refine .pointwise fun w rows => ?_
  refine (Ends.beside (List.nil_subset _) rows.orderly (h (frame.widen w []) busy _ hl
    (frame.not_still_widen hs))).mono (fun _ h => h) (fun i later h => ?_)
    fun _ _ h => h.mono fun h => rows.after h.1 h.2
  exact rows.join h.1 h.2.1 h.2.2 (hs i)

end Run.Brings

/-- Whatever is asked of the engine is done in order. -/
structure Engine.Orderly (engine : Engine) : Prop where
  render : ∀ i props controller, Run.Keeps engine.library (engine.render i props controller)
  acquire : ∀ id share props controller,
    Run.Brings engine.library id (engine.acquire id share props controller)
  dispatch : ∀ target name value, Run.Keeps engine.library (engine.dispatch target name value)
  publish : ∀ name value, Run.Keeps engine.library (engine.publish name value)

namespace Instance

variable {frame : Frame} {busy hand : List InstanceId} {i : InstanceId}

/-- What keeps the order outside keeps that of a held instance. -/
theorem Housed.outside {α : Type} {x : Run α} (h : Run.Keeps frame.library x)
    (hs : ∀ i, ¬ frame.still i) :
    Ends (Housed frame busy hand i) (Holding.outside x) (fun _ => Housed frame busy hand i)
      (Failing (Housed frame busy hand i)) := by
  refine .outside fun inst => .pointwise fun w housed => ?_
  have known {later : World} (h : later.Stocks frame (i :: busy) hand inst.definition inst.stash ∧
      World.Since [] w later) : Housed frame busy hand i ⟨inst, later⟩ :=
    ⟨h.1, housed.shaped, h.2.grown housed.definition⟩
  exact (h.stocks rfl hs housed.stocks).mono (fun _ h => h) (fun _ _ h => known h)
    fun _ _ h => h.mono known

end Instance

end ComponentView
