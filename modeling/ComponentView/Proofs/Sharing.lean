import ComponentView.Value

/-! # Values that share their parts

Texts, lists and maps are not copied when a value is: they lie at places in memory that many values
refer to. What lies at one place is equal to itself, so a comparison may look at the places first
and go on only where they differ. It comes out as the comparison of the values does, whatever they
share (`Stored.equal_eq`): a value that is not a number equals itself at any depth, also where it
is met twice. Equality is symmetric (`Value.equal_comm`). -/

namespace ComponentView

/-! ## Symmetry -/

namespace Value

mutual
/-- Equality is symmetric. -/
theorem equal_comm : (a b : Value) → a.equal b = b.equal a
  | null, b => by cases b <;> rfl
  | bool _, b => by cases b <;> simp [equal, BEq.comm]
  | int n, b => by cases b <;> simp [equal, BEq.comm]
  | float x, b => by
    cases b with
    | float y => rw [equal, equal, Binary64.eq_comm, Bool.and_comm]
    | _ => simp [equal]
  | str _, b => by cases b <;> simp [equal, BEq.comm]
  | list as, b => by
    cases b with
    | list bs => exact equalItems_comm as bs
    | _ => rfl
  | map as, b => by
    cases b with
    | map bs => exact equalEntries_comm as bs
    | _ => rfl

/-- Equality of lists is symmetric. -/
theorem equalItems_comm : (as bs : List Value) → equalItems as bs = equalItems bs as
  | [], bs => by cases bs <;> rfl
  | a :: as, [] => rfl
  | a :: as, b :: bs => by rw [equalItems, equalItems, equal_comm a b, equalItems_comm as bs]

/-- Equality of maps is symmetric. -/
theorem equalEntries_comm : (as bs : List (String × Value)) →
    equalEntries as bs = equalEntries bs as
  | [], bs => by cases bs <;> rfl
  | (_, _) :: as, [] => rfl
  | (k, a) :: as, (l, b) :: bs => by
    rw [equalEntries, equalEntries, equal_comm a b, equalEntries_comm as bs, BEq.comm]
end

end Value

/-! ## Values in memory -/

/-- The place of a text, a list or a map in memory. -/
abbrev Location := Nat

/-- A value as it lies in memory. A text, a list and a map have a place there, which everything that
shares them refers to. -/
inductive Stored where
  | null
  | bool (b : Bool)
  | int (n : Int64)
  | float (x : Binary64)
  | str (place : Location) (s : String)
  | list (place : Location) (items : List Stored)
  | map (place : Location) (entries : List (String × Stored))

namespace Stored

mutual
/-- The value that is stored. -/
def value : Stored → Value
  | null => .null
  | bool b => .bool b
  | int n => .int n
  | float x => .float x
  | str _ s => .str s
  | list _ items => .list (values items)
  | map _ entries => .map (namedValues entries)

/-- The values of some stored ones. -/
def values : List Stored → List Value
  | [] => []
  | a :: rest => value a :: values rest

/-- The entries of a map with the values that are stored. -/
def namedValues : List (String × Stored) → List (String × Value)
  | [] => []
  | (name, a) :: rest => (name, value a) :: namedValues rest
end

mutual
/-- Equality that looks at places first: what lies at one place is equal without a look at it. -/
def equal : Stored → Stored → Bool
  | null, null => true
  | bool a, bool b => a == b
  | int a, int b => a == b
  | float a, float b => a.eq b || (a.isNaN && b.isNaN)
  | int a, float b => (Binary64.ofInt64 a).eq b
  | float a, int b => (Binary64.ofInt64 b).eq a
  | str p a, str q b => p == q || a == b
  | list p as, list q bs => p == q || equalItems as bs
  | map p as, map q bs => p == q || equalEntries as bs
  | _, _ => false

/-- Equality of lists of stored values, item by item. -/
def equalItems : List Stored → List Stored → Bool
  | [], [] => true
  | a :: as, b :: bs => equal a b && equalItems as bs
  | _, _ => false

/-- Equality of entries of maps, name by name and value by value. -/
def equalEntries : List (String × Stored) → List (String × Stored) → Bool
  | [], [] => true
  | (k, a) :: as, (l, b) :: bs => k == l && equal a b && equalEntries as bs
  | _, _ => false
end

mutual
/-- The value lies in a memory: at the place of each of its parts the memory has that part. -/
def LiesIn (memory : Location → Value) : Stored → Prop
  | str place s => memory place = .str s
  | list place items => memory place = .list (values items) ∧ AllLieIn memory items
  | map place entries => memory place = .map (namedValues entries) ∧ EntriesLieIn memory entries
  | _ => True

/-- All of some values lie in a memory. -/
def AllLieIn (memory : Location → Value) : List Stored → Prop
  | [] => True
  | a :: rest => LiesIn memory a ∧ AllLieIn memory rest

/-- The values of all entries lie in a memory. -/
def EntriesLieIn (memory : Location → Value) : List (String × Stored) → Prop
  | [] => True
  | (_, a) :: rest => LiesIn memory a ∧ EntriesLieIn memory rest
end

/-! ## The two comparisons -/

variable {memory : Location → Value} {a b : Stored}

/-- What lies at one place is equal; what lies at two is compared. -/
theorem placed_or {place other : Location} {v w : Value} {compared : Bool} (hv : memory place = v)
    (hw : memory other = w) (same : compared = v.equal w) :
    (place == other || compared) = v.equal w := by
  cases he : place == other with
  | false => exact same
  | true =>
    rw [eq_of_beq he, hw] at hv
    rw [hv, Value.equal_self, Bool.true_or]

mutual
/-- In one memory the look at the places decides nothing that a comparison would not. -/
theorem equal_eq : (a b : Stored) → a.LiesIn memory → b.LiesIn memory →
    a.equal b = a.value.equal b.value
  | null, b, _, _ => by cases b <;> rfl
  | bool _, b, _, _ => by cases b <;> rfl
  | int _, b, _, _ => by cases b <;> rfl
  | float _, b, _, _ => by cases b <;> rfl
  | str place s, b, ha, hb => by
    cases b with
    | str other t => exact placed_or ha hb rfl
    | _ => rfl
  | list place as, b, ha, hb => by
    cases b with
    | list other bs => exact placed_or ha.1 hb.1 (equalItems_eq as bs ha.2 hb.2)
    | _ => rfl
  | map place as, b, ha, hb => by
    cases b with
    | map other bs => exact placed_or ha.1 hb.1 (equalEntries_eq as bs ha.2 hb.2)
    | _ => rfl

/-- Stored lists are equal exactly if their values are. -/
theorem equalItems_eq : (as bs : List Stored) → AllLieIn memory as → AllLieIn memory bs →
    equalItems as bs = Value.equalItems (values as) (values bs)
  | [], bs, _, _ => by cases bs <;> rfl
  | _ :: _, [], _, _ => rfl
  | a :: as, b :: bs, ha, hb => by
    rw [equalItems, values, values, Value.equalItems, equal_eq a b ha.1 hb.1,
      equalItems_eq as bs ha.2 hb.2]

/-- Stored maps are equal exactly if their values are. -/
theorem equalEntries_eq : (as bs : List (String × Stored)) → EntriesLieIn memory as →
    EntriesLieIn memory bs →
    equalEntries as bs = Value.equalEntries (namedValues as) (namedValues bs)
  | [], bs, _, _ => by cases bs <;> rfl
  | (_, _) :: _, [], _, _ => rfl
  | (k, a) :: as, (l, b) :: bs, ha, hb => by
    rw [equalEntries, namedValues, namedValues, Value.equalEntries, equal_eq a b ha.1 hb.1,
      equalEntries_eq as bs ha.2 hb.2]
end

/-- Values in one memory compare by their places as they do without them, and either way round.
Without places every value equals itself, and equality is symmetric. -/
theorem comparison_of_stored (ha : a.LiesIn memory) (hb : b.LiesIn memory) (v w : Value) :
    a.equal b = (a.value == b.value) ∧ a.equal b = b.equal a ∧
      (v == v) = true ∧ (v == w) = (w == v) := by
  have compared := equal_eq a b ha hb
  refine ⟨compared, ?_, Value.equal_self v, Value.equal_comm v w⟩
  rw [compared, Value.equal_comm, ← equal_eq b a hb ha]

/-- A list with one item that is not a number. -/
def unread : Stored := list 0 [float .quietNaN]

/-- Two readings that share what was not read. -/
def readings (place : Location) (last : Stored) : Stored := list place [unread, last]

/-- The memory of two readings, the last of one an integer and of the other an equal floating point
number. -/
def readingsMemory : Location → Value
  | 0 => .list [.float .quietNaN]
  | 1 => .list [.list [.float .quietNaN], .int 3]
  | _ => .list [.list [.float .quietNaN], .float ⟨0x4008000000000000⟩]

/-- The readings are equal, by places and without. -/
theorem comparison_of_readings :
    let whole := readings 1 (.int 3)
    let broken := readings 2 (.float ⟨0x4008000000000000⟩)
    whole.LiesIn readingsMemory ∧ broken.LiesIn readingsMemory ∧
      (whole.value == broken.value) = true ∧ whole.equal broken = true ∧
      broken.equal whole = true ∧ (unread.value == unread.value) = true := by
  intro whole broken
  have hw : whole.LiesIn readingsMemory := ⟨rfl, ⟨rfl, trivial, trivial⟩, trivial, trivial⟩
  have hb : broken.LiesIn readingsMemory := ⟨rfl, ⟨rfl, trivial, trivial⟩, trivial, trivial⟩
  obtain ⟨compared, symmetric, same, -⟩ := comparison_of_stored hw hb unread.value unread.value
  have equal : (whole.value == broken.value) = true := by decide +kernel
  exact ⟨hw, hb, equal, compared.trans equal, symmetric.symm.trans (compared.trans equal), same⟩

end Stored

end ComponentView
