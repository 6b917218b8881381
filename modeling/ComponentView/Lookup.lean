import ComponentView.Expr.Eval

/-! # Lookups

A component evaluates each of its distinct expressions at most once per pass. The lookup table gives
every distinct expression one key, the position of its first use, and keeps the compiled function of
the expression there. A memo keeps the values that a pass has asked for so far.

A table is three containers side by side: the expressions, their functions, and the map from an
expression to its key. `LookupTable.Aligned` says that they belong together, which `intern`
preserves (`LookupTable.grows_intern`). -/

namespace ComponentView

/-- The position of an expression in a lookup table. -/
abbrev LookupKey := Nat

/-- A compiled expression: what gives its value in a scope. -/
abbrev LookupFn := Scope → Traced Value

/-- The function of an expression. -/
def Expr.compiled (e : Expr) : LookupFn := fun scope => e.eval scope

/-- The distinct expressions of a component, in the order of their first use, the function of each,
and the key of each. -/
structure LookupTable where
  exprs : List Expr := []
  functions : List LookupFn := []
  keys : List (Expr × LookupKey) := []
  deriving Inhabited

namespace LookupTable

/-- The number of distinct expressions. -/
def size (t : LookupTable) : Nat := t.exprs.length

/-- The key of an expression, which joins the table with its function at its first use. -/
def intern (t : LookupTable) (e : Expr) : LookupTable × LookupKey :=
  match t.keys.lookup e with
  | some key => (t, key)
  | none =>
    ({ exprs := t.exprs ++ [e], functions := t.functions ++ [e.compiled],
       keys := (e, t.exprs.length) :: t.keys }, t.exprs.length)

/-- The keys of several expressions, interned one after another. -/
def internAll (t : LookupTable) : List Expr → LookupTable × List LookupKey
  | [] => (t, [])
  | e :: rest =>
    let (t, key) := t.intern e
    let (t, keys) := t.internAll rest
    (t, key :: keys)

/-- The expression of a key. -/
def expr? (t : LookupTable) (key : LookupKey) : Option Expr := t.exprs[key]?

/-- The function of a key. -/
def function? (t : LookupTable) (key : LookupKey) : Option LookupFn := t.functions[key]?

/-- The value of a key in a scope, by the function of the key. There is none for a number that is no
key of the table: the lookup panics there. -/
def evaluate? (t : LookupTable) (key : LookupKey) (scope : Scope) : Option (Traced Value) :=
  (t.function? key).map (· scope)

/-- The value of a key for a pass, which goes on with null where there is none. A compiled template
names no such number (`Template.Tight`). -/
def evaluate (t : LookupTable) (key : LookupKey) (scope : Scope) : Traced Value :=
  (t.evaluate? key scope).getD (pure .null)

/-! ## The three containers -/

/-- The three containers belong together: the functions are those of the expressions, and the map
has exactly the expressions, each with its position, which is the only one. -/
structure Aligned (t : LookupTable) : Prop where
  functions : t.functions = t.exprs.map Expr.compiled
  keys : ∀ e key, t.keys.lookup e = some key ↔ t.exprs[key]? = some e
  nodup : t.exprs.Nodup

/-- A new table is aligned. -/
theorem aligned_empty : Aligned {} where
  functions := rfl
  keys _ _ := by simp
  nodup := List.nodup_nil

/-- `later` has the expressions of `t` at the same keys, and is aligned if `t` is. -/
structure Grows (t later : LookupTable) : Prop where
  exprs : t.exprs <+: later.exprs
  aligned : t.Aligned → later.Aligned

namespace Grows

variable {t later latest : LookupTable} {key : LookupKey} {e : Expr}

/-- A table that stays as it is grows. -/
theorem refl (t : LookupTable) : t.Grows t := ⟨List.prefix_refl _, id⟩

/-- One growth after another. -/
theorem trans (h : t.Grows later) (h' : later.Grows latest) : t.Grows latest :=
  ⟨h.exprs.trans h'.exprs, h'.aligned ∘ h.aligned⟩

/-- A key keeps its expression. -/
theorem expr? (h : t.Grows later) (hk : t.expr? key = some e) : later.expr? key = some e := by
  obtain ⟨rest, whole⟩ := h.exprs
  have inside : key < t.exprs.length := (List.getElem?_eq_some_iff.mp hk).1
  rw [LookupTable.expr?, ← whole, List.getElem?_append_left inside]
  exact hk

end Grows

/-- An expression that is in no map is none of the expressions. -/
theorem Aligned.not_mem {t : LookupTable} (h : t.Aligned) {e : Expr}
    (new : t.keys.lookup e = none) : e ∉ t.exprs := by
  intro hm
  obtain ⟨key, there⟩ := List.getElem?_of_mem hm
  rw [(h.keys e key).mpr there] at new
  cases new

/-- A new expression joins all three containers at one position. -/
theorem Aligned.extend {t : LookupTable} (h : t.Aligned) {e : Expr}
    (new : t.keys.lookup e = none) :
    Aligned { exprs := t.exprs ++ [e], functions := t.functions ++ [e.compiled],
              keys := (e, t.exprs.length) :: t.keys } where
  functions := by rw [h.functions, List.map_append, List.map_singleton]
  keys other key := by
    rw [List.lookup_cons]
    by_cases same : other = e
    · subst same
      -- The expression is nowhere among the old ones, so its position is the new one.
      have old : t.exprs[key]? ≠ some other := fun there =>
        h.not_mem new (List.mem_of_getElem? there)
      rcases Nat.lt_trichotomy key t.exprs.length with lt | rfl | gt
      · rw [List.getElem?_append_left lt]
        simp [old, Nat.ne_of_gt lt]
      · simp
      · rw [List.getElem?_eq_none (by simp; omega)]
        simp [Nat.ne_of_lt gt]
    · rw [beq_eq_false_iff_ne.mpr same, h.keys other key]
      rcases Nat.lt_trichotomy key t.exprs.length with lt | rfl | gt
      · rw [List.getElem?_append_left lt]
      · simp [Ne.symm same]
      · rw [List.getElem?_eq_none (Nat.le_of_lt gt), List.getElem?_eq_none (by simp; omega)]
  nodup := by
    refine List.nodup_append.mpr ⟨h.nodup, by simp, fun a ha b hb => ?_⟩
    rw [List.mem_singleton.mp hb]
    rintro rfl
    exact h.not_mem new ha

/-- Interning keeps the expressions that are there, and the three containers aligned. -/
theorem grows_intern (t : LookupTable) (e : Expr) : t.Grows (t.intern e).1 := by
  unfold intern
  split
  · exact .refl t
  · next new => exact ⟨List.prefix_append _ _, fun h => h.extend new⟩

/-- The key of an expression leads back to the expression. -/
theorem expr?_intern {t : LookupTable} (h : t.Aligned) (e : Expr) :
    (t.intern e).1.expr? (t.intern e).2 = some e := by
  unfold intern
  split
  · next key found => exact (h.keys e key).mp found
  · simp [expr?]

/-- In an aligned table the function of a key is that of its expression. -/
theorem Aligned.function? {t : LookupTable} (h : t.Aligned) (key : LookupKey) :
    t.function? key = (t.expr? key).map Expr.compiled := by
  rw [LookupTable.function?, h.functions, List.getElem?_map]
  rfl

/-- In an aligned table the value of a key is that of its expression. -/
theorem Aligned.evaluate? {t : LookupTable} (h : t.Aligned) {key : LookupKey} {e : Expr}
    (hk : t.expr? key = some e) (scope : Scope) : t.evaluate? key scope = some (e.eval scope) := by
  rw [LookupTable.evaluate?, h.function?, hk]
  rfl

end LookupTable

/-- The values that a pass has asked for so far, by key, and how many it had to compute. -/
structure Memo where
  slots : List (Option Value)
  evaluations : Nat := 0
  deriving Inhabited, Repr

namespace Memo

/-- The memo at the start of a pass. -/
def empty (t : LookupTable) : Memo := ⟨List.replicate t.size none, 0⟩

/-- The value of a key: the one kept from before, or else a new one, which is kept. A number without
a slot or without a function has none: the lookup panics there. -/
def evaluate? (m : Memo) (t : LookupTable) (key : LookupKey) (scope : Scope) :
    Option (Traced (Value × Memo)) :=
  match m.slots[key]? with
  | none => none
  | some (some v) => some (pure (v, m))
  | some none => (t.evaluate? key scope).map fun value => do
    let v ← value
    return (v, ⟨m.slots.set key (some v), m.evaluations + 1⟩)

/-- The value of a key for a pass, which goes on with that of the table where the memo has no
answer. -/
def evaluate (m : Memo) (t : LookupTable) (key : LookupKey) (scope : Scope) :
    Traced (Value × Memo) :=
  (m.evaluate? t key scope).getD do
    let v ← t.evaluate key scope
    return (v, m)

/-- Evaluates keys one after another, with the number of evaluations after each. The answers end
where the memo has none. -/
def evaluateAll (m : Memo) (t : LookupTable) (scope : Scope) :
    List LookupKey → Traced (List (Value × Nat))
  | [] => pure []
  | key :: rest =>
    match m.evaluate? t key scope with
    | none => pure []
    | some answer => do
      let (v, m) ← answer
      let later ← m.evaluateAll t scope rest
      return (v, m.evaluations) :: later

end Memo

end ComponentView
