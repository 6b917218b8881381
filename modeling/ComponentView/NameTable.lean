/-! # Tables of names

A table gives meanings to names. Setting a name replaces its old meaning in place and adds a new
name at the end, so the names keep the order in which they first came. What a table says is read by
`get?`; `get?_set_self`, `get?_set_of_ne` and `get?_setAll` say what setting does to it. -/

namespace ComponentView

/-- A table from names to meanings. -/
abbrev NameTable (α : Type) := List (String × α)

namespace NameTable

variable {α : Type}

/-- The meaning of a name. -/
def get? (name : String) : NameTable α → Option α
  | [] => none
  | (key, value) :: rest => if key = name then some value else get? name rest

/-- Gives a name a meaning. -/
def set (name : String) (value : α) : NameTable α → NameTable α
  | [] => [(name, value)]
  | (key, old) :: rest =>
    if key = name then (name, value) :: rest else (key, old) :: set name value rest

/-- Takes a name out of the table. -/
def erase (name : String) (table : NameTable α) : NameTable α :=
  table.filter fun entry => entry.1 ≠ name

/-- Gives several names their meanings, the last one counting for a name that comes twice. -/
def setAll (table : NameTable α) (entries : List (String × α)) : NameTable α :=
  entries.foldl (fun t e => t.set e.1 e.2) table

/-- A name that was just set has the new meaning. -/
@[simp] theorem get?_set_self (name : String) (value : α) (table : NameTable α) :
    (table.set name value).get? name = some value := by
  induction table with
  | nil => simp [set, get?]
  | cons e rest ih =>
    obtain ⟨key, old⟩ := e
    unfold set
    split
    · simp [get?]
    · simp [get?, *]

/-- Setting one name leaves the meanings of the others. -/
theorem get?_set_of_ne {name other : String} (h : other ≠ name) (value : α)
    (table : NameTable α) : (table.set name value).get? other = table.get? other := by
  induction table with
  | nil => simp [set, get?, Ne.symm h]
  | cons e rest ih =>
    obtain ⟨key, old⟩ := e
    unfold set
    split
    · next he => subst he; simp [get?, Ne.symm h]
    · simp [get?, ih]

/-- A name stands at one position of the table, where its meaning is set anew. -/
theorem exists_position {t : NameTable α} {name : String} {a : α} (h : t.get? name = some a) :
    ∃ n : Nat, t[n]? = some (name, a) ∧ ∀ b, t.set name b = List.set t n (name, b) := by
  induction t with
  | nil => cases h
  | cons e t ih =>
    obtain ⟨key, old⟩ := e
    rw [get?] at h
    split at h
    · next he =>
      obtain rfl := Option.some.inj h
      exact ⟨0, by simp [he], fun b => by simp [set, he]⟩
    · next hne =>
      obtain ⟨n, hn, hset⟩ := ih h
      exact ⟨n + 1, hn, fun b => by rw [set, if_neg hne, hset]; rfl⟩

/-- Of several meanings that are set for a name the last one counts. -/
theorem get?_setAll (name : String) (entries : List (String × α)) (table : NameTable α) :
    (table.setAll entries).get? name = (entries.reverse.lookup name).or (table.get? name) := by
  induction entries generalizing table with
  | nil => rfl
  | cons entry rest ih =>
    obtain ⟨key, value⟩ := entry
    have first : (NameTable.set key value table).get? name
        = (List.lookup name [(key, value)]).or (table.get? name) := by
      by_cases he : name = key
      · simp [he]
      · rw [get?_set_of_ne he, List.lookup_cons, beq_false_of_ne he]
        rfl
    rw [List.reverse_cons, List.lookup_append, Option.or_assoc, ← first]
    exact ih _

end NameTable

end ComponentView
