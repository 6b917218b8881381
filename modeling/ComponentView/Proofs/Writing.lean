import ComponentView.Value.Path

/-! # Reading what was written

A write goes down a path one step at a time: it looks up the part that a step leads to, changes it
and puts it back (`Value.modifyAt_cons`). So whatever holds of one step holds of a path. A write that
goes through is read back at its path, leaves alone what is neither above nor below it, and is undone
by the next write there (`Value.reads_of_set`). A write that is stuck leaves what writing back the
value at the place where it is stuck would leave: nothing has changed if that place was there, and
otherwise the way to it has been made (`Value.left_of_stuck`). -/

namespace ComponentView

namespace Value

variable {v child : Value} {s t : Segment} {p q : Path}

/-! ## One step -/

/-- Whether a write can take a step: to a field of null or of a map, or to a position that a list
has. -/
def admits : Value → Segment → Bool
  | null, .field _ => true
  | map _, .field _ => true
  | list items, .index position => position < items.length
  | _, _ => false

/-- The part of a value that a step leads to; null if it leads nowhere. -/
def part (v : Value) (s : Segment) : Value := (v.step? s).getD null

/-- A value with the part that a step leads to replaced; null becomes a map. -/
def withPart : Value → Segment → Value → Value
  | null, .field name, child => map (Entries.put name child [])
  | map entries, .field name, child => map (Entries.put name child entries)
  | list items, .index position, child => list (items.set position child)
  | v, _, _ => v

/-- Nothing is in null. -/
@[simp] theorem step?_null (s : Segment) : null.step? s = none := by
  cases s <;> rfl

/-- What was put at a step is found there. -/
theorem step?_withPart (h : v.admits s = true) (child : Value) :
    (v.withPart s child).step? s = some child := by
  cases v <;> cases s <;> simp [admits] at h
  case null.field => simp [withPart, step?, field?]
  case map.field => simp [withPart, step?, field?]
  case list.index => simp [withPart, step?, item?, h]

/-- The other steps lead where they led. -/
theorem step?_withPart_of_ne (h : t ≠ s) (v child : Value) :
    (v.withPart s child).step? t = v.step? t := by
  cases v <;> cases s <;> try rfl
  case null.field name =>
    cases t with
    | field other =>
      have hne : other ≠ name := fun he => h (he ▸ rfl)
      simp [withPart, step?, field?, Entries.get?_put_of_ne hne, Entries.get?]
    | index position => rfl
  case map.field entries name =>
    cases t with
    | field other =>
      have hne : other ≠ name := fun he => h (he ▸ rfl)
      simp [withPart, step?, field?, Entries.get?_put_of_ne hne]
    | index position => rfl
  case list.index items position =>
    cases t with
    | field other => rfl
    | index other =>
      have hne : position ≠ other := fun he => h (he ▸ rfl)
      simp [withPart, step?, item?, List.getElem?_set_ne hne]

/-- What replaces a part can be replaced in its turn. -/
@[simp] theorem admits_withPart (h : v.admits s = true) (child : Value) :
    (v.withPart s child).admits s = true := by
  cases v <;> cases s <;> simp_all [admits, withPart]

/-- Of two parts put at one step the second stays. -/
theorem withPart_withPart (v first second : Value) (s : Segment) :
    (v.withPart s first).withPart s second = v.withPart s second := by
  cases v <;> cases s <;> simp [withPart, Entries.put_put]

/-- The part that was put in place is there. -/
@[simp] theorem part_withPart (h : v.admits s = true) (child : Value) :
    (v.withPart s child).part s = child := by
  simp [part, step?_withPart h]

/-- The other parts stay as they were. -/
theorem part_withPart_of_ne (h : t ≠ s) (v child : Value) :
    (v.withPart s child).part t = v.part t := by
  simp [part, step?_withPart_of_ne h]

/-- A step that leads somewhere can be written through. -/
theorem admits_of_step? (h : v.step? s = some child) : v.admits s = true := by
  cases v <;> cases s <;> simp_all [step?, field?, item?, admits]
  case list.index => exact (List.getElem?_eq_some_iff.mp h).1

/-! ## Paths, step by step -/

/-- Reading goes on with the part that the first step leads to; below null everything is null. -/
theorem get_cons (v : Value) (s : Segment) (rest : Path) : v.get (s :: rest) = (v.part s).get rest := by
  have below (rest : Path) : null.get rest = null := by
    cases rest <;> simp [get]
  unfold part
  cases h : v.step? s with
  | none => simp [get, h, below]
  | some next => simp [get, h]

variable {α : Type} (f : Value → Value × α)

/-- Writing through a step replaces the part that it leads to by what becomes of it; a step that a
write cannot take changes nothing. -/
theorem modifyAt_cons (s : Segment) (rest : Path) (v : Value) :
    modifyAt f (s :: rest) v = if v.admits s then
        (v.withPart s (modifyAt f rest (v.part s)).1, (modifyAt f rest (v.part s)).2)
      else (v, none) := by
  cases s with
  | field name =>
    cases v <;> simp [modifyAt, admits, withPart, part, step?, field?]
  | index position =>
    cases v <;> simp [modifyAt, admits, withPart, part, step?, item?]
    case list items => by_cases h : position < items.length <;> simp [h]

/-! ## Paths that a write can take -/

/-- Whether a write can take all steps of a path. -/
def reaches (v : Value) : Path → Bool
  | [] => true
  | s :: rest => v.admits s && (v.part s).reaches rest

/-- The value at a path, if every step leads somewhere. -/
def find? (v : Value) : Path → Option Value
  | [] => some v
  | s :: rest => (v.step? s).bind fun next => next.find? rest

/-- Reading a path gives what is there, or null. -/
theorem get_eq_find? (v : Value) (p : Path) : v.get p = (v.find? p).getD null := by
  induction p generalizing v with
  | nil => rfl
  | cons s rest ih =>
    unfold get find?
    cases h : v.step? s with
    | none => rfl
    | some next => exact ih next

/-- A path can be read in two steps. -/
theorem get_append (v : Value) (p q : Path) : v.get (p ++ q) = (v.get p).get q := by
  induction p generalizing v with
  | nil => rfl
  | cons s rest ih => rw [List.cons_append, get_cons, get_cons, ih]

/-- A change gets an answer exactly if its path can be taken. -/
theorem isSome_modifyAt (p : Path) (v : Value) : (modifyAt f p v).2.isSome = v.reaches p := by
  induction p generalizing v with
  | nil => rfl
  | cons s rest ih =>
    rw [modifyAt_cons, reaches]
    cases h : v.admits s with
    | false => rfl
    | true => simpa using ih (v.part s)

/-- Whether a write goes through does not depend on what is written. -/
theorem set_snd (v : Value) (p : Path) (new : Value) : (v.set p new).2 = v.reaches p :=
  isSome_modifyAt _ p v

/-- A write along a path writes to the part that the first segment leads to. -/
theorem set_cons (v : Value) (s : Segment) (rest : Path) (new : Value) :
    (v.set (s :: rest) new).1 =
      if v.admits s then v.withPart s ((v.part s).set rest new).1 else v := by
  show (modifyAt _ (s :: rest) v).1 = _
  rw [modifyAt_cons]
  split <;> rfl

/-! ## Reading after writing -/

/-- A write that goes through makes all steps of its path lead somewhere, to what was written. -/
theorem find?_set (h : v.reaches p = true) (new : Value) : (v.set p new).1.find? p = some new := by
  induction p generalizing v with
  | nil => rfl
  | cons s rest ih =>
    rw [reaches, Bool.and_eq_true] at h
    rw [set_cons, if_pos h.1, find?, step?_withPart h.1]
    exact ih h.2

/-- What was written where the path reaches is read. -/
theorem get_set (h : v.reaches p = true) (new : Value) : (v.set p new).1.get p = new := by
  rw [get_eq_find?, find?_set h]
  rfl

/-- A change leaves alone what is neither above its path nor below it, whether it goes through or
not. -/
theorem get_modifyAt_of_apart {p q : Path} (below : ¬ p <+: q) (above : ¬ q <+: p) (v : Value) :
    (modifyAt f p v).1.get q = v.get q := by
  induction p generalizing v q with
  | nil => exact absurd List.nil_prefix below
  | cons s rest ih =>
    cases q with
    | nil => exact absurd List.nil_prefix above
    | cons t others =>
      rw [modifyAt_cons]
      split
      · next admits =>
        rw [get_cons, get_cons]
        by_cases h : t = s
        · subst h
          -- The two paths part further down.
          rw [List.cons_prefix_cons, not_and] at below above
          rw [part_withPart admits]
          exact ih (below rfl) (above rfl) _
        · rw [part_withPart_of_ne h]
      · rfl

/-- A write opens its path to no other write. -/
theorem reaches_set (v : Value) (p : Path) (new : Value) :
    (v.set p new).1.reaches p = v.reaches p := by
  induction p generalizing v with
  | nil => rfl
  | cons s rest ih =>
    rw [set_cons]
    split
    · next admits => simp [reaches, admits, ih]
    · rfl

/-- Of two writes at one path the second stays. -/
theorem set_set (v : Value) (p : Path) (first second : Value) :
    (v.set p first).1.set p second = v.set p second := by
  refine Prod.ext ?_ (by rw [set_snd, set_snd, reaches_set])
  induction p generalizing v with
  | nil => rfl
  | cons s rest ih =>
    rw [set_cons v s rest first]
    split
    · next admits =>
      rw [set_cons, set_cons, if_pos admits, if_pos (admits_withPart admits _),
        part_withPart admits, withPart_withPart, ih]
    · rfl

/-- A write that goes through is read back at its path; what is read at every path that is neither
above nor below it is what was read before; and another write there goes through as well and makes of
the value what it would have made of it without the first. -/
theorem reads_of_set {v' new : Value} (h : v.set p new = (v', true)) :
    v'.get p = new ∧ (∀ q, ¬ p <+: q → ¬ q <+: p → v'.get q = v.get q) ∧
      ∀ other, v'.set p other = v.set p other ∧ (v.set p other).2 = true := by
  have reached : v.reaches p = true := by rw [← set_snd v p new, h]
  obtain rfl : (v.set p new).1 = v' := by rw [h]
  refine ⟨get_set reached new, fun q below above => get_modifyAt_of_apart _ below above v,
    fun other => ⟨set_set v p new other, ?_⟩⟩
  rw [set_snd, reached]

/-- A state in which a name was missing, below a null that stands in a list. -/
def draftState : Value := .map [("rows", .list [.int 1, .null]), ("title", .str "draft")]

/-- Writing the name makes two maps where the null was; the row beside it, the title and what would be
another name there read as before. -/
theorem reads_of_draftState :
    let name : Path := [.field "rows", .index 1, .field "author", .field "name"]
    let named : Value := .map [("rows", .list [.int 1, .map [("author", .map [("name", .str "ada")])]]),
      ("title", .str "draft")]
    draftState.set name (.str "ada") = (named, true) ∧ named.get name = .str "ada" ∧
      named.get [.field "rows", .index 0] = .int 1 ∧ named.get [.field "title"] = .str "draft" ∧
      named.get [.field "rows", .index 1, .field "author", .field "age"] = .null ∧
      named.set name .null = draftState.set name .null := by
  intro name named
  have written : draftState.set name (.str "ada") = (named, true) := by rfl
  obtain ⟨back, rest, again⟩ := reads_of_set written
  refine ⟨written, back, ?_, ?_, ?_, (again .null).1⟩
  · exact rest _ (by decide) (by decide)
  · exact rest _ (by decide) (by decide)
  · exact rest _ (by decide) (by decide)

/-! ## Writes that are stuck -/

/-- Every map in a value has its entries in the order of their names, each name once. -/
inductive Sorted : Value → Prop
  | null : Sorted null
  | bool (b : Bool) : Sorted (bool b)
  | int (n : Int64) : Sorted (int n)
  | float (x : Binary64) : Sorted (float x)
  | str (s : String) : Sorted (str s)
  | list {items : List Value} (parts : ∀ item ∈ items, Sorted item) : Sorted (list items)
  | map {entries : Entries} (names : entries.Pairwise (·.1 < ·.1))
    (parts : ∀ e ∈ entries, Sorted e.2) : Sorted (map entries)

/-- The value found under a name is one of the entries, and storing it again changes nothing. -/
theorem put_get? {entries : Entries} {name : String} (names : entries.Pairwise (·.1 < ·.1))
    (h : entries.get? name = some child) :
    (name, child) ∈ entries ∧ entries.put name child = entries := by
  induction entries with
  | nil => cases h
  | cons e rest ih =>
    obtain ⟨key, value⟩ := e
    rw [List.pairwise_cons] at names
    by_cases he : name = key
    · subst he
      obtain rfl : value = child := by simpa [Entries.get?] using h
      simp [Entries.put]
    · have below : (name, child) ∈ rest ∧ Entries.put name child rest = rest :=
        ih names.2 (by simpa [Entries.get?, he] using h)
      -- The name is further down, so it comes after the first one.
      have after : ¬ name < key := String.lt_asymm (names.1 _ below.1)
      simp [Entries.put, he, after, below]

/-- Putting back the part that a step leads to changes nothing, and the part is sorted, too. -/
theorem Sorted.withPart_step? (sorted : v.Sorted) (h : v.step? s = some child) :
    v.withPart s child = v ∧ child.Sorted := by
  cases sorted with
  | list parts =>
    cases s with
    | field name => cases h
    | index position =>
      obtain ⟨hlt, rfl⟩ := List.getElem?_eq_some_iff.mp h
      exact ⟨by simp [withPart], parts _ (List.getElem_mem hlt)⟩
  | map names parts =>
    cases s with
    | field name =>
      obtain ⟨mem, put⟩ := put_get? names h
      exact ⟨by simp [withPart, put], parts _ mem⟩
    | index position => cases h
  | _ => cases s <;> cases h

/-- Writing back what is found at a path changes nothing. -/
theorem Sorted.set_find? (sorted : v.Sorted) {old : Value} (h : v.find? p = some old) :
    (v.set p old).1 = v := by
  induction p generalizing v with
  | nil => simpa [find?] using h.symm
  | cons s rest ih =>
    rw [find?, Option.bind_eq_some_iff] at h
    obtain ⟨next, step, h⟩ := h
    obtain ⟨back, below⟩ := sorted.withPart_step? step
    rw [set_cons, if_pos (admits_of_step? step), part, step, Option.getD_some, ih below h, back]

/-- A path that a write cannot take to its end leads it to a place with a next step that it cannot
take; the change is the write that puts back what is read at that place. -/
theorem exists_stuck (h : v.reaches p = false) : ∃ q s rest, p = q ++ s :: rest ∧
    v.reaches q = true ∧ (v.get q).admits s = false ∧
      (modifyAt f p v).1 = (v.set q (v.get q)).1 := by
  induction p generalizing v with
  | nil => cases h
  | cons s rest ih =>
    rw [modifyAt_cons]
    cases admits : v.admits s with
    | false => exact ⟨[], s, rest, rfl, rfl, admits, rfl⟩
    | true =>
      rw [reaches, admits, Bool.true_and] at h
      obtain ⟨q, t, others, rfl, reached, stuck, left⟩ := ih h
      refine ⟨s :: q, t, others, rfl, ?_, ?_, ?_⟩
      · rw [reaches, admits, reached, Bool.and_self]
      · rwa [get_cons]
      · rw [if_pos rfl, set_cons, if_pos admits, get_cons, left]

/-- A write or another change that does not go through is stuck at a place on its path. It leaves what
writing back the value that is read there would leave: the value as it was, exactly if the place was
there; otherwise the way to the place has been made. What is not on the way reads as before. -/
theorem left_of_stuck (sorted : v.Sorted) (stuck : (modifyAt f p v).2 = none) :
    ∃ q s rest, p = q ++ s :: rest ∧ (v.get q).admits s = false ∧
      v.set q (v.get q) = ((modifyAt f p v).1, true) ∧
      ((modifyAt f p v).1 = v ↔ (v.find? q).isSome) ∧
      ∀ r, (r <+: q → r = q) → (modifyAt f p v).1.get r = v.get r := by
  have short : v.reaches p = false := by rw [← isSome_modifyAt f p v, stuck]; rfl
  obtain ⟨q, s, rest, path, reached, blocked, left⟩ := exists_stuck f short
  refine ⟨q, s, rest, path, blocked, ?_, ?_, fun r apart => ?_⟩
  · rw [left, ← reached, ← set_snd v q (v.get q)]
  · rw [left]
    constructor
    · intro same
      -- A write makes its path lead somewhere, so this one has led there before.
      rw [← same, find?_set reached]
      rfl
    · intro there
      obtain ⟨old, found⟩ := Option.isSome_iff_exists.mp there
      rw [get_eq_find?, found, Option.getD_some, sorted.set_find? found]
  · rw [left]
    by_cases below : q <+: r
    · obtain ⟨onward, rfl⟩ := below
      rw [get_append, get_append, get_set reached]
    · exact get_modifyAt_of_apart _ below (fun above => below (apart above ▸ List.prefix_rfl)) v

/-- A write that would go to a position below a missing author is stuck there, and leaves a null
author where there was none. -/
theorem left_of_draftState :
    let p : Path := [.field "author", .index 0]
    let left : Value := .map [("author", .null), ("rows", .list [.int 1, .null]),
      ("title", .str "draft")]
    draftState.Sorted ∧ draftState.set p (.str "ada") = (left, false) ∧
      ∃ q s rest, p = q ++ s :: rest ∧ (draftState.get q).admits s = false ∧
        draftState.set q (draftState.get q) = (left, true) ∧
        (left = draftState ↔ (draftState.find? q).isSome) := by
  intro p left
  have sorted : draftState.Sorted := by
    refine .map (by decide) fun e he => ?_
    simp only [List.mem_cons, List.not_mem_nil, or_false] at he
    rcases he with rfl | rfl
    · refine .list fun item hitem => ?_
      simp only [List.mem_cons, List.not_mem_nil, or_false] at hitem
      rcases hitem with rfl | rfl
      · exact .int 1
      · exact .null
    · exact .str "draft"
  have run : modifyAt (fun _ => (Value.str "ada", ())) p draftState = (left, none) := by rfl
  obtain ⟨q, s, rest, path, blocked, back, same, -⟩ :=
    left_of_stuck (p := p) (fun _ => (Value.str "ada", ())) sorted (by rw [run])
  rw [run] at back same
  exact ⟨sorted, by rfl, q, s, rest, path, blocked, back, same⟩

/-- A write that is stuck need not leave the value alone: below null it makes a map on its way to a
position that is not there. -/
theorem changed_by_stuck :
    ¬ ∀ (v : Value) (p : Path) (new : Value), (v.set p new).2 = false → (v.set p new).1 = v := by
  intro unchanged
  have := unchanged .null [.field "a", .index 0] (.int 1) rfl
  cases this

end Value

end ComponentView
