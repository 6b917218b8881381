import ComponentView.Lookup
import Mathlib.Data.List.Forall2
import Mathlib.Data.List.Nodup

/-! # Lookups of a component

Expressions that are interned one after another get the keys `0`, `1`, … in the order of their first
use; equal expressions have one key, and a key leads to the expression it was given for and to the
function of that expression, whatever is interned later (`LookupTable.Interned`). The expressions,
the functions and the map from expressions to keys stay aligned all along. A memo that is asked for
such keys in any order answers with the values of their expressions and computes each of them at its
first request only (`Memo.Answers`). -/

namespace ComponentView

namespace LookupTable

variable {t : LookupTable} {e : Expr} {es : List Expr}

/-! ## Interning -/

/-- What some uses of expressions leave: a table that has grown by nothing but the expressions. -/
structure Uses (t later : LookupTable) (es : List Expr) : Prop where
  grows : t.Grows later
  used : ∀ e ∈ later.exprs, e ∈ t.exprs ∨ e ∈ es

/-- One use of an expression brings in that expression at most. -/
theorem intern_uses (t : LookupTable) (e : Expr) : t.Uses (t.intern e).1 [e] := by
  refine ⟨grows_intern t e, ?_⟩
  unfold intern
  split
  · exact fun _ h => Or.inl h
  · exact fun _ h => List.mem_append.mp h

/-- Some uses after others. -/
theorem Uses.trans {later latest : LookupTable} {more : List Expr} (h : t.Uses later es)
    (h' : later.Uses latest more) : t.Uses latest (es ++ more) where
  grows := h.grows.trans h'.grows
  used e he := by
    rw [List.mem_append, ← or_assoc]
    exact (h'.used e he).imp_left (h.used e)

/-- Interning several expressions is interning the first and then the others. -/
theorem internAll_cons (t : LookupTable) (e : Expr) (es : List Expr) :
    t.internAll (e :: es) = (((t.intern e).1.internAll es).1,
      (t.intern e).2 :: ((t.intern e).1.internAll es).2) := rfl

/-- Each expression gets a key that leads to it. -/
theorem internAll_uses (aligned : t.Aligned) (es : List Expr) :
    t.Uses (t.internAll es).1 es ∧
      List.Forall₂ (fun e key => (t.internAll es).1.expr? key = some e) es (t.internAll es).2 := by
  induction es generalizing t with
  | nil => exact ⟨⟨.refl t, fun _ h => Or.inl h⟩, .nil⟩
  | cons e es ih =>
    have first := intern_uses t e
    obtain ⟨rest, keys⟩ := ih (first.grows.aligned aligned)
    exact ⟨first.trans rest, .cons (rest.grows.expr? (expr?_intern aligned e)) keys⟩

/-- Later expressions are interned into the table that is there, and get keys of their own. -/
theorem internAll_append (t : LookupTable) (es more : List Expr) :
    t.internAll (es ++ more) = (((t.internAll es).1.internAll more).1,
      (t.internAll es).2 ++ ((t.internAll es).1.internAll more).2) := by
  induction es generalizing t with
  | nil => rfl
  | cons e es ih =>
    rw [List.cons_append, internAll_cons, internAll_cons, ih]
    rfl

/-- What the table `t` and the `keys` are that some expressions get one after another in a new
table. -/
structure Interned (es : List Expr) (t : LookupTable) (keys : List LookupKey) : Prop where
  /-- The expressions, the functions and the map of the keys belong together. -/
  aligned : t.Aligned
  /-- The key of an expression leads to it and to its function, which gives its value. -/
  leads : List.Forall₂ (fun e key => t.keys.lookup e = some key ∧ t.expr? key = some e ∧
    t.function? key = some e.compiled ∧
      ∀ scope, t.evaluate? key scope = some (e.eval scope)) es keys
  /-- Two uses have one key exactly if they are uses of one expression. -/
  same : ∀ {i j : Nat} {e f : Expr} {k l : LookupKey}, es[i]? = some e → es[j]? = some f →
    keys[i]? = some k → keys[j]? = some l → (k = l ↔ e = f)
  /-- The keys are the numbers below the number of expressions. -/
  all : ∀ key, key ∈ keys ↔ key < t.size
  /-- Whatever is interned later, the keys and their expressions stay. -/
  later : ∀ more, (({} : LookupTable).internAll (es ++ more)).2 = keys ++ (t.internAll more).2 ∧
    ∀ key < t.size, (({} : LookupTable).internAll (es ++ more)).1.expr? key = t.expr? key ∧
      (({} : LookupTable).internAll (es ++ more)).1.function? key = t.function? key

/-- In an aligned table the value of a key is that of its expression. -/
theorem Aligned.evaluate (h : t.Aligned) {key : LookupKey} (hk : t.expr? key = some e)
    (scope : Scope) : t.evaluate key scope = e.eval scope := by
  rw [LookupTable.evaluate, h.evaluate? hk]
  rfl

/-- Interning expressions one after another into a new table gives them their keys. -/
theorem interned_internAll (es : List Expr) :
    Interned es (({} : LookupTable).internAll es).1 (({} : LookupTable).internAll es).2 := by
  obtain ⟨uses, leads⟩ := internAll_uses (t := {}) aligned_empty es
  have append := internAll_append {} es
  generalize ({} : LookupTable).internAll es = interned at uses leads append ⊢
  obtain ⟨t, keys⟩ := interned
  have aligned : t.Aligned := uses.grows.aligned aligned_empty
  obtain ⟨length, at_⟩ := List.forall₂_iff_get.mp leads
  have found {i : Nat} {e : Expr} {k : LookupKey} (he : es[i]? = some e) (hk : keys[i]? = some k) :
      t.expr? k = some e := by
    obtain ⟨hi, rfl⟩ := List.getElem?_eq_some_iff.mp he
    obtain ⟨hi', rfl⟩ := List.getElem?_eq_some_iff.mp hk
    exact at_ i hi hi'
  have size {k : LookupKey} {e : Expr} (h : t.expr? k = some e) : k < t.size :=
    (List.getElem?_eq_some_iff.mp h).1
  have injective {k l : LookupKey} {e : Expr} (hk : t.expr? k = some e) (hl : t.expr? l = some e) :
      k = l := (List.getElem?_inj (size hk) aligned.nodup).mp (hk.trans hl.symm)
  refine ⟨aligned, leads.imp fun e key h => ?_, ?_, fun key => ⟨?_, ?_⟩, ?_⟩
  · exact ⟨(aligned.keys e key).mpr h, h, by rw [aligned.function?, h]; rfl, aligned.evaluate? h⟩
  · intro i j e f k l he hf hk hl
    constructor
    · rintro rfl
      exact Option.some.inj ((found he hk).symm.trans (found hf hl))
    · rintro rfl
      exact injective (found he hk) (found hf hl)
  · intro hm
    obtain ⟨i, hk⟩ := List.getElem?_of_mem hm
    have hi : i < es.length := length ▸ (List.getElem?_eq_some_iff.mp hk).1
    exact size (found (List.getElem?_eq_getElem hi) hk)
  · -- The expression of the key was used somewhere, and got a key there that leads to it.
    intro hlt
    have there := List.getElem?_eq_getElem (l := t.exprs) hlt
    have used := (uses.used _ (List.getElem_mem hlt)).resolve_left List.not_mem_nil
    obtain ⟨i, he⟩ := List.getElem?_of_mem used
    have hi : i < keys.length := length ▸ (List.getElem?_eq_some_iff.mp he).1
    have hk := List.getElem?_eq_getElem hi
    rw [injective there (found he hk)]
    exact List.getElem_mem hi
  · intro more
    rw [append]
    refine ⟨rfl, fun key hlt => ?_⟩
    have grown := (internAll_uses aligned more).1.grows
    have there : t.expr? key = some _ := List.getElem?_eq_getElem hlt
    have same : (t.internAll more).1.expr? key = t.expr? key := (grown.expr? there).trans there.symm
    exact ⟨same, by rw [(grown.aligned aligned).function?, aligned.function?, same]⟩

end LookupTable

/-! ## Asking for values -/

namespace Memo

variable {m : Memo} {t : LookupTable} {scope : Scope} {seen asked : List LookupKey}
  {key : LookupKey}

/-- What a memo holds after the requests for the keys in `seen`. -/
structure Served (t : LookupTable) (scope : Scope) (seen : List LookupKey) (m : Memo) : Prop where
  slots : ∀ key < t.size, m.slots[key]? =
    some (if key ∈ seen then some (t.evaluate key scope).value else none)
  evaluations : m.evaluations = seen.eraseDups.length

/-- A new memo has served no request. -/
theorem served_empty (t : LookupTable) (scope : Scope) : Served t scope [] (empty t) where
  slots key hlt := by simp [empty, hlt]
  evaluations := rfl

/-- The keys of some requests, each at its first request, when one more comes in. -/
theorem eraseDups_concat (seen : List LookupKey) (key : LookupKey) :
    (seen ++ [key]).eraseDups = seen.eraseDups ++ if key ∈ seen then [] else [key] := by
  rw [List.eraseDups_append]
  congr 1
  by_cases h : key ∈ seen <;> simp [List.removeAll, List.eraseDups_cons, h]

/-- One more request is answered with the value of its key, which is computed if the key is new. -/
theorem Served.evaluate (h : Served t scope seen m) (aligned : t.Aligned) (hlt : key < t.size) :
    ∃ answer, m.evaluate? t key scope = some answer ∧
      answer.value.1 = (t.evaluate key scope).value ∧
      Served t scope (seen ++ [key]) answer.value.2 ∧
      answer.said = if key ∈ seen then [] else (t.evaluate key scope).said := by
  have slot := h.slots key hlt
  have there : t.expr? key = some _ := List.getElem?_eq_getElem hlt
  by_cases old : key ∈ seen
  · -- The slot is full and stays as it is.
    rw [if_pos old] at slot
    refine ⟨pure ((t.evaluate key scope).value, m), by rw [Memo.evaluate?, slot], rfl,
      ⟨fun other ho => ?_, ?_⟩, by rw [if_pos old]; rfl⟩
    · rw [Traced.value_pure, h.slots other ho]
      by_cases hk : other = key
      · simp [hk, old]
      · simp [hk]
    · rw [eraseDups_concat, if_pos old, List.append_nil]
      exact h.evaluations
  · -- The slot is filled by the function of the key, and one more evaluation is counted.
    rw [if_neg old] at slot
    have computed : m.evaluate? t key scope = some (t.evaluate key scope >>= fun v =>
        pure (v, ⟨m.slots.set key (some v), m.evaluations + 1⟩)) := by
      rw [Memo.evaluate?, slot, aligned.evaluate there, aligned.evaluate? there]
      rfl
    refine ⟨_, computed, rfl, ⟨fun other ho => ?_, ?_⟩, by rw [if_neg old]; exact List.append_nil _⟩
    · have inside : key < m.slots.length := (List.getElem?_eq_some_iff.mp slot).1
      show (m.slots.set key _)[other]? = _
      by_cases hk : other = key
      · simp [hk, inside]
      · simp [List.getElem?_set_ne (Ne.symm hk), h.slots other ho, hk]
    · rw [eraseDups_concat, if_neg old, List.length_append, List.length_singleton]
      exact congrArg (· + 1) h.evaluations

/-- What the answers to the requests for the keys in `asked` are: each value is that of the
expression of the key, the number beside it is that of the different keys asked for so far, and what
is said is said by the expressions of the different keys, each at its first request. -/
structure Answers (t : LookupTable) (scope : Scope) (asked : List LookupKey)
    (answers : Traced (List (Value × Nat))) : Prop where
  values : List.Forall₂ (fun key answer => ∃ e, t.expr? key = some e ∧
    answer.1 = (e.eval scope).value) asked answers.value
  evaluations : ∀ {i : Nat} {answer}, answers.value[i]? = some answer →
    answer.2 = (asked.take (i + 1)).eraseDups.length
  said : answers.said = asked.eraseDups.flatMap fun key => (t.evaluate key scope).said

/-- The same, when the keys in `seen` have been asked for before. -/
theorem Served.evaluateAll (h : Served t scope seen m) (aligned : t.Aligned)
    (known : ∀ key ∈ asked, key < t.size) :
    List.Forall₂ (fun key answer => ∃ e, t.expr? key = some e ∧
        answer.1 = (e.eval scope).value) asked (m.evaluateAll t scope asked).value ∧
      (∀ {i : Nat} {answer}, (m.evaluateAll t scope asked).value[i]? = some answer →
        answer.2 = (seen ++ asked.take (i + 1)).eraseDups.length) ∧
      seen.eraseDups.flatMap (fun key => (t.evaluate key scope).said)
          ++ (m.evaluateAll t scope asked).said
        = (seen ++ asked).eraseDups.flatMap fun key => (t.evaluate key scope).said := by
  -- By induction on the requests that are left, while `seen` grows by each that is answered.
  induction asked generalizing seen m with
  | nil => exact ⟨.nil, by simp [Memo.evaluateAll], by simp [Memo.evaluateAll]⟩
  | cons key asked ih =>
    rw [List.forall_mem_cons] at known
    obtain ⟨first, answered, value, served, said⟩ := h.evaluate aligned known.1
    obtain ⟨values, counts, rest⟩ := ih served known.2
    have unfolded : m.evaluateAll t scope (key :: asked)
        = first >>= fun a => a.2.evaluateAll t scope asked >>= fun later =>
          pure ((a.1, a.2.evaluations) :: later) := by
      rw [Memo.evaluateAll, answered]
    rw [unfolded]
    have there : t.expr? key = some _ := List.getElem?_eq_getElem known.1
    refine ⟨.cons ⟨_, there, ?_⟩ values, fun {i answer} ha => ?_, ?_⟩
    · rw [← aligned.evaluate there]
      exact value
    · cases i with
      | zero =>
        obtain rfl := Option.some.inj ha
        exact served.evaluations
      | succ i =>
        rw [List.take_succ_cons, List.append_cons]
        exact counts ha
    · rw [List.append_cons, ← rest, eraseDups_concat, List.flatMap_append]
      simp only [Traced.said_bind, Traced.said_pure, List.append_nil, said, List.append_assoc]
      split <;> simp

end Memo

/-- Expressions that are interned one after another into a new table have one key exactly if they
are equal; the keys are the numbers below the number of different expressions, each leads to its
expression and to the function of that, and both stay when others are interned later. A memo of the
table that is asked for keys answers each time with the value of the expression of the key, computes
it at the first request for the key only, and counts the different keys asked for so far. -/
theorem LookupTable.lookups_of_interned (es : List Expr) (scope : Scope) {asked : List LookupKey}
    (known : ∀ key ∈ asked, key < (({} : LookupTable).internAll es).1.size) :
    Interned es (({} : LookupTable).internAll es).1 (({} : LookupTable).internAll es).2 ∧
      Memo.Answers (({} : LookupTable).internAll es).1 scope asked
        ((Memo.empty (({} : LookupTable).internAll es).1).evaluateAll
          (({} : LookupTable).internAll es).1 scope asked) := by
  have interned := interned_internAll es
  obtain ⟨values, counts, said⟩ :=
    (Memo.served_empty _ scope).evaluateAll interned.aligned known
  exact ⟨interned, values, counts, said⟩

/-- A name, the number of the props, and the name once more. -/
def Expr.ofHeading : List Expr := [.prop [.field "name"], .len .props, .prop [.field "name"]]

/-- The name has the first key and the number the second; both are asked for, the number twice. -/
theorem LookupTable.lookups_of_heading :
    (({} : LookupTable).internAll Expr.ofHeading).2 = [0, 1, 0] ∧
      (∀ key ∈ [1, 0, 1], key < (({} : LookupTable).internAll Expr.ofHeading).1.size) ∧
      Memo.Answers (({} : LookupTable).internAll Expr.ofHeading).1 default [1, 0, 1]
        ((Memo.empty (({} : LookupTable).internAll Expr.ofHeading).1).evaluateAll
          (({} : LookupTable).internAll Expr.ofHeading).1 default [1, 0, 1]) := by
  have known : ∀ key ∈ [1, 0, 1], key < (({} : LookupTable).internAll Expr.ofHeading).1.size := by
    decide
  exact ⟨by decide, known, (lookups_of_interned Expr.ofHeading default known).2⟩

end ComponentView
