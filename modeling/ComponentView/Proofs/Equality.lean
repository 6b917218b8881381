import ComponentView.Proofs.Layout.Apart
import ComponentView.Proofs.WholeNumbers
import ComponentView.Update.Effect

/-! # What equal values show

An update passes over a callback whose value is equal to the one that it last ran with. Equal values
count as true together and have one length. They also have one text, unless numbers that are equal
but written differently stand in them at one place: a zero and a negative zero, or an integer and a
floating point number whose shortest decimal is another integer, which only happens beyond `2 ^ 53`.
So, these numbers apart, no effect would have written anything else (`Value.shows_of_equal`). -/

namespace ComponentView

/-- The floating point number is written like the integer, if it is equal to it: it is no negative
zero, and the integer has at most 53 bits or is the shortest decimal of the number. -/
def Binary64.WrittenAs (x : Binary64) (n : Int64) : Prop :=
  (n = 0 → x.negative = false) ∧ (n.toInt.natAbs ≤ 2 ^ 53 ∨ x.Spells n.toInt.natAbs)

namespace Value

mutual
/-- Numbers that stand at one place of two values are written alike, if they are equal. Nothing is
asked of what stands in maps, which all have one text. -/
def WrittenAlike : Value → Value → Prop
  | float x, float y => x.isZero = true → x.negative = y.negative
  | int n, float x => x.WrittenAs n
  | float x, int n => x.WrittenAs n
  | list as, list bs => WrittenAlikeItems as bs
  | _, _ => True

/-- So are the numbers in two lists of values, item by item. -/
def WrittenAlikeItems : List Value → List Value → Prop
  | a :: as, b :: bs => WrittenAlike a b ∧ WrittenAlikeItems as bs
  | _, _ => True
end

variable {a b : Value} {n : Int64} {x : Binary64}

/-! ## Truth and length -/

/-- A number that an integer is equal to is zero exactly if the integer is. -/
theorem isTruthy_of_eq_ofInt64 (h : (Binary64.ofInt64 n).eq x = true) :
    (int n).isTruthy = (float x).isTruthy := by
  have nan : x.isNaN = false := by
    simp only [Binary64.eq, Bool.and_eq_true, Bool.not_eq_true'] at h
    exact h.1.2
  simp [isTruthy, nan, ← Binary64.isZero_eq_of_eq h, Binary64.isZero_ofInt64]

/-- Equal values count as true together. -/
theorem isTruthy_eq_of_equal (h : a.equal b = true) : a.isTruthy = b.isTruthy := by
  cases a <;> cases b <;> simp only [equal, Bool.false_eq_true] at h
  case null.null => rfl
  case bool.bool => simp_all
  case int.int => simp_all
  case int.float => exact isTruthy_of_eq_ofInt64 h
  case float.int => exact (isTruthy_of_eq_ofInt64 h).symm
  case float.float x y =>
    rcases Bool.or_eq_true _ _ ▸ h with same | nan
    · simp only [Binary64.eq, Bool.and_eq_true, Bool.not_eq_true'] at same
      have zero := Binary64.isZero_eq_of_eq (x := x) (y := y) (by simp [Binary64.eq, same])
      simp [isTruthy, zero, same.1]
    · rw [Bool.and_eq_true] at nan
      simp [isTruthy, nan]
  case str.str => simp_all
  case list.list => rfl
  case map.map => rfl

/-- Equal lists are of one length. -/
theorem length_eq_of_equalItems : {as bs : List Value} → equalItems as bs = true →
    as.length = bs.length
  | [], [], _ => rfl
  | [], _ :: _, h => by simp [equalItems] at h
  | _ :: _, [], h => by simp [equalItems] at h
  | _ :: as, _ :: bs, h => by
    rw [equalItems, Bool.and_eq_true] at h
    rw [List.length_cons, List.length_cons, length_eq_of_equalItems h.2]

/-- Equal maps have as many entries. -/
theorem length_eq_of_equalEntries : {as bs : Entries} → equalEntries as bs = true →
    as.length = bs.length
  | [], [], _ => rfl
  | [], _ :: _, h => by simp [equalEntries] at h
  | _ :: _, [], h => by simp [equalEntries] at h
  | _ :: as, _ :: bs, h => by
    rw [equalEntries, Bool.and_eq_true] at h
    rw [List.length_cons, List.length_cons, length_eq_of_equalEntries h.2]

/-- Equal values have one length. -/
theorem length_eq_of_equal (h : a.equal b = true) : a.length = b.length := by
  cases a <;> cases b <;> simp only [equal, Bool.false_eq_true] at h
  case str.str => simp_all
  case list.list => exact length_eq_of_equalItems h
  case map.map => exact length_eq_of_equalEntries h
  all_goals rfl

/-! ## Text -/

/-- An integer and a floating point number that is equal to it and written like it have one text. -/
theorem text_of_eq_ofInt64 (h : (Binary64.ofInt64 n).eq x = true) (written : x.WrittenAs n) :
    (int n).text = (float x).text := by
  have magnitude := Binary64.magnitude_eq_of_eq h
  have spells : n = 0 ∨ (Binary64.ofInt64 n).Spells n.toInt.natAbs := by
    by_cases zero : n = 0
    · exact Or.inl zero
    · right
      rcases written.2 with small | spells
      · exact Binary64.spells_ofInt64 zero small
      · rwa [Binary64.Spells, magnitude]
  have negative : (Binary64.ofInt64 n).negative = x.negative := by
    by_cases zero : n = 0
    · subst zero
      exact (written.1 rfl).symm
    · exact Binary64.negative_eq_of_eq h (by simp [Binary64.isZero_ofInt64, zero])
  rw [text, text, ← Binary64.text_ofInt64 spells]
  exact Binary64.text_congr negative magnitude

/-- Two floating point numbers that are equal have one text, but for zeros of different sign; so have
two that are not numbers. -/
theorem text_of_float_equal {y : Binary64} (h : (float x).equal (float y) = true)
    (zeros : x.isZero = true → x.negative = y.negative) : (float x).text = (float y).text := by
  rw [text, text]
  rcases Bool.or_eq_true _ _ ▸ h with same | nan
  · refine Binary64.text_congr ?_ (Binary64.magnitude_eq_of_eq same)
    cases zero : x.isZero with
    | true => exact zeros zero
    | false => exact Binary64.negative_eq_of_eq same zero
  · rw [Bool.and_eq_true] at nan
    simp [Binary64.text, nan]

mutual
/-- Equal values have one text, if the numbers in them are written alike. -/
theorem text_eq_of_equal : (a b : Value) → a.equal b = true → a.WrittenAlike b → a.text = b.text
  | null, b, h, _ => by cases b <;> simp_all [equal]
  | bool _, b, h, _ => by cases b <;> simp_all [equal]
  | str _, b, h, _ => by cases b <;> simp_all [equal]
  | map _, b, h, _ => by cases b <;> simp_all [equal, text]
  | int n, b, h, written => by
    cases b with
    | int m => simp_all [equal]
    | float x => exact text_of_eq_ofInt64 h written
    | _ => cases h
  | float x, b, h, written => by
    cases b with
    | int n => exact (text_of_eq_ofInt64 h written).symm
    | float y => exact text_of_float_equal h written
    | _ => cases h
  | list as, b, h, written => by
    cases b with
    | list bs => rw [text, text, texts_eq_of_equal as bs h written]
    | _ => cases h

/-- Equal values that are written alike have the same texts. -/
theorem texts_eq_of_equal : (as bs : List Value) → equalItems as bs = true →
    WrittenAlikeItems as bs → texts as = texts bs
  | [], [], _, _ => rfl
  | [], _ :: _, h, _ => by simp [equalItems] at h
  | _ :: _, [], h, _ => by simp [equalItems] at h
  | a :: as, b :: bs, h, written => by
    rw [equalItems, Bool.and_eq_true] at h
    rw [WrittenAlikeItems] at written
    rw [texts, texts, text_eq_of_equal a b h.1 written.1, texts_eq_of_equal as bs h.2 written.2]
end

/-! ## Effects -/

/-- Equal values of one text show the same in an attribute and in a style property. -/
theorem shown_eq_of_equal (h : a.equal b = true) (same : a.text = b.text) :
    Effect.attributeText a = Effect.attributeText b ∧ Effect.styleText a = Effect.styleText b := by
  cases a <;> cases b <;> simp only [equal, Bool.false_eq_true] at h
  case bool.bool => simp_all
  all_goals simp [Effect.attributeText, Effect.styleText, same]

/-- Equal values count as true together and have one length. If the numbers in them are written
alike, they also have one text, and every effect that writes to a node does the same with both. -/
theorem shows_of_equal (h : (a == b) = true) : a.isTruthy = b.isTruthy ∧ a.length = b.length ∧
    (a.WrittenAlike b → a.text = b.text ∧
      ∀ (s : Setting) (node : NodeId) (e : Effect), e.Writes → e.run s node a = e.run s node b) := by
  rw [beq_eq] at h
  have truth := isTruthy_eq_of_equal h
  refine ⟨truth, length_eq_of_equal h, fun written => ?_⟩
  have same := text_eq_of_equal a b h written
  obtain ⟨inAttribute, inStyle⟩ := shown_eq_of_equal h same
  refine ⟨same, fun s node e writes => ?_⟩
  cases e with
  | setText => rw [Effect.run, Effect.run, same]
  | setAttribute name => rw [Effect.run, Effect.run, inAttribute]
  | switchClass name => rw [Effect.run, Effect.run, truth]
  | switchClasses names => rw [Effect.run, Effect.run, truth]
  | setStyle property => rw [Effect.run, Effect.run, inStyle]
  | _ => cases writes

/-- A measure of three, once with integers and once with floating point numbers. -/
def measure (three half note : Value) : Value :=
  .list [three, .list [half, .map [("note", note)]], .str "cm"]

/-- The two measures show the same, also with zeros of different sign where no text shows them. -/
theorem shows_of_measure :
    let whole := measure (.int 3) (.float ⟨0x3fe0000000000000⟩) (.float ⟨0x8000000000000000⟩)
    let broken := measure (.float ⟨0x4008000000000000⟩) (.float ⟨0x3fe0000000000000⟩) (.int 0)
    (whole == broken) = true ∧ whole.WrittenAlike broken ∧ whole.text = broken.text ∧
      whole.text = "3,0.5,[map],cm" ∧ whole.length = broken.length ∧
      ∀ (s : Setting) (node : NodeId),
        Effect.setText.run s node whole = Effect.setText.run s node broken := by
  intro whole broken
  have equal : (whole == broken) = true := by decide +kernel
  have written : whole.WrittenAlike broken :=
    ⟨⟨by decide, Or.inl (by decide)⟩, ⟨fun _ => rfl, trivial, trivial⟩, trivial, trivial⟩
  obtain ⟨-, length, shown⟩ := shows_of_equal equal
  obtain ⟨text, run⟩ := shown written
  exact ⟨equal, written, text, by decide +kernel, length, fun s node => run s node _ trivial⟩

/-- Zeros of different sign are equal but differ in text; so do an integer beyond `2 ^ 53` and the
floating point number nearest to it. -/
theorem texts_of_equal_differ :
    let zero : Value := .float ⟨0⟩
    let negativeZero : Value := .float ⟨0x8000000000000000⟩
    let large : Value := .int 9007199254740993
    let rounded : Value := .float ⟨0x4340000000000000⟩
    (zero == negativeZero) = true ∧ zero.text = "0" ∧ negativeZero.text = "-0" ∧
      (large == rounded) = true ∧ large.text = "9007199254740993" ∧
      rounded.text = "9007199254740992" ∧
      ¬ ∀ a b : Value, (a == b) = true → a.text = b.text := by
  refine ⟨by decide +kernel, by decide +kernel, by decide +kernel, by decide +kernel,
    by decide +kernel, by decide +kernel, fun all => ?_⟩
  exact absurd (all (.float ⟨0⟩) (.float ⟨0x8000000000000000⟩) (by decide +kernel))
    (by decide +kernel)

end Value

end ComponentView
