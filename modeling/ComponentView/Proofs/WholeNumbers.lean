import ComponentView.Decimal.Shortest
import Mathlib.Tactic.Positivity
import Mathlib.Tactic.Ring

/-! # The text of whole numbers

Up to `2 ^ 53` the floating point numbers take in all integers, and the spaces between them are at most
one, so no other integer reads back as the same number: the shortest decimal of such a number is
the integer itself, without its zeros (`Decimal.shortest_magnitudeOfNat`). So the integer and the
floating point number that it is converted to have one text (`Binary64.text_ofInt64`). Of an integer
beyond that the floating point number keeps 53 significant bits only. -/

namespace ComponentView

namespace Decimal

/-! ## Digits -/

/-- Each factor of ten is a zero at the end. -/
theorem toDigits_mul_pow {n : Nat} (hn : 0 < n) (j : Nat) :
    Nat.toDigits 10 (n * 10 ^ j) = Nat.toDigits 10 n ++ List.replicate j '0' := by
  induction j with
  | zero => simp
  | succ j ih =>
    have step := Nat.toDigits_append_toDigits (b := 10) (n := n * 10 ^ j) (d := 0) (by decide)
      (by positivity) (by decide)
    calc Nat.toDigits 10 (n * 10 ^ (j + 1))
        = Nat.toDigits 10 (10 * (n * 10 ^ j) + 0) := by rw [pow_succ]; congr 1; ring
      _ = Nat.toDigits 10 n ++ List.replicate j '0' ++ ['0'] := by rw [← step, ih]; rfl
      _ = Nat.toDigits 10 n ++ List.replicate (j + 1) '0' := by
        rw [List.append_assoc, ← List.replicate_succ']

/-- Taking zeros off the end and noting their number loses nothing. -/
theorem stripZeros_eq (fuel n : Nat) : (stripZeros fuel n).1 * 10 ^ (stripZeros fuel n).2 = n := by
  induction fuel generalizing n with
  | zero => simp [stripZeros]
  | succ fuel ih =>
    rw [stripZeros]
    split
    · next h =>
      have tens : n % 10 = 0 := of_decide_eq_true (Bool.and_eq_true _ _ ▸ h).2
      show (stripZeros fuel (n / 10)).1 * 10 ^ ((stripZeros fuel (n / 10)).2 + 1) = n
      rw [pow_succ, ← Nat.mul_assoc, ih]
      omega
    · simp

/-- A numeral without a fractional part is written like the integer that it stands for. -/
theorem Numeral.text_eq_natText {d j : Nat} (hd : 0 < d) :
    Numeral.text ⟨d, j⟩ = natText (d * 10 ^ j) := by
  have strip := stripZeros_eq d d
  unfold Numeral.text natText
  generalize stripZeros d d = stripped at strip
  obtain ⟨m, k⟩ := stripped
  have hm : 0 < m := Nat.pos_of_ne_zero fun h => by simp [h] at strip; omega
  have whole : (0 : Int) ≤ (j : Int) + (k : Int) := by omega
  simp only [whole, if_true]
  rw [← strip, Nat.mul_assoc, ← pow_add, toDigits_mul_pow hm]
  congr 3
  omega

/-! ## The interval of a whole number -/

/-- An interval around the integer `m`, in units of which `unit` make one. It is at most half a space
wide on either side, and the spaces are at most one, but for the space above the last of these
integers, which is two. -/
structure Interval.Whole (i : Interval) (m unit : Nat) : Prop where
  num : i.num = 1
  den : i.den = unit
  value : i.value = m * unit
  upper : i.upper = m * unit + 2
  lower : i.lower + 2 = m * unit ∨ i.lower + 1 = m * unit
  wide : unit = 2 ∧ m = 2 ^ 53 ∧ i.lower + 1 = m * unit ∨ 4 ≤ unit

/-- An integer that is moved to the left until its first bit stands for `2 ^ k`. -/
theorem moved_bounds {m k : Nat} (pos : 0 < m) (bits : m.log2 ≤ k) :
    2 ^ k ≤ m * 2 ^ (k - m.log2) ∧ m * 2 ^ (k - m.log2) < 2 ^ (k + 1) := by
  have least : 2 ^ m.log2 ≤ m := Nat.log2_self_le (by omega)
  have most : m < 2 ^ (m.log2 + 1) := Nat.lt_log2_self
  have moved : 2 ^ m.log2 * 2 ^ (k - m.log2) = 2 ^ k := by
    rw [← pow_add, Nat.add_sub_cancel' bits]
  constructor
  · rw [← moved]
    exact Nat.mul_le_mul_right _ least
  · calc m * 2 ^ (k - m.log2) < 2 ^ (m.log2 + 1) * 2 ^ (k - m.log2) :=
          Nat.mul_lt_mul_of_pos_right most (by positivity)
      _ = 2 ^ (k + 1) := by rw [pow_succ, Nat.mul_right_comm, moved, ← pow_succ]

/-- The significand of an integer up to `2 ^ 53` is the integer itself, moved to 53 bits. -/
theorem exists_significand {m : Nat} (pos : 0 < m) (small : m ≤ 2 ^ 53) :
    m.log2 ≤ 53 ∧ ∃ s, 2 ^ 52 ≤ s ∧ s < 2 ^ 53 ∧ s * 2 ^ m.log2 = m * 2 ^ 52 ∧
      Binary64.magnitudeOfNat m = (m.log2 + 1022) * 2 ^ 52 + s := by
  have least : 2 ^ m.log2 ≤ m := Nat.log2_self_le (by omega)
  have bits : m.log2 ≤ 53 := by
    by_contra h
    have : 2 ^ 54 ≤ 2 ^ m.log2 := Nat.pow_le_pow_right (by decide) (by omega)
    omega
  refine ⟨bits, ?_⟩
  by_cases short : m.log2 ≤ 52
  · obtain ⟨lower, upper⟩ := moved_bounds pos short
    refine ⟨m * 2 ^ (52 - m.log2), lower, upper, ?_, ?_⟩
    · rw [Nat.mul_assoc, ← pow_add, Nat.sub_add_cancel short]
    · simp [Binary64.magnitudeOfNat, pos.ne', short]
  · -- The last of the integers has one more bit, a zero.
    obtain rfl : m = 2 ^ 53 := by
      have : 2 ^ 53 ≤ 2 ^ m.log2 := Nat.pow_le_pow_right (by decide) (by omega)
      omega
    exact ⟨2 ^ 52, by decide +kernel⟩

/-- The interval of a number with an exponent of its own and the significand `s`. -/
theorem Interval.ofMagnitude_eq {x e s : Nat} (exponent : x / 2 ^ 52 = e)
    (fraction : x % 2 ^ 52 = s - 2 ^ 52) (normal : 1 < e) (least : 2 ^ 52 ≤ s) :
    ofMagnitude x =
      { lower := 4 * s - (if s = 2 ^ 52 then 1 else 2), value := 4 * s, upper := 4 * s + 2
        closed := s % 2 = 0, num := 2 ^ (e - 1077), den := 2 ^ (1077 - e) } := by
  have place : max e 1 = e := by omega
  have significand : 2 ^ 52 + (s - 2 ^ 52) = s := by omega
  have power : s - 2 ^ 52 = 0 ↔ s = 2 ^ 52 := by omega
  simp only [ofMagnitude, Nat.pow_eq, exponent, fraction, place, significand, normal, power,
    show e ≠ 0 by omega, if_false, decide_true, Bool.and_true, decide_eq_true_eq]

/-- The decimals that read back as an integer up to `2 ^ 53` are an interval around it. -/
theorem whole_ofMagnitude {m : Nat} (pos : 0 < m) (small : m ≤ 2 ^ 53) :
    (Interval.ofMagnitude (Binary64.magnitudeOfNat m)).Whole m (2 ^ (54 - m.log2)) := by
  obtain ⟨bits, s, least, most, scaled, magnitude⟩ := exists_significand pos small
  have value : 4 * s = m * 2 ^ (54 - m.log2) := by
    apply Nat.eq_of_mul_eq_mul_right (show 0 < 2 ^ m.log2 by positivity)
    rw [Nat.mul_assoc, scaled, Nat.mul_assoc, ← pow_add, Nat.sub_add_cancel (by omega)]
    ring
  rw [magnitude, Interval.ofMagnitude_eq (e := m.log2 + 1023) (s := s) (by omega) (by omega)
    (by omega) least, show m.log2 + 1023 - 1077 = 0 by omega,
    show 1077 - (m.log2 + 1023) = 54 - m.log2 by omega]
  refine ⟨rfl, rfl, value, congrArg (· + 2) value, ?_, ?_⟩
  · show 4 * s - _ + 2 = _ ∨ 4 * s - _ + 1 = _
    rw [← value]
    split <;> omega
  · by_cases last : m.log2 = 53
    · -- The last integer is a power of two, so the numbers below it are half as far apart.
      left
      obtain ⟨rfl, rfl⟩ : m = 2 ^ 53 ∧ s = 2 ^ 52 := by
        rw [last] at scaled
        omega
      exact ⟨by rw [last]; rfl, rfl, by rw [last]; decide⟩
    · right
      exact Nat.pow_le_pow_right (n := 2) (by decide) (show 2 ≤ 54 - m.log2 by omega)

namespace Interval

variable {i : Interval} {m unit : Nat}

/-- In units of a power of ten the value is as many times smaller. -/
theorem scale_natCast (i : Interval) (j : Nat) : i.scale j = { i with den := i.den * 10 ^ j } := by
  simp [scale]

/-- A whole multiple of ten that reads back as the integer is the integer. -/
theorem Whole.eq_of_contains (h : i.Whole m unit) {d j : Nat}
    (hc : (i.scale (j + 1 : Nat)).contains d = true) : d * 10 ^ (j + 1) = m := by
  obtain ⟨num, den, value, upper, lower, wide⟩ := h
  rw [scale_natCast] at hc
  simp only [contains, num, den, upper, Nat.mul_one] at hc
  set c := d * 10 ^ (j + 1) with hcdef
  have scaled : d * (unit * 10 ^ (j + 1)) = c * unit := by rw [hcdef]; ring
  rw [scaled] at hc
  have bounds : i.lower ≤ c * unit ∧ c * unit ≤ m * unit + 2 := by
    split at hc <;> simp at hc <;> omega
  have tens : c % 10 = 0 := by rw [hcdef, pow_succ, ← Nat.mul_assoc]; omega
  rcases wide with ⟨rfl, rfl, half⟩ | wide
  · -- Beside the last integer itself only the next one reads back as it.
    omega
  · by_contra hne
    rcases Nat.lt_or_gt_of_ne hne with below | above
    · have := Nat.mul_le_mul_right unit (show c + 1 ≤ m by omega)
      rw [Nat.add_mul, Nat.one_mul] at this
      omega
    · have := Nat.mul_le_mul_right unit (show m + 1 ≤ c by omega)
      rw [Nat.add_mul, Nat.one_mul] at this
      omega

/-- Of all integers the one that the interval is around is the nearest to its value. -/
theorem Whole.nearest (h : i.Whole m unit) : i.nearest = some m := by
  obtain ⟨num, den, value, upper, lower, wide⟩ := h
  have pos : 0 < unit := by rcases wide with ⟨rfl, -⟩ | wide <;> omega
  have itself : i.contains m = true := by
    simp only [contains, num, den, upper, Nat.mul_one]
    split <;> simp <;> omega
  have quotient : i.value * i.num / i.den = m := by simp [num, den, value, pos]
  have near : i.value * i.num - m * i.den < (m + 1) * i.den - i.value * i.num := by
    simp [num, den, value, Nat.add_mul, pos]
  simp only [Interval.nearest, quotient, itself]
  cases i.contains (m + 1) <;> simp [near]

/-- A value that is at least one has a digit before the point, and at most two more than are guessed. -/
theorem exists_decade {guess : Nat} (one : i.den ≤ i.value * i.num)
    (guessed : ((i.value * i.num).log2 - i.den.log2 : Int) * 30103 / 100000 = guess) :
    ∃ k : Nat, i.decade = k ∧ 1 ≤ k ∧ k ≤ guess + 2 := by
  have next : (guess : Int) + 1 = (guess + 1 : Nat) := rfl
  unfold Interval.decade
  simp only [guessed, next, Int.natCast_nonneg, if_true, Int.toNat_natCast, decide_eq_true_eq]
  by_cases more : i.den * Nat.pow 10 (guess + 1) ≤ i.value * i.num
  · rw [if_pos more]
    exact ⟨guess + 2, rfl, by omega, by omega⟩
  rw [if_neg more]
  by_cases reached : i.den * Nat.pow 10 guess ≤ i.value * i.num
  · rw [if_pos reached]
    exact ⟨guess + 1, rfl, by omega, by omega⟩
  · rw [if_neg reached]
    refine ⟨guess, rfl, ?_, by omega⟩
    by_contra none
    obtain rfl : guess = 0 := by omega
    simp [one] at reached

/-- The value of an integer is moved to 55 bits. -/
theorem Whole.log2_value (h : i.Whole m (2 ^ (54 - m.log2))) (pos : 0 < m) (bits : m.log2 ≤ 53) :
    (i.value * i.num).log2 = 54 := by
  rw [h.value, h.num, Nat.mul_one, Nat.log2_eq_iff (by positivity)]
  exact moved_bounds pos (by omega)

/-- An integer up to `2 ^ 53` has between one and seventeen digits before the point. -/
theorem Whole.decade (h : i.Whole m (2 ^ (54 - m.log2))) (pos : 0 < m) (bits : m.log2 ≤ 53) :
    ∃ k : Nat, i.decade = k ∧ 1 ≤ k ∧ k ≤ 17 := by
  have one : i.den ≤ i.value * i.num := by
    rw [h.den, h.value, h.num, Nat.mul_one]
    exact Nat.le_mul_of_pos_left _ pos
  -- The guess is a natural number, since an integer has no negative exponent.
  have guessed : ((i.value * i.num).log2 - i.den.log2 : Int) * 30103 / 100000
      = (m.log2 * 30103 / 100000 : Nat) := by
    rw [h.log2_value pos bits, h.den, Nat.log2_two_pow]
    omega
  obtain ⟨k, decade, least, most⟩ := exists_decade one guessed
  exact ⟨k, decade, least, by omega⟩

end Interval

/-- A search from one upwards finds something at `k` at the latest, if something is there. -/
theorem exists_findSome?_range {α : Type} {f : Nat → Option α} {k l : Nat} (one : 1 ≤ k) (hk : k ≤ l)
    {a : α} (h : f k = some a) :
    ∃ n ≤ k, ∃ b, f n = some b ∧ (List.range' 1 l).findSome? f = some b := by
  have split : List.range' 1 k ++ List.range' (1 + 1 * k) (l - k) = List.range' 1 (k + (l - k)) :=
    List.range'_append
  rw [Nat.add_sub_cancel' hk] at split
  obtain ⟨b, found⟩ : ∃ b, (List.range' 1 k).findSome? f = some b := by
    rw [← Option.isSome_iff_exists, List.isSome_findSome?, List.any_eq_true]
    exact ⟨k, List.mem_range'_1.mpr (by omega), by rw [h]; rfl⟩
  obtain ⟨n, hn, hb⟩ := List.exists_of_findSome?_eq_some found
  have within := List.mem_range'_1.mp hn
  refine ⟨n, by omega, b, hb, ?_⟩
  rw [← split, List.findSome?_append, found]
  rfl

/-- The shortest decimal of an integer up to `2 ^ 53` is the integer itself: some digits, and as many
zeros as are left off. -/
theorem shortest_magnitudeOfNat {m : Nat} (pos : 0 < m) (small : m ≤ 2 ^ 53) :
    ∃ d j : Nat, shortest (Binary64.magnitudeOfNat m) = ⟨d, j⟩ ∧ d * 10 ^ j = m := by
  have whole := whole_ofMagnitude pos small
  obtain ⟨k, decade, one, seventeen⟩ := whole.decade pos (exists_significand pos small).1
  set i := Interval.ofMagnitude (Binary64.magnitudeOfNat m) with hi
  let candidate? (n : Nat) : Option Numeral :=
    (i.scale ((k : Int) - n)).nearest.map fun d => ⟨d, (k : Int) - n⟩
  -- With all of its digits the integer is found, so what is found first has no more.
  have all : candidate? k = some ⟨m, (0 : Nat)⟩ := by
    have : i.scale 0 = i := by simp [Interval.scale]
    simp [candidate?, this, whole.nearest]
  obtain ⟨n, digits, numeral, hc, found⟩ := exists_findSome?_range one seventeen all
  have result : shortest (Binary64.magnitudeOfNat m) = numeral := by
    unfold shortest
    simp only [← hi, decade]
    show ((List.range' 1 17).findSome? candidate?).getD ⟨0, 0⟩ = numeral
    rw [found]
    rfl
  rw [result]
  rcases Nat.eq_or_lt_of_le digits with rfl | fewer
  · exact ⟨m, 0, by rw [← Option.some.inj (all.symm.trans hc)], by simp⟩
  · obtain ⟨j, rfl⟩ : ∃ j, k = n + (j + 1) := ⟨k - n - 1, by omega⟩
    have exponent : ((n + (j + 1) : Nat) : Int) - n = (j + 1 : Nat) := by omega
    simp only [candidate?, exponent, Option.map_eq_some_iff] at hc
    obtain ⟨d, near, rfl⟩ := hc
    exact ⟨d, j + 1, rfl, whole.eq_of_contains (Interval.contains_of_nearest near)⟩

end Decimal

namespace Binary64

/-! ## Integers as floating point numbers -/

/-- Rounding goes up by at most one. -/
theorem roundShift_le (n k : Nat) : roundShift n k ≤ n / 2 ^ k + 1 := by
  simp only [roundShift, Nat.pow_eq]
  split
  · exact Nat.le_refl _
  · split <;> omega

/-- The magnitude of a 64-bit integer is that of a number, far below the infinite ones. -/
theorem magnitudeOfNat_lt {m : Nat} (h : m ≤ 2 ^ 63) : magnitudeOfNat m < infinity := by
  have most : m < 2 ^ (m.log2 + 1) := Nat.lt_log2_self
  simp only [magnitudeOfNat, infinity, Nat.pow_eq]
  split
  · decide
  · next nonzero =>
    have bits : m.log2 ≤ 63 := by
      have least : 2 ^ m.log2 ≤ m := Nat.log2_self_le nonzero
      by_contra many
      have : 2 ^ 64 ≤ 2 ^ m.log2 := Nat.pow_le_pow_right (by decide) (by omega)
      omega
    split
    · next short =>
      have := (Decimal.moved_bounds (Nat.pos_of_ne_zero nonzero) short).2
      omega
    · next long =>
      have : m / 2 ^ (m.log2 - 52) < 2 ^ 53 := by
        rw [Nat.div_lt_iff_lt_mul (by positivity), ← pow_add]
        exact most.trans_eq (by congr 1; omega)
      have := roundShift_le m (m.log2 - 52)
      omega

/-- Only zero has the magnitude zero. -/
theorem magnitudeOfNat_eq_zero_iff {m : Nat} : magnitudeOfNat m = 0 ↔ m = 0 := by
  unfold magnitudeOfNat
  split
  · next h => simp [h]
  · next h =>
    simp only [Nat.pow_eq, h, iff_false]
    omega

/-- The magnitude of a whole number of 64 bits. -/
theorem natAbs_toInt_le (n : Int64) : n.toInt.natAbs ≤ 2 ^ 63 := by
  have := n.le_toInt
  have := n.toInt_lt
  omega

/-- The bits of a whole number are its sign and its magnitude. -/
theorem toNat_bits_ofInt64 (n : Int64) : (ofInt64 n).bits.toNat =
    if n.toInt < 0 then 2 ^ 63 + magnitudeOfNat n.toInt.natAbs else magnitudeOfNat n.toInt.natAbs := by
  have := magnitudeOfNat_lt (natAbs_toInt_le n)
  simp only [infinity, Nat.pow_eq] at this
  simp only [ofInt64, Nat.pow_eq, UInt64.toNat_ofNat']
  split <;> omega

/-- An integer and its floating point number have one sign. -/
theorem negative_ofInt64 (n : Int64) : (ofInt64 n).negative = decide (n.toInt < 0) := by
  have := magnitudeOfNat_lt (natAbs_toInt_le n)
  simp only [infinity, Nat.pow_eq] at this
  simp only [negative, toNat_bits_ofInt64, Nat.pow_eq, decide_eq_decide]
  split <;> omega

/-- The magnitude of the float is that of the whole number. -/
theorem magnitude_ofInt64 (n : Int64) :
    (ofInt64 n).magnitude = magnitudeOfNat n.toInt.natAbs := by
  have := magnitudeOfNat_lt (natAbs_toInt_le n)
  simp only [infinity, Nat.pow_eq] at this
  simp only [magnitude, toNat_bits_ofInt64, Nat.pow_eq]
  split <;> omega

/-- A whole number becomes a number. -/
theorem isNaN_ofInt64 (n : Int64) : (ofInt64 n).isNaN = false := by
  have := magnitudeOfNat_lt (natAbs_toInt_le n)
  simp [isNaN, magnitude_ofInt64]
  omega

/-- Only the integer zero becomes a zero. -/
theorem isZero_ofInt64 (n : Int64) : (ofInt64 n).isZero = decide (n = 0) := by
  simp only [isZero, magnitude_ofInt64, magnitudeOfNat_eq_zero_iff, Int.natAbs_eq_zero,
    decide_eq_decide]
  exact ⟨fun h => Int64.toInt_inj.mp h, fun h => h ▸ rfl⟩

/-! ## Equal numbers -/

variable {x y : Binary64}

/-- Numbers that are equal have one magnitude. -/
theorem magnitude_eq_of_eq (h : x.eq y = true) : x.magnitude = y.magnitude := by
  simp only [eq, rank, Bool.and_eq_true, beq_iff_eq] at h
  have := h.2
  split at this <;> split at this <;> omega

/-- Of two floats that are equal both are zero or none. -/
theorem isZero_eq_of_eq (h : x.eq y = true) : x.isZero = y.isZero := by
  simp [isZero, magnitude_eq_of_eq h]

/-- Numbers that are equal have one sign, zeros apart. -/
theorem negative_eq_of_eq (h : x.eq y = true) (nonzero : x.isZero = false) :
    x.negative = y.negative := by
  have magnitude := magnitude_eq_of_eq h
  simp only [eq, rank, Bool.and_eq_true, beq_iff_eq] at h
  simp only [isZero, decide_eq_false_iff_not] at nonzero
  have := h.2
  cases hx : x.negative <;> cases hy : y.negative <;> simp [hx, hy] at this ⊢ <;> omega

/-- The text of a number shows its sign and its magnitude only. -/
theorem text_congr (negative : x.negative = y.negative) (magnitude : x.magnitude = y.magnitude) :
    x.text = y.text := by
  have nan : x.isNaN = y.isNaN := by rw [isNaN, isNaN, magnitude]
  have zero : x.isZero = y.isZero := by rw [isZero, isZero, magnitude]
  unfold text
  simp only [nan, zero, negative, magnitude]

/-! ## Texts of integers -/

/-- The shortest decimal of a number is the natural number `m`, without its zeros. -/
def Spells (x : Binary64) (m : Nat) : Prop :=
  ∃ d j : Nat, Decimal.shortest x.magnitude = ⟨d, j⟩ ∧ d * 10 ^ j = m

/-- A small whole number is spelled by its digits. -/
theorem spells_ofInt64 {n : Int64} (nonzero : n ≠ 0) (small : n.toInt.natAbs ≤ 2 ^ 53) :
    (ofInt64 n).Spells n.toInt.natAbs := by
  unfold Spells
  rw [magnitude_ofInt64]
  refine Decimal.shortest_magnitudeOfNat (Nat.pos_of_ne_zero fun h => nonzero ?_) small
  exact Int64.toInt_inj.mp (Int.natAbs_eq_zero.mp h)

/-- The floating point number of an integer is written like the integer, if its shortest decimal is
the integer. -/
theorem text_ofInt64 {n : Int64} (spells : n = 0 ∨ (ofInt64 n).Spells n.toInt.natAbs) :
    (ofInt64 n).text = Decimal.intText n.toInt := by
  by_cases zero : n = 0
  · subst zero
    rfl
  · obtain ⟨d, j, shortest, whole⟩ := spells.resolve_left zero
    have finite : (ofInt64 n).magnitude ≠ infinity := by
      rw [magnitude_ofInt64]
      exact (magnitudeOfNat_lt (natAbs_toInt_le n)).ne
    have pos : 0 < d := Nat.pos_of_ne_zero fun h => by
      rw [h, Nat.zero_mul] at whole
      exact zero (Int64.toInt_inj.mp (Int.natAbs_eq_zero.mp whole.symm))
    have nonzero : (ofInt64 n).isZero = false := by rw [isZero_ofInt64, decide_eq_false zero]
    by_cases below : n.toInt < 0 <;>
      simp [text, isNaN_ofInt64, finite, nonzero, shortest, Decimal.Numeral.text_eq_natText pos,
        whole, negative_ofInt64, Decimal.intText, below]

end Binary64

end ComponentView
