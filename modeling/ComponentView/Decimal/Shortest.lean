import ComponentView.Decimal.Binary64

/-! # The shortest decimal text of a floating point number

A number is written with the fewest digits that read back as the same number; of two decimals of
that length the nearer one is taken, and of two equally near ones the larger. The search runs over
the number of digits in exact arithmetic: on the grid of decimals of a given length only the two
neighbours of the number can be nearest. Texts are positional, without an exponent. -/

namespace ComponentView.Decimal

/-! ## Intervals that round to one number -/

/-- A positive rational interval around a value, in units of `num / den`: the decimals between
`lower` and `upper` read back as the value, the ends included if `closed`. -/
structure Interval where
  lower : Nat
  value : Nat
  upper : Nat
  closed : Bool
  num : Nat
  den : Nat
  deriving Repr

/-- The interval that rounds to the finite non-zero number with a given magnitude, in quarter units
of its last binary place. Below a power of two the numbers lie twice as dense. -/
def Interval.ofMagnitude (magnitude : Nat) : Interval :=
  let exponent := magnitude / Nat.pow 2 52
  let fraction := magnitude % Nat.pow 2 52
  let m := if exponent = 0 then fraction else Nat.pow 2 52 + fraction
  let below := if fraction = 0 && 1 < exponent then 1 else 2
  let place := max exponent 1
  { lower := 4 * m - below
    value := 4 * m
    upper := 4 * m + 2
    closed := m % 2 = 0
    num := Nat.pow 2 (place - 1077)
    den := Nat.pow 2 (1077 - place) }

/-- The same interval in units of `10 ^ exponent`. -/
def Interval.scale (i : Interval) (exponent : Int) : Interval :=
  if 0 ≤ exponent then { i with den := i.den * Nat.pow 10 exponent.toNat }
  else { i with num := i.num * Nat.pow 10 (-exponent).toNat }

/-- Whether the integer `d` lies in the interval. -/
def Interval.contains (i : Interval) (d : Nat) : Bool :=
  let x := d * i.den
  let lo := i.lower * i.num
  let hi := i.upper * i.num
  if i.closed then lo ≤ x && x ≤ hi else lo < x && x < hi

/-- The integer of the interval nearest to its value, a tie to the larger one. -/
def Interval.nearest (i : Interval) : Option Nat :=
  let v := i.value * i.num
  let d := v / i.den
  match i.contains d, i.contains (d + 1) with
  | true, true => some (if v - d * i.den < (d + 1) * i.den - v then d else d + 1)
  | true, false => some d
  | false, true => some (d + 1)
  | false, false => none

/-- The chosen integer lies in the interval, so it reads back as the value. -/
theorem Interval.contains_of_nearest {i : Interval} {d : Nat} (h : i.nearest = some d) :
    i.contains d = true := by
  unfold nearest at h
  simp only at h
  split at h
  · next h₁ h₂ => split at h <;> simp_all
  · simp_all
  · simp_all
  · simp at h

/-! ## Digits -/

/-- The integer `k` with `10 ^ (k - 1) ≤ value < 10 ^ k`, found from the number of bits. -/
def Interval.decade (i : Interval) : Int :=
  let v := i.value * i.num
  let guess : Int := ((v.log2 : Int) - (i.den.log2 : Int)) * 30103 / 100000
  let reached (k : Int) : Bool :=
    if 0 ≤ k then i.den * Nat.pow 10 k.toNat ≤ v else i.den ≤ v * Nat.pow 10 (-k).toNat
  if reached (guess + 1) then guess + 2 else if reached guess then guess + 1 else guess

/-- The number `digits * 10 ^ exponent`. -/
structure Numeral where
  digits : Nat
  exponent : Int
  deriving DecidableEq, Repr

/-- The shortest decimal that reads back as the number with a given finite non-zero magnitude;
seventeen digits always do. -/
def shortest (magnitude : Nat) : Numeral :=
  let i := Interval.ofMagnitude magnitude
  let k := i.decade
  let candidate? (n : Nat) : Option Numeral :=
    let e := k - n
    (i.scale e).nearest.map fun d => ⟨d, e⟩
  ((List.range' 1 17).findSome? candidate?).getD ⟨0, 0⟩

/-! ## Text -/

/-- The digits of a natural number in base ten. -/
def natText (n : Nat) : String := String.ofList (Nat.toDigits 10 n)

/-- The digits of an integer in base ten, with a minus sign if it is negative. -/
def intText (n : Int) : String :=
  if n < 0 then "-" ++ natText n.natAbs else natText n.natAbs

/-- A number without the zeros at its end, and how many there were; zero stays as it is. -/
def stripZeros : Nat → Nat → Nat × Nat
  | 0, n => (n, 0)
  | fuel + 1, n =>
    if n ≠ 0 && n % 10 = 0 then
      let (m, k) := stripZeros fuel (n / 10)
      (m, k + 1)
    else (n, 0)

/-- A numeral in positional notation, without an exponent and without a zero at the end of its
fractional part. -/
def Numeral.text (d : Numeral) : String :=
  let (m, k) := stripZeros d.digits d.digits
  let exponent := d.exponent + k
  let digits := Nat.toDigits 10 m
  if 0 ≤ exponent then String.ofList (digits ++ List.replicate exponent.toNat '0')
  else
    let places := (-exponent).toNat
    let padded := List.replicate (places + 1 - digits.length) '0' ++ digits
    let cut := padded.length - places
    String.ofList (padded.take cut ++ '.' :: padded.drop cut)

end ComponentView.Decimal

namespace ComponentView

/-- The text of a floating point number. -/
def Binary64.text (x : Binary64) : String :=
  if x.isNaN then "NaN"
  else
    let sign := if x.negative then "-" else ""
    if x.magnitude = infinity then sign ++ "inf"
    else if x.isZero then sign ++ "0"
    else sign ++ (Decimal.shortest x.magnitude).text

end ComponentView
