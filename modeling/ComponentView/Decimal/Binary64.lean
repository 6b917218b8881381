/-! # Binary floating point numbers

A 64-bit floating point number of IEEE 754, held by its bits. The program compares such numbers,
compares them with integers and prints them, and it does no other arithmetic; so order, equality
and the conversion of integers are given here on the bits, in exact arithmetic. Equality is
symmetric (`eq_comm`) and the order is the order of `rank` (`lt_iff`). -/

namespace ComponentView

/-- A floating point number with 53 significant bits, held by its 64 bits. -/
structure Binary64 where
  bits : UInt64
  deriving DecidableEq, Repr, Inhabited

namespace Binary64

/-! ## The parts of a number -/

/-- The sign bit. -/
def negative (x : Binary64) : Bool := Nat.pow 2 63 ≤ x.bits.toNat

/-- The bits below the sign, which order the numbers of one sign by size. -/
def magnitude (x : Binary64) : Nat := x.bits.toNat % Nat.pow 2 63

/-- The magnitude of the two infinities. -/
def infinity : Nat := 2047 * Nat.pow 2 52

/-- Whether the bits stand for no number. -/
def isNaN (x : Binary64) : Bool := infinity < x.magnitude

/-- Whether the number is zero, of either sign. -/
def isZero (x : Binary64) : Bool := x.magnitude = 0

/-- The bits with which every value that is not a number is written. -/
def quietNaN : Binary64 := ⟨0x7ff8000000000000⟩

/-- The number with the given bits; there is one value that is not a number. -/
def ofBits (bits : UInt64) : Binary64 :=
  let x : Binary64 := ⟨bits⟩
  if x.isNaN then quietNaN else x

/-- The place of a number in the order of all numbers; the two zeros share one place. -/
def rank (x : Binary64) : Int := if x.negative then -(x.magnitude : Int) else x.magnitude

/-! ## Comparison -/

/-- Equality as numbers: a value that is not a number equals nothing, and the zeros are equal. -/
def eq (x y : Binary64) : Bool := !x.isNaN && !y.isNaN && x.rank == y.rank

/-- Order as numbers: a value that is not a number is neither below nor above anything. -/
def lt (x y : Binary64) : Bool := !x.isNaN && !y.isNaN && x.rank < y.rank

/-- Equality as numbers is symmetric. -/
theorem eq_comm (x y : Binary64) : x.eq y = y.eq x := by
  simp only [eq, Bool.and_comm (!x.isNaN) (!y.isNaN), BEq.comm (a := x.rank)]

/-- Every number equals itself. -/
theorem eq_self {x : Binary64} (h : x.isNaN = false) : x.eq x = true := by
  simp [eq, h]

/-- Order and place in the order agree on numbers. -/
theorem lt_iff {x y : Binary64} (hx : x.isNaN = false) (hy : y.isNaN = false) :
    x.lt y = true ↔ x.rank < y.rank := by
  simp [lt, hx, hy]

/-! ## Integers -/

/-- The quotient `n / 2 ^ k` rounded to the nearest integer, a half to the even one. -/
def roundShift (n k : Nat) : Nat :=
  let q := n / Nat.pow 2 k
  let r := 2 * (n % Nat.pow 2 k)
  if Nat.pow 2 k < r then q + 1 else if r = Nat.pow 2 k && q % 2 = 1 then q + 1 else q

/-- The magnitude of the floating point number nearest to `n`, a tie to the even significand. A
significand that rounds up to the next power of two carries into the exponent by itself. -/
def magnitudeOfNat (n : Nat) : Nat :=
  if n = 0 then 0
  else
    let e := n.log2
    let significand := if e ≤ 52 then n * Nat.pow 2 (52 - e) else roundShift n (e - 52)
    (e + 1022) * Nat.pow 2 52 + significand

/-- The floating point number nearest to a 64-bit integer. -/
def ofInt64 (n : Int64) : Binary64 :=
  let m := magnitudeOfNat n.toInt.natAbs
  ⟨UInt64.ofNat (if n.toInt < 0 then Nat.pow 2 63 + m else m)⟩

end Binary64

end ComponentView
