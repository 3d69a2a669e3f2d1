namespace RowForest

/-- A double-precision number, kept as its 64 bits: sign, 11 bits of exponent,
52 bits of fraction. -/
structure Binary64 where
  bits : UInt64
deriving DecidableEq

namespace Binary64

local instance (priority := high) natPow {α : Type} [NatPow α] : Pow α Nat := instPowNat

def fractions : Nat := 2 ^ (52 : Nat)

def negative (x : Binary64) : Bool := 2 ^ (63 : Nat) ≤ x.bits.toNat

def magnitude (x : Binary64) : Nat := x.bits.toNat % 2 ^ (63 : Nat)

def infinity : Nat := 2047 * fractions

def isNaN (x : Binary64) : Bool := infinity < x.magnitude

def isInfinite (x : Binary64) : Bool := x.magnitude = infinity

def isZero (x : Binary64) : Bool := x.magnitude = 0

/-- Magnitudes grow with the numbers they stand for, so this orders all but NaN,
and the two zeros meet. -/
def rank (x : Binary64) : Int := if x.negative then -x.magnitude else x.magnitude

def compare? (x y : Binary64) : Option Ordering :=
  if x.isNaN || y.isNaN then none else some (compare x.rank y.rank)

def roundHalfEven (n d : Nat) : Nat :=
  let q := n / d
  match compare (2 * (n % d)) d with
  | .lt => q
  | .gt => q + 1
  | .eq => q + q % 2

/-- The magnitude nearest to a positive integer. A fraction that rounds up to a
whole binade carries into the exponent. -/
def magnitudeOf (n : Nat) : Nat :=
  let e := n.log2
  (e + 1022) * fractions + roundHalfEven (n * fractions) (2 ^ e)

def ofInt (n : Int64) : Binary64 :=
  let i := n.toInt
  let m := if i = 0 then 0 else magnitudeOf i.natAbs
  ⟨.ofNat (if i < 0 then 2 ^ (63 : Nat) + m else m)⟩

end Binary64

end RowForest
