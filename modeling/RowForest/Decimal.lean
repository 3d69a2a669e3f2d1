import RowForest.Binary64

namespace RowForest.Decimal

local instance (priority := high) natPow {α : Type} [NatPow α] : Pow α Nat := instPowNat

/-- A finite positive number `m * 2 ^ q`; `narrow` if the gap below it is half the gap above. -/
structure Scaled where
  m : Nat
  q : Int
  narrow : Bool

def Scaled.ofMagnitude (n : Nat) : Scaled :=
  let e : Nat := n / 2 ^ (52 : Nat)
  let f : Nat := n % 2 ^ (52 : Nat)
  if e = 0 then ⟨f, -1074, false⟩ else ⟨2 ^ (52 : Nat) + f, e - 1075, f = 0 ∧ 1 < e⟩

def compareScaled (a : Nat) (i : Int) (n : Nat) (j : Int) : Ordering :=
  compare (a * 10 ^ i.toNat * 2 ^ (-j).toNat) (n * 2 ^ j.toNat * 10 ^ (-i).toNat)

/-- Whether `d * 10 ^ e` lies among the reals that round to `x`: no farther than
halfway to either neighbour, the ends included when `m` is even. -/
def readsBack (x : Scaled) (d : Nat) (e : Int) : Bool :=
  let lo := if x.narrow then 4 * x.m - 1 else 4 * x.m - 2
  let hi := 4 * x.m + 2
  let ends := x.m % 2 = 0
  let below := compareScaled d e lo (x.q - 2)
  let above := compareScaled d e hi (x.q - 2)
  (below = .gt || (ends && below = .eq)) && (above = .lt || (ends && above = .eq))

def floorAt (x : Scaled) (e : Int) : Nat :=
  (x.m * 2 ^ x.q.toNat * 10 ^ (-e).toNat) / (2 ^ (-x.q).toNat * 10 ^ e.toNat)

def scale (x : Scaled) : Int :=
  let k := ((x.m.log2 + x.q) * 30103) / 100000 - 1
  (((List.range 5).map (fun i : Nat => k + i)).find?
    (fun k => compareScaled 1 k x.m x.q = .gt)).getD (k + 5)

/-- The neighbour of `x` on the grid of `10 ^ e` that reads back; the closer of two,
the upper at a tie. -/
def onGrid (x : Scaled) (e : Int) : Option (Nat × Int) :=
  let d := floorAt x e
  match readsBack x d e, readsBack x (d + 1) e with
  | true, true => some (if compareScaled (2 * d + 1) e (2 * x.m) x.q = .gt then d else d + 1, e)
  | true, false => some (d, e)
  | false, true => some (d + 1, e)
  | false, false => none

def shortest (x : Scaled) : Nat × Int :=
  let k := scale x
  ((List.range 17).findSome? (fun n : Nat => onGrid x (k - (n + 1)))).getD
    (x.m * 2 ^ x.q.toNat * 5 ^ (-x.q).toNat, min x.q 0)

def positional (d : Nat) (e : Int) : String :=
  let digits := Nat.toDigits 10 d
  if 0 ≤ e then .ofList (digits ++ .replicate e.toNat '0')
  else
    let places := (-e).toNat
    let padded := List.replicate (places + 1 - digits.length) '0' ++ digits
    let whole := padded.take (padded.length - places)
    let part := ((padded.drop whole.length).reverse.dropWhile (· = '0')).reverse
    .ofList (if part.isEmpty then whole else whole ++ '.' :: part)

end RowForest.Decimal

namespace RowForest.Binary64

def text (x : Binary64) : String :=
  if x.isNaN then "NaN"
  else
    let sign := if x.negative then "-" else ""
    if x.isInfinite then sign ++ "inf"
    else if x.isZero then sign ++ "0"
    else
      let (d, e) := Decimal.shortest (.ofMagnitude x.magnitude)
      sign ++ Decimal.positional d e

end RowForest.Binary64
