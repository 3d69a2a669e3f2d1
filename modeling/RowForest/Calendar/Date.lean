namespace RowForest

/-- A day of the proleptic Gregorian calendar, counted so that 0001-01-01 is day 1.
Years run from -262143 to 262142. -/
structure Date where
  days : Int
  first : -95746129 ≤ days := by omega
  last : days ≤ 95745399 := by omega
deriving DecidableEq

namespace Date

def ofDays? (n : Int) : Option Date :=
  if h : -95746129 ≤ n ∧ n ≤ 95745399 then some ⟨n, h.1, h.2⟩ else none

structure Civil where
  year : Int
  month : Nat
  day : Nat
deriving DecidableEq

def leapYear (y : Int) : Bool := y % 4 = 0 && (y % 100 != 0 || y % 400 = 0)

def monthLength (y : Int) (m : Nat) : Nat :=
  if m = 2 then if leapYear y then 29 else 28
  else if m = 4 ∨ m = 6 ∨ m = 9 ∨ m = 11 then 30
  else 31

/-- Years are counted from March, which puts the leap day last, in cycles of
400 years of 146097 days. -/
def civil (d : Date) : Civil :=
  let z := d.days + 305
  let cycle := z / 146097
  let n := (z % 146097).toNat
  let y := (n - n / 1460 + n / 36524 - n / 146096) / 365
  let r := n - (365 * y + y / 4 - y / 100)
  let m := (5 * r + 2) / 153
  let day := r - (153 * m + 2) / 5 + 1
  if m < 10 then ⟨y + cycle * 400, m + 3, day⟩ else ⟨y + cycle * 400 + 1, m - 9, day⟩

def dayNumber (year : Int) (month day : Nat) : Int :=
  let y := if month ≤ 2 then year - 1 else year
  let m := if month ≤ 2 then month + 9 else month - 3
  let c := (y % 400).toNat
  y / 400 * 146097 + (c * 365 + c / 4 - c / 100 + (153 * m + 2) / 5 + day : Nat) - 306

def ofCivil? (year : Int) (month day : Nat) : Option Date :=
  if 1 ≤ month ∧ month ≤ 12 ∧ 1 ≤ day ∧ day ≤ monthLength year month then
    ofDays? (dayNumber year month day)
  else none

def padded (w n : Nat) : String :=
  let ds := Nat.toDigits 10 n
  .ofList (List.replicate (w - ds.length) '0' ++ ds)

def yearText (y : Int) : String :=
  if 0 ≤ y ∧ y ≤ 9999 then padded 4 y.toNat
  else (if y < 0 then "-" else "+") ++ padded 4 y.natAbs

def text (d : Date) : String :=
  let c := d.civil
  yearText c.year ++ "-" ++ padded 2 c.month ++ "-" ++ padded 2 c.day

end Date

end RowForest
