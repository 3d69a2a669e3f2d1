import RowForest.Calendar.Date

namespace RowForest

def unixEpochDay : Int := 719163

/-- An instant in universal time: seconds since 1970 and nanoseconds. A leap second
is the second after a :59, written as a thousand million nanoseconds or more. -/
structure Timestamp where
  seconds : Int
  nanos : Nat
  first : -95746129 ≤ seconds / 86400 + 719163 := by omega
  last : seconds / 86400 + 719163 ≤ 95745399 := by omega
  nanos_lt : nanos < 1000000000 ∨ nanos < 2000000000 ∧ seconds % 60 = 59 := by omega
deriving DecidableEq

namespace Timestamp

def ofUnix? (s : Int) (n : Nat) : Option Timestamp :=
  if h : (-95746129 ≤ s / 86400 + 719163 ∧ s / 86400 + 719163 ≤ 95745399) ∧
      (n < 1000000000 ∨ n < 2000000000 ∧ s % 60 = 59) then
    some ⟨s, n, h.1.1, h.1.2, h.2⟩
  else none

def date (t : Timestamp) : Date := ⟨t.seconds / 86400 + 719163, t.first, t.last⟩

def compare (s t : Timestamp) : Ordering :=
  (Ord.compare s.seconds t.seconds).then (Ord.compare s.nanos t.nanos)

def fractionText (n : Nat) : String :=
  if n = 0 then ""
  else if n % 1000000 = 0 then "." ++ Date.padded 3 (n / 1000000)
  else if n % 1000 = 0 then "." ++ Date.padded 6 (n / 1000)
  else "." ++ Date.padded 9 n

def zonedText (zone : String) (t : Timestamp) : String :=
  let s := (t.seconds % 86400).toNat
  let leap := if t.nanos < 1000000000 then 0 else 1
  t.date.text ++ "T" ++ Date.padded 2 (s / 3600) ++ ":" ++ Date.padded 2 (s / 60 % 60) ++ ":" ++
    Date.padded 2 (s % 60 + leap) ++ fractionText (t.nanos % 1000000000) ++ zone

def text (t : Timestamp) : String := t.zonedText "+00:00"

end Timestamp

end RowForest
