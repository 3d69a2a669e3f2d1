import RowForest.Calendar.Timestamp

namespace RowForest.Calendar

local instance (priority := high) natPow {α : Type} [NatPow α] : Pow α Nat := instPowNat

inductive Fault
  | invalid
  | tooShort
  | outOfRange
  | trailing
  | impossible
deriving DecidableEq

def Fault.message : Fault → String
  | .invalid => "input contains invalid characters"
  | .tooShort => "premature end of input"
  | .outOfRange => "input is out of range"
  | .trailing => "trailing input"
  | .impossible => "no possible date and time matching input"

def isBlank (c : Char) : Bool :=
  let n := c.toNat
  (9 ≤ n && n ≤ 13) || n == 0x20 || n == 0x85 || n == 0xA0 || n == 0x1680 ||
    (0x2000 ≤ n && n ≤ 0x200A) || n == 0x2028 || n == 0x2029 || n == 0x202F ||
    n == 0x205F || n == 0x3000

def trimStart (cs : List Char) : List Char := cs.dropWhile isBlank

def digitValue (c : Char) : Nat := c.toNat - 0x30

def decimal (cs : List Char) : Nat := cs.foldl (fun n c => 10 * n + digitValue c) 0

def number (width : Nat) (cs : List Char) : Except Fault (Nat × List Char) :=
  match cs with
  | [] => .error .tooShort
  | c :: _ =>
    if c.isDigit then
      let ds := (cs.take width).takeWhile Char.isDigit
      .ok (decimal ds, cs.drop ds.length)
    else .error .invalid

def literal (c : Char) : List Char → Except Fault (List Char)
  | [] => .error .tooShort
  | d :: cs => if d = c then .ok cs else .error .invalid

def pair : List Char → Except Fault (Char × Char × List Char)
  | c :: d :: cs => .ok (c, d, cs)
  | [c] => .error (if c.utf8Size = 1 then .tooShort else .invalid)
  | [] => .error .tooShort

def fraction (cs : List Char) : Except Fault (Nat × List Char) := do
  let (n, rest) ← number 9 cs
  return (n * 10 ^ (9 - (cs.length - rest.length)), rest.dropWhile Char.isDigit)

def offset (separator : List Char → Except Fault (List Char)) (cs : List Char) : Except Fault (Int × List Char) := do
  let (sign, cs) : Int × List Char ← match cs with
    | [] => .error .tooShort
    | c :: cs =>
      if c = '+' then .ok (1, cs)
      else if c = '-' ∨ c = '\u2212' then .ok (-1, cs)
      else .error .invalid
  let (h₁, h₂, cs) ← pair cs
  if !(h₁.isDigit && h₂.isDigit) then .error .invalid
  let cs ← separator cs
  let (m₁, m₂, rest) ← pair cs
  if !(m₁.isDigit && m₂.isDigit) then .error .invalid
  if '6' ≤ m₁ then .error .outOfRange
  return (sign * (decimal [h₁, h₂] * 3600 + decimal [m₁, m₂] * 60 : Nat), rest)

def isZulu (c : Char) : Bool := c = 'Z' || c = 'z'

def timeOfDay (h m s nanos : Nat) : Except Fault (Nat × Nat) :=
  if h < 24 ∧ m < 60 ∧ s ≤ 60 then
    .ok (if s = 60 then (3600 * h + 60 * m + 59, 1000000000 + nanos)
      else (3600 * h + 60 * m + s, nanos))
  else .error .outOfRange

/-- The instant that a clock shows which is `offset` seconds ahead of universal time. -/
def instant (d : Date) (time : Nat × Nat) (offset : Int) : Option Timestamp :=
  Timestamp.ofUnix? ((d.days - unixEpochDay) * 86400 + time.1 - offset) time.2

def twoDigits : List Char → Except Fault (Nat × List Char)
  | c :: d :: cs => if c.isDigit && d.isDigit then .ok (decimal [c, d], cs) else .error .invalid
  | _ => .error .invalid

def mark (ok : Char → Bool) : List Char → Except Fault (List Char)
  | c :: cs => if ok c then .ok cs else .error .invalid
  | [] => .error .invalid

/-- Internet date and time. Every field has its fixed width, a space or a letter of
either case may stand before the time, and the zone is a letter or an offset with a colon. -/
def readTimestamp (s : String) : Except Fault Timestamp := do
  if s.utf8ByteSize < 19 then .error .tooShort
  let cs := s.toList
  let (century, cs) ← twoDigits cs
  let (year, cs) ← twoDigits cs
  let cs ← mark (· = '-') cs
  let (month, cs) ← twoDigits cs
  let cs ← mark (· = '-') cs
  let (day, cs) ← twoDigits cs
  let some date := Date.ofCivil? (100 * century + year : Nat) month day | .error .outOfRange
  let cs ← mark (fun c => c = 'T' || c = 't' || c = ' ') cs
  let (hour, cs) ← twoDigits cs
  let cs ← mark (· = ':') cs
  let (minute, cs) ← twoDigits cs
  let cs ← mark (· = ':') cs
  let (second, cs) ← twoDigits cs
  let (nanos, cs) ← match cs with
    | '.' :: cs => fraction cs
    | cs => .ok (0, cs)
  let time ← timeOfDay hour minute second nanos
  let (zone, cs) ← match cs with
    | c :: rest => if isZulu c then .ok (0, rest) else offset (literal ':') cs
    | [] => offset (literal ':') cs
  if !cs.isEmpty then .error .trailing
  if 86400 ≤ zone.natAbs then .error .outOfRange
  let some t := instant date time zone | .error .impossible
  return t

def freeYear (cs : List Char) : Except Fault (Int × List Char) := do
  let (y, cs) : Int × List Char ← match trimStart cs with
    | '-' :: cs => do
      let (n, rest) ← number cs.length cs
      .ok (-n, rest)
    | '+' :: cs => do
      let (n, rest) ← number cs.length cs
      .ok (n, rest)
    | cs => do
      let (n, rest) ← number 4 cs
      .ok (n, rest)
  if y < -2147483648 ∨ 2147483647 < y then .error .outOfRange
  return (y, cs)

def freeField (lo hi : Nat) (cs : List Char) : Except Fault (Nat × List Char) := do
  let (n, rest) ← number 2 (trimStart cs)
  if n < lo ∨ hi < n then .error .outOfRange
  return (n, rest)

def freeDate (cs : List Char) : Except Fault ((Int × Nat × Nat) × List Char) := do
  let (y, cs) ← freeYear cs
  let cs ← literal '-' (trimStart cs)
  let (m, cs) ← freeField 1 12 cs
  let cs ← literal '-' (trimStart cs)
  let (d, cs) ← freeField 1 31 cs
  return ((y, m, d), cs)

def readFreeDate (s : String) : Except Fault Date := do
  let ((y, m, d), cs) ← freeDate s.toList
  if !(trimStart cs).isEmpty then .error .trailing
  let some date := Date.ofCivil? y m d | .error .outOfRange
  return date

def isNamedUtc (cs : List Char) : Bool := (cs.take 3).map Char.toLower = ['u', 't', 'c']

/-- Date and time with optional blanks between the fields, and a zone that is a letter,
the name of universal time or an offset. -/
def readFreeTimestamp (s : String) : Except Fault Timestamp := do
  let ((y, m, d), cs) ← freeDate s.toList
  let cs ← match cs with
    | [] => .error .tooShort
    | c :: cs => if c = 'T' ∨ c = 't' ∨ c = ' ' then .ok cs else .error .invalid
  let (hour, cs) ← freeField 0 23 cs
  let cs ← literal ':' (trimStart cs)
  let (minute, cs) ← freeField 0 59 cs
  let cs ← literal ':' (trimStart cs)
  let (second, cs) ← freeField 0 60 cs
  let (nanos, cs) ← match cs with
    | '.' :: cs => fraction cs
    | cs => .ok (0, cs)
  let cs := trimStart cs
  let (zone, cs) ←
    if isNamedUtc cs then .ok (0, cs.drop 3)
    else match cs with
      | c :: rest =>
        if isZulu c then .ok (0, rest)
        else offset (fun cs => .ok (cs.dropWhile (fun c => c = ':' || isBlank c))) cs
      | [] => .error .tooShort
  if !(trimStart cs).isEmpty then .error .trailing
  let some date := Date.ofCivil? y m d | .error .outOfRange
  let time ← timeOfDay hour minute second nanos
  if 86400 ≤ zone.natAbs then .error .outOfRange
  let some t := instant date time zone | .error .impossible
  return t

end RowForest.Calendar
