namespace RowForest

abbrev Bytes := List UInt8

namespace Bytes

/-- Powers are the core library's, also beside an algebraic hierarchy that has its own. -/
local instance (priority := high) natPow {α : Type} [NatPow α] : Pow α Nat := instPowNat

def bigEndian : Nat → Nat → Bytes
  | 0, _ => []
  | w + 1, n => .ofNat (n / 256 ^ w) :: bigEndian w n

def ofBigEndian (bs : Bytes) : Nat :=
  bs.foldl (fun n b => 256 * n + b.toNat) 0

def littleEndian : Nat → Nat → Bytes
  | 0, _ => []
  | w + 1, n => .ofNat n :: littleEndian w (n / 256)

def ofLittleEndian : Bytes → Nat
  | [] => 0
  | b :: bs => b.toNat + 256 * ofLittleEndian bs

def hexDigit (n : Nat) : Char :=
  if n < 10 then .ofNat (0x30 + n) else .ofNat (0x57 + n)

def hexPair (b : UInt8) : List Char :=
  [hexDigit (b.toNat / 16), hexDigit (b.toNat % 16)]

def hex (bs : Bytes) : String := .ofList (bs.flatMap hexPair)

def hexValue (c : Char) : Option Nat :=
  if c.isDigit then some (c.toNat - 0x30)
  else if 'a' ≤ c ∧ c ≤ 'f' then some (c.toNat - 0x57)
  else none

def ofHexDigits : List Char → Option Bytes
  | [] => some []
  | [_] => none
  | h :: l :: cs => do
    let h ← hexValue h
    let l ← hexValue l
    let bs ← ofHexDigits cs
    return .ofNat (16 * h + l) :: bs

def ofHex? (s : String) : Option Bytes := ofHexDigits s.toList

end Bytes

end RowForest
