import RowForest.Value.Printer

namespace RowForest.KeyFormat

local instance (priority := high) natPow {α : Type} [NatPow α] : Pow α Nat := instPowNat

inductive Fault
  | short (expected got : Nat)
  | escape (b : UInt8)
  | tag (b : UInt8)
  | trailing (bs : Bytes)
  | date (days : Int)
  | timestamp (seconds : Int) (nanos : Nat)
  | text (fault : Utf8.Fault)
  | composite (v : Value)

def Fault.message : Fault → String
  | short expected got => s!"insufficient bytes, expected {expected} got {got}"
  | escape b => "invalid escape sequence 0x00" ++ Bytes.hex [b]
  | tag b => "invalid key tag 0x" ++ Bytes.hex [b]
  | trailing bs =>
    "unexpected trailing bytes [" ++
      commaSeparated (bs.map (fun b => Text.hexDigits b.toNat)) ++ "] at end of key"
  | date days => s!"invalid date {days}"
  | timestamp s n => s!"invalid timestamp {s}.{n}"
  | text fault => fault.message
  | composite v => "value " ++ v.text ++ " cannot be part of a key"

/-- Zero bytes are followed by `0xff`, and two zero bytes end the text, so no
encoding starts another. -/
def escaped : Bytes → Bytes
  | [] => [0, 0]
  | b :: bs => if b = 0 then 0 :: 0xff :: escaped bs else b :: escaped bs

def encodeInt (i : Int) : Bytes := Bytes.bigEndian 8 (i + 2 ^ (63 : Nat)).toNat

/-- The bits of a negative float are all flipped, those of any other in the sign alone. -/
def floatKey (x : Binary64) : Nat :=
  let n := x.bits.toNat
  if 2 ^ (63 : Nat) ≤ n then 2 ^ (64 : Nat) - 1 - n else n + 2 ^ (63 : Nat)

def floatOfKey (n : Nat) : Binary64 :=
  ⟨.ofNat (if 2 ^ (63 : Nat) ≤ n then n - 2 ^ (63 : Nat) else 2 ^ (64 : Nat) - 1 - n)⟩

def encodeValue : Value → Except Fault Bytes
  | .null => .ok [0x00]
  | .bool b => .ok [0x01, if b then 1 else 0]
  | .int64 i => .ok (0x02 :: encodeInt i.toInt)
  | .float64 x => .ok (0x03 :: Bytes.bigEndian 8 (floatKey x))
  | .string s => .ok (0x04 :: escaped (Utf8.encode s))
  | .bytes bs => .ok (0x05 :: escaped bs)
  | .date d => .ok (0x06 :: encodeInt d.days)
  | .timestamp t => .ok (0x07 :: encodeInt t.seconds ++ Bytes.bigEndian 4 t.nanos)
  | .numeric s => .ok (0x08 :: escaped (Utf8.encode s))
  | .json s => .ok (0x09 :: escaped (Utf8.encode s))
  | v@(.array _) | v@(.struct _) => .error (.composite v)

def turn (desc : Bool) (b : UInt8) : UInt8 := if desc then ~~~b else b

def encodeName (table : String) : Bytes := escaped (Utf8.encode table)

def encodeParts : List (Value × Bool) → Except Fault Bytes
  | [] => .ok []
  | (v, desc) :: parts => do
    let bs ← encodeValue v
    return bs.map (turn desc) ++ (← encodeParts parts)

/-- The table name and then the key's values, each with its direction. Fewer values
than the primary key has give what all keys under them start with. -/
def encode (table : String) (parts : List (Value × Bool)) : Except Fault Bytes :=
  return encodeName table ++ (← encodeParts parts)

def takeTurned (desc : Bool) (n : Nat) (bs : Bytes) : Except Fault (Bytes × Bytes) :=
  if bs.length < n then .error (.short n bs.length)
  else .ok ((bs.take n).map (turn desc), bs.drop n)

def decodeByte (desc : Bool) : Bytes → Except Fault (UInt8 × Bytes)
  | [] => .error (.short 1 0)
  | b :: bs => .ok (turn desc b, bs)

def decodeInt (desc : Bool) (bs : Bytes) : Except Fault (Int × Bytes) := do
  let (ds, rest) ← takeTurned desc 8 bs
  return (Bytes.ofBigEndian ds - 2 ^ (63 : Nat), rest)

def unescape (desc : Bool) : Bytes → Except Fault (Bytes × Bytes)
  | [] => .error (.short 1 0)
  | [_] => .error (.short 1 0)
  | b :: c :: bs =>
    if turn desc b = 0 then
      if turn desc c = 0 then .ok ([], bs)
      else if turn desc c = 0xff then do
        let (ds, rest) ← unescape desc bs
        return (0 :: ds, rest)
      else .error (.escape (turn desc c))
    else do
      let (ds, rest) ← unescape desc (c :: bs)
      return (turn desc b :: ds, rest)

def decodeText (desc : Bool) (bs : Bytes) : Except Fault (String × Bytes) := do
  let (ds, rest) ← unescape desc bs
  match Utf8.decode ds with
  | .ok s => return (s, rest)
  | .error fault => .error (.text fault)

def decodeValue (desc : Bool) (bs : Bytes) : Except Fault (Value × Bytes) := do
  let (tag, bs) ← decodeByte desc bs
  match tag with
  | 0x00 => return (.null, bs)
  | 0x01 => do
    let (b, rest) ← decodeByte desc bs
    return (.bool (b != 0), rest)
  | 0x02 => do
    let (i, rest) ← decodeInt desc bs
    return (.int64 (.ofInt i), rest)
  | 0x03 => do
    let (ds, rest) ← takeTurned desc 8 bs
    return (.float64 (floatOfKey (Bytes.ofBigEndian ds)), rest)
  | 0x04 => do
    let (s, rest) ← decodeText desc bs
    return (.string s, rest)
  | 0x05 => do
    let (ds, rest) ← unescape desc bs
    return (.bytes ds, rest)
  | 0x06 => do
    let (n, rest) ← decodeInt desc bs
    match Date.ofDays? n with
    | some d => return (.date d, rest)
    | none => .error (.date n)
  | 0x07 => do
    let (s, bs) ← decodeInt desc bs
    let (ds, rest) ← takeTurned desc 4 bs
    let n := Bytes.ofBigEndian ds
    match Timestamp.ofUnix? s n with
    | some t => return (.timestamp t, rest)
    | none => .error (.timestamp s n)
  | 0x08 => do
    let (s, rest) ← decodeText desc bs
    return (.numeric s, rest)
  | 0x09 => do
    let (s, rest) ← decodeText desc bs
    return (.json s, rest)
  | tag => .error (.tag tag)

def decodeParts : List Bool → Bytes → Except Fault (List Value × Bytes)
  | [], bs => .ok ([], bs)
  | desc :: descs, bs => do
    let (v, bs) ← decodeValue desc bs
    let (vs, rest) ← decodeParts descs bs
    return (v :: vs, rest)

def decode (key : Bytes) (descs : List Bool) : Except Fault (String × List Value) := do
  let (table, bs) ← decodeText false key
  let (vs, rest) ← decodeParts descs bs
  if rest.isEmpty then return (table, vs) else .error (.trailing rest)

end RowForest.KeyFormat
