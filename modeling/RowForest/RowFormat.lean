import RowForest.Calendar.Reader
import RowForest.Row
import RowForest.Text.Utf8

namespace RowForest.RowFormat

local instance (priority := high) natPow {α : Type} [NatPow α] : Pow α Nat := instPowNat

inductive Fault
  | cutNumber
  | cutText
  | notBool (n : Nat)
  | notText (fault : Utf8.Fault)
  | variant (n : Nat)
  | calendar (fault : Calendar.Fault)
  | tooLarge

def Fault.message : Fault → String
  | cutNumber => "io error: unexpected end of file"
  | cutText => "io error: "
  | notBool n => s!"invalid u8 while decoding bool, expected 0 or 1, found {n}"
  | notText fault => "string is not valid utf8: " ++ fault.message
  | variant n => s!"invalid value: integer \x60{n}\x60, expected variant index 0 <= i < 12"
  | calendar fault => fault.message
  | tooLarge => "the size limit has been reached"

def number (w n : Nat) : Bytes := Bytes.littleEndian w n

def encodeBytes (bs : Bytes) : Bytes := number 8 bs.length ++ bs

def encodeText (s : String) : Bytes := encodeBytes (Utf8.encode s)

def timestampText (t : Timestamp) : String := t.zonedText "Z"

mutual

/-- Four bytes of variant and then the contents. Numbers have a fixed width and the
low byte first; texts, arrays and rows have their length in front. -/
def encodeValue : Value → Bytes
  | .null => number 4 0
  | .bool b => number 4 1 ++ number 1 b.toNat
  | .int64 i => number 4 2 ++ number 8 i.toUInt64.toNat
  | .float64 x => number 4 3 ++ number 8 x.bits.toNat
  | .string s => number 4 4 ++ encodeText s
  | .bytes bs => number 4 5 ++ encodeBytes bs
  | .date d => number 4 6 ++ encodeText d.text
  | .timestamp t => number 4 7 ++ encodeText (timestampText t)
  | .numeric s => number 4 8 ++ encodeText s
  | .json s => number 4 9 ++ encodeText s
  | .array items => number 4 10 ++ number 8 items.length ++ encodeItems items
  | .struct fields => number 4 11 ++ number 8 fields.length ++ encodeFields fields
termination_by structural x => x

def encodeItems : List Value → Bytes
  | [] => []
  | v :: vs => encodeValue v ++ encodeItems vs
termination_by structural x => x

def encodeFields : List (String × Value) → Bytes
  | [] => []
  | (c, v) :: fs => encodeText c ++ encodeValue v ++ encodeFields fs
termination_by structural x => x

end

def encode (r : Row) : Bytes := number 8 r.fields.length ++ encodeFields r.fields

def store (r : Row) : Except Fault Bytes :=
  if (encode r).length < 2 ^ (64 : Nat) then .ok (encode r) else .error .tooLarge

abbrev Reader (α : Type) := Bytes → Except Fault (α × Bytes)

def decodeNumber (w : Nat) : Reader Nat := fun bs =>
  if bs.length < w then .error .cutNumber
  else .ok (Bytes.ofLittleEndian (bs.take w), bs.drop w)

def decodeBytes : Reader Bytes := fun bs => do
  let (n, bs) ← decodeNumber 8 bs
  if bs.length < n then .error .cutText else .ok (bs.take n, bs.drop n)

def decodeText : Reader String := fun bs => do
  let (ds, rest) ← decodeBytes bs
  match Utf8.decode ds with
  | .ok s => .ok (s, rest)
  | .error fault => .error (.notText fault)

def decodeBool : Reader Bool := fun bs => do
  let (n, rest) ← decodeNumber 1 bs
  match n with
  | 0 => .ok (false, rest)
  | 1 => .ok (true, rest)
  | n => .error (.notBool n)

def decodeCalendar {α : Type} (read : String → Except Calendar.Fault α) : Reader α := fun bs => do
  let (s, rest) ← decodeText bs
  match read s with
  | .ok a => .ok (a, rest)
  | .error fault => .error (.calendar fault)

mutual

/-- The first argument bounds the nesting and the number of items. A value takes at
least four bytes, so as many as there are bytes is enough. -/
def decodeValue : Nat → Reader Value
  | 0, _ => .error .cutNumber
  | fuel + 1, bs => do
    let (tag, bs) ← decodeNumber 4 bs
    match tag with
    | 0 => .ok (.null, bs)
    | 1 => do
      let (b, rest) ← decodeBool bs
      .ok (.bool b, rest)
    | 2 => do
      let (n, rest) ← decodeNumber 8 bs
      .ok (.int64 (UInt64.ofNat n).toInt64, rest)
    | 3 => do
      let (n, rest) ← decodeNumber 8 bs
      .ok (.float64 ⟨.ofNat n⟩, rest)
    | 4 => do
      let (s, rest) ← decodeText bs
      .ok (.string s, rest)
    | 5 => do
      let (ds, rest) ← decodeBytes bs
      .ok (.bytes ds, rest)
    | 6 => do
      let (d, rest) ← decodeCalendar Calendar.readFreeDate bs
      .ok (.date d, rest)
    | 7 => do
      let (t, rest) ← decodeCalendar Calendar.readFreeTimestamp bs
      .ok (.timestamp t, rest)
    | 8 => do
      let (s, rest) ← decodeText bs
      .ok (.numeric s, rest)
    | 9 => do
      let (s, rest) ← decodeText bs
      .ok (.json s, rest)
    | 10 => do
      let (n, bs) ← decodeNumber 8 bs
      let (vs, rest) ← decodeItems fuel n bs
      .ok (.array vs, rest)
    | 11 => do
      let (n, bs) ← decodeNumber 8 bs
      let (r, rest) ← decodeFields fuel n .empty bs
      .ok (r.toValue, rest)
    | n => .error (.variant n)

def decodeItems : Nat → Nat → Reader (List Value)
  | _, 0, bs => .ok ([], bs)
  | 0, _, _ => .error .cutNumber
  | fuel + 1, n + 1, bs => do
    let (v, bs) ← decodeValue fuel bs
    let (vs, rest) ← decodeItems fuel n bs
    .ok (v :: vs, rest)

def decodeFields : Nat → Nat → Row → Reader Row
  | _, 0, r, bs => .ok (r, bs)
  | 0, _, _, _ => .error .cutNumber
  | fuel + 1, n + 1, r, bs => do
    let (c, bs) ← decodeText bs
    let (v, bs) ← decodeValue fuel bs
    decodeFields fuel n (r.set c v) bs

end

def decodeRow : Reader Row := fun bs => do
  let (n, rest) ← decodeNumber 8 bs
  decodeFields (rest.length + 1) n .empty rest

def decode (bs : Bytes) : Except Fault Row := (decodeRow bs).map Prod.fst

end RowForest.RowFormat
