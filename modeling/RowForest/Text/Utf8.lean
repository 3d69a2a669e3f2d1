import RowForest.Bytes

namespace RowForest.Utf8

def encodeChar (c : Char) : Bytes :=
  let n := c.toNat
  if n < 0x80 then [.ofNat n]
  else if n < 0x800 then [.ofNat (0xC0 + n / 64), .ofNat (0x80 + n % 64)]
  else if n < 0x10000 then
    [.ofNat (0xE0 + n / 4096), .ofNat (0x80 + n / 64 % 64), .ofNat (0x80 + n % 64)]
  else
    [.ofNat (0xF0 + n / 262144), .ofNat (0x80 + n / 4096 % 64),
      .ofNat (0x80 + n / 64 % 64), .ofNat (0x80 + n % 64)]

def encode (s : String) : Bytes := s.toList.flatMap encodeChar

/-- What the bytes after a first byte complete: a character with so many tail
bytes, damage that spans so many of them, or a character cut off by the end. -/
inductive Head
  | char (c : Char) (tails : Nat)
  | damaged (tails : Nat)
  | cut

/-- Bounds of the second byte. They rule out overlong forms, surrogates and
numbers past the last code point. -/
def second (a : Nat) : Nat × Nat :=
  if a = 0xE0 then (0xA0, 0xBF)
  else if a = 0xED then (0x80, 0x9F)
  else if a = 0xF0 then (0x90, 0xBF)
  else if a = 0xF4 then (0x80, 0x8F)
  else (0x80, 0xBF)

def complete (n k : Nat) : List (Nat × Nat) → Bytes → Head
  | [], _ => .char (.ofNat n) k
  | _ :: _, [] => .cut
  | (lo, hi) :: bounds, b :: bs =>
    if lo ≤ b.toNat ∧ b.toNat ≤ hi then complete (64 * n + (b.toNat - 0x80)) (k + 1) bounds bs
    else .damaged k

def head (a : UInt8) (bs : Bytes) : Head :=
  let n := a.toNat
  if n < 0x80 then .char (.ofNat n) 0
  else if 0xC2 ≤ n ∧ n ≤ 0xDF then complete (n - 0xC0) 0 [(0x80, 0xBF)] bs
  else if 0xE0 ≤ n ∧ n ≤ 0xEF then complete (n - 0xE0) 0 [second n, (0x80, 0xBF)] bs
  else if 0xF0 ≤ n ∧ n ≤ 0xF4 then
    complete (n - 0xF0) 0 [second n, (0x80, 0xBF), (0x80, 0xBF)] bs
  else .damaged 0

/-- Where a byte string stops being text, and how many bytes are at fault there;
no width if the string ends within a character. -/
structure Fault where
  index : Nat
  width : Option Nat
deriving DecidableEq

def Fault.message (f : Fault) : String :=
  match f.width with
  | some w => s!"invalid utf-8 sequence of {w} bytes from index {f.index}"
  | none => s!"incomplete utf-8 byte sequence from index {f.index}"

def decodeFrom (i : Nat) : Bytes → Except Fault (List Char)
  | [] => .ok []
  | a :: bs =>
    match head a bs with
    | .char c k => do return c :: (← decodeFrom (i + 1 + k) (bs.drop k))
    | .damaged k => .error ⟨i, some (k + 1)⟩
    | .cut => .error ⟨i, none⟩
  termination_by bs => bs.length
  decreasing_by rw [List.length_drop, List.length_cons]; omega

def decode (bs : Bytes) : Except Fault String := (decodeFrom 0 bs).map .ofList

def lossyChars : Bytes → List Char
  | [] => []
  | a :: bs =>
    match head a bs with
    | .char c k => c :: lossyChars (bs.drop k)
    | .damaged k => '\uFFFD' :: lossyChars (bs.drop k)
    | .cut => ['\uFFFD']
  termination_by bs => bs.length
  decreasing_by all_goals (rw [List.length_drop, List.length_cons]; omega)

def lossy (bs : Bytes) : String := .ofList (lossyChars bs)

end RowForest.Utf8
