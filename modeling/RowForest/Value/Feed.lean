import RowForest.Value.Basic

namespace RowForest

inductive Piece
  | variant (n : Nat)
  | length (n : Nat)
  | number (n : Int)
  | text (s : String)
  | bytes (bs : Bytes)
deriving DecidableEq

namespace Value

mutual

/-- What a value feeds to a hash: its variant and then its contents. Arrays also feed
their length. Structs do not, and feed their columns in the order they stand in. -/
def feed : Value → List Piece
  | null => [.variant 0]
  | bool b => [.variant 1, .number b.toNat]
  | int64 i => [.variant 2, .number i.toInt]
  | float64 x => [.variant 3, .number x.bits.toNat]
  | string s => [.variant 4, .text s]
  | bytes bs => [.variant 5, .length bs.length, .bytes bs]
  | date d => [.variant 6, .number d.days]
  | timestamp t => [.variant 7, .number t.seconds, .number t.nanos]
  | numeric s => [.variant 8, .text s]
  | json s => [.variant 9, .text s]
  | array items => .variant 10 :: .length items.length :: feedItems items
  | struct fields => .variant 11 :: feedFields fields
termination_by structural x => x

def feedItems : List Value → List Piece
  | [] => []
  | v :: vs => v.feed ++ feedItems vs
termination_by structural x => x

def feedFields : List (String × Value) → List Piece
  | [] => []
  | (c, v) :: fs => .text c :: (v.feed ++ feedFields fs)
termination_by structural x => x

end

/-- Whether a hash set takes two values for one: they are equal, and so is what they feed. -/
def coincides (v w : Value) : Bool := v.equal w && v.feed = w.feed

def distinct (vs : List Value) : List Value :=
  vs.foldl (fun seen v => if seen.any v.coincides then seen else seen ++ [v]) []

end Value

end RowForest
