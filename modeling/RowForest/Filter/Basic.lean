import RowForest.Bytes
import RowForest.Binary64
import RowForest.SortedMap

namespace RowForest.Filter

inductive Constant
  | bool (b : Bool)
  | int64 (i : Int64)
  | uint64 (u : UInt64)
  | double (x : Binary64)
  | string (s : String)
  | bytes (bs : Bytes)
deriving DecidableEq

inductive NodeType
  | bool
  | int64
  | uint64
  | double
  | string
  | bytes
  | timestamp
  | duration
  | enum (name : String) (values : List (String × Int))
  | list (item : NodeType)
  | message (name : String)
deriving DecidableEq

def NodeType.isPrimitive : NodeType → Bool
  | bool | int64 | uint64 | double | string | bytes => true
  | _ => false

def Constant.type : Constant → NodeType
  | bool _ => .bool
  | int64 _ => .int64
  | uint64 _ => .uint64
  | double _ => .double
  | string _ => .string
  | bytes _ => .bytes

inductive Node
  | ident (id : Int) (name : String)
  | const (id : Int) (c : Constant)
  | select (id : Int) (operand : Node) (field : String)
  | call (id : Int) (function : String) (args : List Node)

def Node.id : Node → Int
  | ident id _ | const id _ | select id _ _ | call id _ _ => id

abbrev Types := SortedMap Int NodeType

structure Checked where
  root : Node
  types : Types

end RowForest.Filter

namespace RowForest

/-- A parsed filter; nothing if its text was empty. -/
abbrev Filter := Option Filter.Checked

end RowForest
