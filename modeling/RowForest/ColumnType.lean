import RowForest.Value.Printer

namespace RowForest

inductive Length
  | max
  | fixed (n : Int64)
deriving DecidableEq

structure ColumnType where
  base : BaseType
  array : Bool := false
  length : Option Length := none
deriving DecidableEq

namespace ColumnType

def scalar (base : BaseType) : ColumnType := { base }

/-- Whether a value can be stored in a column of this type. Null always can, also
within an array, and lengths are not enforced. -/
def accepts (t : ColumnType) : Value → Bool
  | .null => true
  | .array items => t.array && items.all (fun v => v.isNull || v.baseType? = some t.base)
  | v => !t.array && v.baseType? = some t.base

def lengthText : Option Length → String
  | some .max => "(MAX)"
  | some (.fixed n) => "(" ++ toString n.toInt ++ ")"
  | none => ""

def text (t : ColumnType) : String :=
  let scalar := t.base.text ++ lengthText t.length
  if t.array then "ARRAY<" ++ scalar ++ ">" else scalar

end ColumnType

end RowForest
