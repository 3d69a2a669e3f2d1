import RowForest.Key.Basic
import RowForest.Sql.Query

namespace RowForest.Key

def parameterName (label : String) (i : Nat) : String := label ++ "_" ++ toString i

/-- The conditions on the key columns from position `i` on. Null parts ask for null. -/
def conditions (label : String) : Nat → List (String × Value) → List Sql.Expr
  | _, [] => []
  | i, (c, v) :: parts =>
    (if v.isNull then .isNull (.column c) false
      else .equals (.column c) (.param (parameterName label i))) :: conditions label (i + 1) parts

def bindings (label : String) : Nat → List (String × Value) → List (String × Value)
  | _, [] => []
  | i, (_, v) :: parts =>
    let rest := bindings label (i + 1) parts
    if v.isNull then rest else (parameterName label i, v) :: rest

def predicate (k : Key) (t : Table) (label : String) : Sql.Expr :=
  .paren (.conjunction (conditions label 0 (t.keyColumns.zip k.values)))

def bind (k : Key) (t : Table) (label : String) (ps : Params) : Params :=
  ps.insertAll (bindings label 0 (t.keyColumns.zip k.values))

def order (t : Table) : List Sql.Order := t.primaryKey.map (fun p => ⟨.column p.column, p.desc⟩)

end RowForest.Key
