import RowForest.Filter.Basic

namespace RowForest.Filter

def timestampFunction : String := "timestamp"

inductive Draft
  | ident (name : String) (type : NodeType)
  | const (c : Constant)
  | select (operand : Draft) (field : String) (type : NodeType)
  | call (function : String) (args : List Draft)

namespace Draft

def resultType (function : String) : NodeType :=
  if function = timestampFunction then .timestamp else .bool

mutual

/-- Numbers the nodes from `n + 1` on, operands and arguments before the node itself, and
notes their types. The last number used comes back with the node. -/
def number (n : Nat) (types : Types) : Draft → Node × Nat × Types
  | ident name type => (.ident (n + 1) name, n + 1, types.insert (n + 1) type)
  | const c => (.const (n + 1) c, n + 1, types.insert (n + 1) c.type)
  | select operand field type =>
    let (e, n, types) := number n types operand
    (.select (n + 1) e field, n + 1, types.insert (n + 1) type)
  | call function args =>
    let (es, n, types) := numberAll n types args
    (.call (n + 1) function es, n + 1, types.insert (n + 1) (resultType function))

def numberAll (n : Nat) (types : Types) : List Draft → List Node × Nat × Types
  | [] => ([], n, types)
  | d :: ds =>
    let (e, n, types) := number n types d
    let (es, n, types) := numberAll n types ds
    (e :: es, n, types)

end

def build (d : Draft) : Filter :=
  let (e, _, types) := d.number 0 .empty
  some ⟨e, types⟩

end Draft

end RowForest.Filter
