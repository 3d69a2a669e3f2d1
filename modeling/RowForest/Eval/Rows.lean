import RowForest.Error
import RowForest.Eval.Value
import RowForest.Sql.Query

namespace RowForest.Eval

abbrev Source := String → Except Error (List Row)

def evalIn (s : Scope) (e : Sql.Expr) : Except Error Value := (eval s e).mapError .eval

def countOf (s : Scope) (keyword : String) (e : Sql.Expr) : Except Error Nat := do
  match ← evalIn s e with
  | .int64 n => if 0 ≤ n.toInt then return n.toInt.toNat else .error (.eval (.badCount keyword (.int64 n)))
  | v => .error (.eval (.badCount keyword v))

def optionalCount (s : Scope) (keyword : String) : Option Sql.Expr → Except Error (Option Nat)
  | none => .ok none
  | some e => do return some (← countOf s keyword e)

def keeps (s : Scope) (table : String) (filter : Option Sql.Expr) (r : Row) : Except Error Bool :=
  match filter with
  | none => .ok true
  | some e => do
    match ← evalIn (s.push table r) e with
    | .bool b => return b
    | _ => return false

def keepWhere (s : Scope) (table : String) (filter : Option Sql.Expr) :
    List Row → Except Error (List Row)
  | [] => .ok []
  | r :: rs => do
    let kept ← keeps s table filter r
    let rs ← keepWhere s table filter rs
    return if kept then r :: rs else rs

def sortKeys (s : Scope) : List Sql.Order → Except Error (List Value)
  | [] => .ok []
  | o :: os => do return (← evalIn s o.key) :: (← sortKeys s os)

def withKeys (s : Scope) (table : String) (order : List Sql.Order) :
    List Row → Except Error (List (List Value × Row))
  | [] => .ok []
  | r :: rs => do
    let ks ← sortKeys (s.push table r) order
    return (ks, r) :: (← withKeys s table order rs)

/-- The first pair of keys that differs decides. Keys without an order count as equal. -/
def compareKeys : List Sql.Order → List Value → List Value → Ordering
  | o :: os, v :: vs, w :: ws =>
    match v.compare? w with
    | some .lt => if o.desc then .gt else .lt
    | some .gt => if o.desc then .lt else .gt
    | _ => compareKeys os vs ws
  | _, _, _ => .eq

def sortRows (s : Scope) (table : String) (order : List Sql.Order) (rs : List Row) :
    Except Error (List Row) :=
  if order.isEmpty then .ok rs
  else do
    let keyed ← withKeys s table order rs
    return (keyed.mergeSort (fun a b => (compareKeys order a.1 b.1).isLE)).map Prod.snd

/-- The rows that a query selects, before its items are computed. The limit is evaluated
first, then the offset, the condition and the sort keys. -/
def select (source : Source) (s : Scope) (table : String) (filter : Option Sql.Expr)
    (order : List Sql.Order) (limit offset : Option Sql.Expr) : Except Error (List Row) := do
  let limit ← optionalCount s "LIMIT" limit
  let offset ← optionalCount s "OFFSET" offset
  let rs ← keepWhere s table filter (← source table)
  let rs ← sortRows s table order rs
  let rs := rs.drop (offset.getD 0)
  return match limit with
    | none => rs
    | some n => rs.take n

mutual

def run (source : Source) (s : Scope) : Sql.Query → Except Error (List Row)
  | ⟨_, items, table, filter, order, limit, offset⟩ => do
    let rs ← select source s table filter order limit offset
    rs.mapM (fun r => project source (s.push table r) r items .empty)
termination_by structural x => x

def project (source : Source) (s : Scope) (r : Row) : List Sql.Item → Row → Except Error Row
  | [], out => .ok out
  | i :: is, out => do
    let v ← itemValue source s r i
    project source s r is (out.set i.name v)
termination_by structural x => x

def itemValue (source : Source) (s : Scope) (r : Row) : Sql.Item → Except Error Value
  | .column name => .ok (r.get name)
  | .array query _ => do
    let rs ← run source s query
    return .array (rs.map Row.toValue)
termination_by structural x => x

end

def runStatement (source : Source) (st : Sql.Statement) : Except Error (List Row) :=
  run source (.ofParams st.params) st.query

end RowForest.Eval
