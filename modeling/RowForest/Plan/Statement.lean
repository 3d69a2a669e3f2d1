import RowForest.Key.Predicate
import RowForest.Plan.Level

namespace RowForest

inductive Strategy
  | nested
  | levelwise
deriving DecidableEq

structure ReadSettings where
  softDeleteColumn : String := "delete_time"
  limitParam : String := "__limit"
  offsetParam : String := "__offset"
  keyParamLabel : String := "__key"
  strategy : Strategy := .nested
deriving DecidableEq

def ReadSettings.isReserved (s : ReadSettings) (name : String) : Bool :=
  name = s.limitParam || name = s.offsetParam || s.keyParamLabel.toList.isPrefixOf name.toList

structure Listing where
  table : String
  predicate : Option Sql.Expr := none
  params : Params := .empty
  order : List Sql.Order := []
  limit : Option Int64 := none
  offset : Int64 := 0
  showDeleted : Bool := false
  descendants : TableNames := .empty
  strategy : Option Strategy := none
  /-- Parameters of key lookups, which may use the reserved names. -/
  keyParams : Params := .empty

namespace Listing

def withPredicate (q : Listing) (e : Sql.Expr) (ps : Params) : Listing :=
  { q with predicate := some e, params := q.params.insertAll ps.toList }

def isPaged (q : Listing) : Bool := q.limit.isSome || q.offset != 0

end Listing

namespace ReadSettings

/-- Ties one key column of a child row to its parent row. Nulls meet if the child's
column can be null. -/
def tie (parent child : Table) (column : String) : Sql.Expr :=
  let lhs : Sql.Expr := .path [child.name, column]
  let rhs : Sql.Expr := .path [parent.name, column]
  if (child.column? column).any (·.notNull) then .equals lhs rhs
  else .paren (.or (.paren (.and (.isNull lhs false) (.isNull rhs false))) (.equals lhs rhs))

def correlation (parent child : Table) : Sql.Expr :=
  .conjunction (parent.keyColumns.map (tie parent child))

def visible? (s : ReadSettings) (t : Table) : Option Sql.Expr :=
  (t.softDelete? s.softDeleteColumn).map (fun c => .isNull (.column c.name) false)

def rootFilter (s : ReadSettings) (t : Table) (q : Listing) : Sql.Expr :=
  let e := q.predicate.getD .always
  if q.showDeleted then e
  else
    match s.visible? t with
    | some visible => .and (.paren e) visible
    | none => e

def childFilter (s : ReadSettings) (showDeleted : Bool) (parent child : Table) : Sql.Expr :=
  let e := correlation parent child
  if showDeleted then e
  else
    match s.visible? child with
    | some visible => .and visible e
    | none => e

def columnItems (t : Table) : List Sql.Item := t.columnNames.map .column

mutual

def childArray (s : ReadSettings) (showDeleted : Bool) (parent : Table) : Level → Sql.Item
  | ⟨t, _, children⟩ =>
    .array
      ⟨true, columnItems t ++ childArrays s showDeleted t children, t.name,
        some (s.childFilter showDeleted parent t), Key.order t, none, none⟩ t.name
termination_by structural l => l

def childArrays (s : ReadSettings) (showDeleted : Bool) (parent : Table) :
    List Level → List Sql.Item
  | [] => []
  | l :: ls => childArray s showDeleted parent l :: childArrays s showDeleted parent ls
termination_by structural ls => ls

end

/-- The caller's parameters, then those of keys, then limit and offset. The caller's must
not use a reserved name. -/
def statementParams (s : ReadSettings) (q : Listing) : Except Error Params :=
  match q.params.keys.find? s.isReserved with
  | some name => .error (.parameterCollision name)
  | none =>
    let ps := q.params.insertAll q.keyParams.toList
    .ok (if q.isPaged then
        (ps.insert s.limitParam (.int64 (q.limit.getD Int64.maxValue))).insert s.offsetParam
          (.int64 q.offset)
      else ps)

/-- The statement that lists the root of a plan; with `nested`, also every level below it. -/
def statement (s : ReadSettings) (root : Level) (q : Listing) (nested : Bool) :
    Except Error Sql.Statement := do
  let ps ← s.statementParams q
  let t := root.table
  let page (name : String) : Option Sql.Expr := if q.isPaged then some (.param name) else none
  return ⟨⟨false,
    columnItems t ++ s.childArrays q.showDeleted t (if nested then root.children else []),
    t.name, some (s.rootFilter t q), if q.order.isEmpty then Key.order t else q.order,
    page s.limitParam, page s.offsetParam⟩, ps⟩

end ReadSettings

structure LevelSummary where
  table : String
  parent : Option String
  depth : Nat
  correlation : Option String
  order : List String
  softDeleteColumn : Option String

def Level.summary (root : Level) (s : ReadSettings) : List LevelSummary :=
  (root.walk none).map (fun (l, parent) =>
    { table := l.table.name
      parent := parent.map (·.table.name)
      depth := l.depth
      correlation := parent.map (fun p => (ReadSettings.correlation p.table l.table).text)
      order := (Key.order l.table).map Sql.Order.text
      softDeleteColumn := (l.table.softDelete? s.softDeleteColumn).map Column.name })

end RowForest
