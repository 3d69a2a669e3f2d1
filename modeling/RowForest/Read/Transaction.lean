import RowForest.Plan.Statement
import RowForest.Read.Levelwise

namespace RowForest

structure Transaction where
  db : Database
  backend : Backend
  settings : ReadSettings := {}

namespace Transaction

def read (tx : Transaction) (table : String) (keys : KeySet) : ReadM (List Row) := do
  let t ← .ofExcept (tx.db.getTable table)
  tx.backend.read t.name keys t.columnNames

def list (tx : Transaction) (q : Listing) : ReadM (List RowTree) := do
  let plan ← .ofExcept (tx.db.plan q.table q.descendants)
  let descends := !plan.children.isEmpty
  let nested := descends && q.strategy.getD tx.settings.strategy = .nested
  let st ← .ofExcept (tx.settings.statement plan q nested)
  let rows ← tx.backend.query st
  if descends && !nested then Levelwise.read tx.backend tx.settings q.showDeleted plan rows
  else .ofExcept (rows.mapM (RowTree.ofRow plan))

/-- The list query of a key lookup. It sees deleted rows. -/
def keyQuery (t : Table) (predicate : Sql.Expr) (keyParams : Params) (limit : Nat)
    (descendants : TableNames) : Listing :=
  { table := t.name, predicate := some predicate, keyParams, limit := some (.ofNat limit)
    showDeleted := true, descendants }

def get (tx : Transaction) (table : String) (k : Key) (descendants : TableNames) :
    ReadM RowTree := do
  let t ← .ofExcept (tx.db.getTable table)
  let found ← if descendants.isEmpty then do
      let row ← tx.backend.readRow t.name k t.columnNames
      pure (row.map (RowTree.leaf t.name))
    else do
      let label := Key.parameterName tx.settings.keyParamLabel 0
      let q := keyQuery t (k.predicate t label) (k.bind t label .empty) 1 descendants
      pure (← tx.list q).head?
  match found with
  | some tree => return tree
  | none => throw (.notFound t.name k)

def keyPredicates (label : String) (t : Table) : Nat → List Key → List Sql.Expr
  | _, [] => []
  | i, k :: ks => k.predicate t (Key.parameterName label i) :: keyPredicates label t (i + 1) ks

def keyBindings (label : String) (t : Table) : Nat → List Key → Params → Params
  | _, [], ps => ps
  | i, k :: ks, ps => keyBindings label t (i + 1) ks (k.bind t (Key.parameterName label i) ps)

def anyOf : List Sql.Expr → Sql.Expr
  | [] => .always
  | e :: es => .paren (es.foldl .or e)

/-- Trees by the key of their row. Of two with one key the later counts. -/
def byKey (t : Table) : List RowTree → List (Key × RowTree)
  | [] => []
  | tree :: trees =>
    let k := Key.ofRow t tree.row
    let rest := byKey t trees
    if rest.any (fun e => e.1 = k) then rest else (k, tree) :: rest

def getAll (tx : Transaction) (table : String) (ks : List Key) (descendants : TableNames) :
    ReadM (List (Key × RowTree)) := do
  let t ← .ofExcept (tx.db.getTable table)
  if ks.isEmpty then return []
  let trees ← if descendants.isEmpty then do
      let rows ← tx.backend.read t.name (.list ks) t.columnNames
      pure (rows.map (RowTree.leaf t.name))
    else
      let label := tx.settings.keyParamLabel
      tx.list (keyQuery t (anyOf (keyPredicates label t 0 ks)) (keyBindings label t 0 ks .empty)
        ks.length descendants)
  return byKey t trees

/-- The rows of a key set with the requested descendants, read level by level. -/
def readTrees (tx : Transaction) (table : String) (keys : KeySet) (descendants : TableNames)
    (showDeleted : Bool) : ReadM (List RowTree) := do
  let plan ← .ofExcept (tx.db.plan table descendants)
  let t := plan.table
  let rows ← tx.backend.read t.name keys t.columnNames
  let rows := if showDeleted then rows else tx.settings.withoutDeleted t rows
  Levelwise.read tx.backend tx.settings showDeleted plan rows

end Transaction

end RowForest
