import RowForest.Schema.Table

namespace RowForest

/-- Tables and indexes in the order of their creation. Interleaving is recorded in the
child, as the name of its parent. -/
structure Database where
  tables : List Table := []
  indexes : List Index := []
deriving DecidableEq

namespace Database

def empty : Database := {}

def table? (db : Database) (name : String) : Option Table := db.tables.find? (·.name = name)

def index? (db : Database) (name : String) : Option Index := db.indexes.find? (·.name = name)

def indexesOf (db : Database) (table : String) : List Index :=
  db.indexes.filter (·.table = table)

def children (db : Database) (name : String) : List Table :=
  db.tables.filter (·.parentName? = some name)

abbrev TableId (db : Database) := Fin db.tables.length

def tableId? (db : Database) (name : String) : Option db.TableId :=
  db.tables.findFinIdx? (·.name = name)

def tableAt (db : Database) (id : db.TableId) : Table := db.tables[id]

def childrenIds (db : Database) (id : db.TableId) : List db.TableId :=
  (List.finRange db.tables.length).filter
    (fun i => (db.tableAt i).parentName? = some (db.tableAt id).name)

def parent? (db : Database) (name : String) : Option Table := do
  let t ← db.table? name
  db.table? (← t.parentName?)

def ancestorsWithin (db : Database) : Nat → String → List Table
  | 0, _ => []
  | depth + 1, name =>
    match db.parent? name with
    | none => []
    | some p => p :: ancestorsWithin db depth p.name

/-- Interleave ancestors, nearest first. There are never more than there are tables. -/
def ancestors (db : Database) (name : String) : List Table :=
  db.ancestorsWithin db.tables.length name

def descendantsWithin (db : Database) : Nat → String → List Table
  | 0, _ => []
  | depth + 1, name => (db.children name).flatMap (fun c => c :: descendantsWithin db depth c.name)

def descendants (db : Database) (name : String) : List Table :=
  db.descendantsWithin db.tables.length name

def checkReference (db : Database) (table : String) (c : Constraint) : Except SchemaFault Unit :=
  match c.kind with
  | .foreignKey _ ref _ =>
    if ref = table || (db.table? ref).isSome then .ok () else .error (.notFound (.table ref))
  | .check _ => .ok ()

def extendsKey (parent child : Table) : Bool := parent.keyColumns.isPrefixOf child.keyColumns

def checkInterleave (db : Database) (t : Table) : Except SchemaFault Unit :=
  match t.parentName? with
  | none => .ok ()
  | some name =>
    match db.table? name with
    | none => .error (.notFound (.table name))
    | some parent =>
      if extendsKey parent t then .ok ()
      else .error (.invalidInterleave (.keyMismatch t.name parent.name))

def createTable (db : Database) (t : Table) : Except SchemaFault Database := do
  if (db.table? t.name).isSome then .error (.duplicateName (.table t.name))
  t.check
  db.checkInterleave t
  t.constraints.forM (db.checkReference t.name)
  return { db with tables := db.tables ++ [t] }

/-- What an alteration needs of the other tables and of the indexes. -/
def checkAlteration (db : Database) (table : String) : Alteration → Except SchemaFault Unit
  | .addConstraint c => db.checkReference table c
  | .dropColumn column =>
    match (db.indexesOf table).find? (·.mentions column) with
    | some index => .error (.unsupportedAlteration (.indexedColumn table column index.name))
    | none => .ok ()
  | _ => .ok ()

def alterTable (db : Database) (name : String) (a : Alteration) : Except SchemaFault Database := do
  match db.tables.findIdx? (·.name = name), db.table? name with
  | some i, some t => do
    db.checkAlteration name a
    let altered ← t.alter a
    return { db with tables := db.tables.set i altered }
  | _, _ => .error (.notFound (.table name))

def dropTable (db : Database) (name : String) : Except SchemaFault Database :=
  match db.tables.findIdx? (·.name = name) with
  | none => .error (.notFound (.table name))
  | some i =>
    match db.children name with
    | [] => .ok ⟨db.tables.eraseIdx i, db.indexes.filter (·.table != name)⟩
    | dependents => .error (.hasDependents name (dependents.map Table.name))

def createIndex (db : Database) (index : Index) : Except SchemaFault Database := do
  if (db.index? index.name).isSome then .error (.duplicateName (.index index.name))
  match db.table? index.table with
  | none => .error (.notFound (.table index.table))
  | some t => do
    t.checkNamed (index.columns.map KeyPart.column ++ index.storing)
    match index.interleave.filter (fun p => (db.table? p).isNone) with
    | some p => .error (.notFound (.table p))
    | none => return { db with indexes := db.indexes ++ [index] }

def dropIndex (db : Database) (name : String) : Except SchemaFault Database :=
  match db.indexes.findIdx? (·.name = name) with
  | some i => .ok { db with indexes := db.indexes.eraseIdx i }
  | none => .error (.notFound (.index name))

def apply (db : Database) : Definition → Except SchemaFault Database
  | .createTable t => db.createTable t
  | .alterTable name a => db.alterTable name a
  | .dropTable name => db.dropTable name
  | .createIndex index => db.createIndex index
  | .dropIndex name => db.dropIndex name

end Database

end RowForest
