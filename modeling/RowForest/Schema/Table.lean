import RowForest.Schema.Definition
import RowForest.Schema.Fault

namespace RowForest

def Column.isOptionalTime (c : Column) : Bool :=
  !c.notNull && c.type = .scalar .timestamp

namespace Table

def column? (t : Table) (name : String) : Option Column := t.columns.find? (·.name = name)

def columnIndex? (t : Table) (name : String) : Option Nat := t.columns.findIdx? (·.name = name)

def hasColumn (t : Table) (name : String) : Bool := (t.column? name).isSome

def columnNames (t : Table) : List String := t.columns.map Column.name

def keyColumns (t : Table) : List String := t.primaryKey.map KeyPart.column

def isKeyColumn (t : Table) (name : String) : Bool := t.primaryKey.any (·.column = name)

def softDelete? (t : Table) (name : String) : Option Column :=
  (t.column? name).filter Column.isOptionalTime

def parentName? (t : Table) : Option String := t.interleave.map Interleave.parent

def hasConstraint (t : Table) (name : String) : Bool :=
  t.constraints.any (·.name = some name)

def missing (t : Table) (column : String) : SchemaFault := .notFound (.column t.name column)

/-- Columns have distinct names, and token columns an existing source. The names
seen so far come first. -/
def checkColumns (t : Table) (seen : List String) : List Column → Except SchemaFault Unit
  | [] => .ok ()
  | c :: cs =>
    if c.name ∈ seen then .error (.duplicateName (.column t.name c.name))
    else
      match c.tokensOf with
      | none => checkColumns t (c.name :: seen) cs
      | some source =>
        if t.hasColumn source then checkColumns t (c.name :: seen) cs
        else .error (t.missing source)

def checkNamed (t : Table) : List String → Except SchemaFault Unit
  | [] => .ok ()
  | c :: cs => if t.hasColumn c then checkNamed t cs else .error (t.missing c)

def checkConstraints (t : Table) (seen : List String) : List Constraint → Except SchemaFault Unit
  | [] => .ok ()
  | c :: cs =>
    match c.name with
    | none => checkConstraints t seen cs
    | some name =>
      if name ∈ seen then .error (.duplicateName (.constraint t.name name))
      else checkConstraints t (name :: seen) cs

def check (t : Table) : Except SchemaFault Unit := do
  checkColumns t [] t.columns
  checkNamed t t.keyColumns
  checkNamed t (t.deletionPolicy.map DeletionPolicy.column).toList
  checkConstraints t [] t.constraints

def modifyColumn (t : Table) (name : String) (f : Column → Column) : Except SchemaFault Table :=
  match t.columnIndex? name with
  | none => .error (t.missing name)
  | some i => .ok { t with columns := t.columns.modify i f }

def dropColumn (t : Table) (name : String) : Except SchemaFault Table :=
  match t.columnIndex? name with
  | none => .error (t.missing name)
  | some i =>
    if t.isKeyColumn name then .error (.unsupportedAlteration (.keyColumn t.name name))
    else if t.deletionPolicy.any (·.column = name) then
      .error (.unsupportedAlteration (.policyColumn t.name name))
    else .ok { t with columns := t.columns.eraseIdx i }

def setOnDelete (t : Table) (action : OnDelete) : Except SchemaFault Table :=
  match t.interleave with
  | some i => .ok { t with interleave := some { i with onDelete := action } }
  | none => .error (.invalidInterleave (.notInterleaved t.name))

def addConstraint (t : Table) (c : Constraint) : Except SchemaFault Table :=
  match c.name with
  | some name =>
    if t.hasConstraint name then .error (.duplicateName (.constraint t.name name))
    else .ok { t with constraints := t.constraints ++ [c] }
  | none => .ok { t with constraints := t.constraints ++ [c] }

def dropConstraint (t : Table) (name : String) : Except SchemaFault Table :=
  match t.constraints.findIdx? (·.name = some name) with
  | some i => .ok { t with constraints := t.constraints.eraseIdx i }
  | none => .error (.notFound (.constraint t.name name))

def setPolicy (t : Table) (expected : Bool) (p : Option DeletionPolicy) : Except SchemaFault Table :=
  if t.deletionPolicy.isSome = expected then .ok { t with deletionPolicy := p }
  else .error (.unsupportedAlteration (if expected then .policyAbsent t.name else .policyPresent t.name))

def change (t : Table) : Alteration → Except SchemaFault Table
  | .addColumn c =>
    if t.hasColumn c.name then .error (.duplicateName (.column t.name c.name))
    else .ok { t with columns := t.columns ++ [c] }
  | .setType name type notNull => t.modifyColumn name (fun c => { c with type, notNull })
  | .setOptions name allowCommitTimestamp =>
    t.modifyColumn name (fun c => { c with allowCommitTimestamp })
  | .dropColumn name => t.dropColumn name
  | .setOnDelete action => t.setOnDelete action
  | .addConstraint c => t.addConstraint c
  | .dropConstraint name => t.dropConstraint name
  | .addPolicy p => t.setPolicy false (some p)
  | .replacePolicy p => t.setPolicy true (some p)
  | .dropPolicy => t.setPolicy true none

def alter (t : Table) (a : Alteration) : Except SchemaFault Table := do
  let t ← t.change a
  t.check
  return t

end Table

def Index.mentions (i : Index) (column : String) : Bool :=
  i.columns.any (·.column = column) || i.storing.any (· = column)

end RowForest
