import RowForest.Eval.Scope
import RowForest.Filter.Fault
import RowForest.Key.Basic
import RowForest.KeyFormat
import RowForest.RowFormat
import RowForest.Schema.Database

namespace RowForest

inductive WriteFault
  | present (table : String) (k : Key)
  | absent (table : String) (k : Key)
  | unknownColumn (table column : String)
  | null (column : String)
  | typeMismatch (column : String) (type : ColumnType) (v : Value)
  | hasRows (table : String) (k : Key) (child : String)

def WriteFault.message : WriteFault → String
  | present table k => "row " ++ table ++ k.text ++ " already exists"
  | absent table k => "row " ++ table ++ k.text ++ " does not exist"
  | unknownColumn table column => "column " ++ table ++ "." ++ column ++ " does not exist"
  | null column => "column " ++ column ++ " cannot be null"
  | typeMismatch column type v =>
    "column " ++ column ++ " type mismatch: expected " ++ type.text ++ ", got " ++ v.text
  | hasRows table k child =>
    "row " ++ table ++ k.text ++ " has rows in interleaved table " ++ child

inductive ShapeFault
  | type (expected : ColumnType) (v : Value)
  | unknownColumn
  | notArray (v : Value)
  | notStruct (v : Value)

def ShapeFault.message : ShapeFault → String
  | type expected v => "expected " ++ expected.text ++ ", got " ++ v.text
  | unknownColumn => "unknown column"
  | notArray v => "expected array of structs, got " ++ v.text
  | notStruct v => "expected struct, got " ++ v.text

inductive BackendFault
  | cancelled
  | tableCancelled (table : String)
  | unavailable (table : String)
  | shape (table column : String) (fault : ShapeFault)

def BackendFault.message : BackendFault → String
  | cancelled => "read cancelled"
  | tableCancelled table => "read " ++ table ++ " cancelled"
  | unavailable table => table ++ " unavailable"
  | shape table column fault =>
    "unmarshal " ++ table ++ " row: " ++ column ++ " column: " ++ fault.message

inductive Error
  | schema (kind : DefinitionKind) (fault : SchemaFault)
  | backend (fault : BackendFault)
  | notFound (table : String) (k : Key)
  | parameterCollision (name : String)
  | filter (fault : Filter.Fault)
  | unknownTable (name : String)
  | notInterleaved (table root : String)
  | keyLength (table : String) (k : Key)
  | keyFormat (fault : KeyFormat.Fault)
  | rowFormat (fault : RowFormat.Fault)
  | eval (fault : Eval.Fault)
  | write (fault : WriteFault)

namespace Error

def internal (reason : String) : String := "internal error " ++ reason

def message : Error → String
  | schema kind fault => kind.text ++ ": " ++ fault.message
  | backend fault => "backend failure: " ++ fault.message
  | notFound table k => "not found: " ++ table ++ k.text
  | parameterCollision name => "invalid param: " ++ name
  | filter fault => fault.message
  | unknownTable name => internal ("table " ++ name ++ " does not exist")
  | notInterleaved table root => internal ("table " ++ table ++ " is not interleaved in " ++ root)
  | keyLength table k =>
    internal ("key " ++ k.text ++ " does not match the primary key of table " ++ table)
  | keyFormat fault => internal fault.message
  | rowFormat fault => internal fault.message
  | eval fault => internal fault.message
  | write fault => internal fault.message

end Error

def Database.getTable (db : Database) (name : String) : Except Error Table :=
  match db.table? name with
  | some t => .ok t
  | none => .error (.unknownTable name)

def Database.define (db : Database) (d : Definition) : Except Error Database :=
  (db.apply d).mapError (.schema d.kind)

/-- Applies statements in order up to the first failure, and also gives the schema
reached by then. -/
def Database.defineAll (db : Database) : List Definition → Database × Except Error Unit
  | [] => (db, .ok ())
  | d :: ds =>
    match db.define d with
    | .ok db => defineAll db ds
    | .error e => (db, .error e)

end RowForest
