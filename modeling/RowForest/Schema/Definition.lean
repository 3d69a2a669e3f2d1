import RowForest.ColumnType

namespace RowForest

structure KeyPart where
  column : String
  desc : Bool
deriving DecidableEq

inductive OnDelete
  | cascade
  | noAction
deriving DecidableEq

structure Interleave where
  parent : String
  onDelete : OnDelete
deriving DecidableEq

structure DeletionPolicy where
  column : String
  days : Int64
deriving DecidableEq

structure Column where
  name : String
  type : ColumnType
  notNull : Bool := false
  allowCommitTimestamp : Option Bool := none
  /-- The column whose search tokens this one holds. -/
  tokensOf : Option String := none
  hidden : Bool := false
deriving DecidableEq

inductive ConstraintKind
  | foreignKey (columns : List String) (table : String) (refColumns : List String)
  | check (condition : String)
deriving DecidableEq

structure Constraint where
  name : Option String
  kind : ConstraintKind
deriving DecidableEq

structure Table where
  name : String
  columns : List Column
  primaryKey : List KeyPart
  interleave : Option Interleave := none
  deletionPolicy : Option DeletionPolicy := none
  constraints : List Constraint := []
deriving DecidableEq

structure Index where
  name : String
  table : String
  columns : List KeyPart
  unique : Bool := false
  nullFiltered : Bool := false
  storing : List String := []
  interleave : Option String := none
deriving DecidableEq

inductive Alteration
  | addColumn (column : Column)
  | setType (column : String) (type : ColumnType) (notNull : Bool)
  | setOptions (column : String) (allowCommitTimestamp : Option Bool)
  | dropColumn (column : String)
  | setOnDelete (action : OnDelete)
  | addConstraint (constraint : Constraint)
  | dropConstraint (name : String)
  | addPolicy (policy : DeletionPolicy)
  | replacePolicy (policy : DeletionPolicy)
  | dropPolicy
deriving DecidableEq

inductive Definition
  | createTable (table : Table)
  | alterTable (table : String) (alteration : Alteration)
  | dropTable (name : String)
  | createIndex (index : Index)
  | dropIndex (name : String)
deriving DecidableEq

inductive DefinitionKind
  | createTable
  | alterTable
  | dropTable
  | createIndex
  | dropIndex
deriving DecidableEq

def Definition.kind : Definition → DefinitionKind
  | createTable _ => .createTable
  | alterTable _ _ => .alterTable
  | dropTable _ => .dropTable
  | createIndex _ => .createIndex
  | dropIndex _ => .dropIndex

def DefinitionKind.text : DefinitionKind → String
  | createTable => "CREATE TABLE"
  | alterTable => "ALTER TABLE"
  | dropTable => "DROP TABLE"
  | createIndex => "CREATE INDEX"
  | dropIndex => "DROP INDEX"

end RowForest
