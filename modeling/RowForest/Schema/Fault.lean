import RowForest.Value.Printer

namespace RowForest

inductive SchemaPart
  | table (name : String)
  | column (table column : String)
  | index (name : String)
  | constraint (table name : String)
deriving DecidableEq

def SchemaPart.text : SchemaPart → String
  | table name => "table " ++ name
  | column t c => "column " ++ t ++ "." ++ c
  | index name => "index " ++ name
  | constraint t name => "constraint " ++ name ++ " on table " ++ t

inductive AlterationFault
  | indexedColumn (table column index : String)
  | keyColumn (table column : String)
  | policyColumn (table column : String)
  | policyPresent (table : String)
  | policyAbsent (table : String)
deriving DecidableEq

def AlterationFault.message : AlterationFault → String
  | indexedColumn table column index =>
    "column " ++ table ++ "." ++ column ++ " is used by index " ++ index
  | keyColumn table column => "cannot drop key column " ++ table ++ "." ++ column
  | policyColumn table column =>
    "column " ++ table ++ "." ++ column ++ " is used by the row deletion policy"
  | policyPresent table => "table " ++ table ++ " already has a row deletion policy"
  | policyAbsent table => "table " ++ table ++ " has no row deletion policy"

inductive InterleaveFault
  | keyMismatch (table parent : String)
  | notInterleaved (table : String)
deriving DecidableEq

def InterleaveFault.message : InterleaveFault → String
  | keyMismatch table parent =>
    "primary key of " ++ table ++ " must start with the primary key of " ++ parent
  | notInterleaved table => "table " ++ table ++ " is not interleaved"

inductive SchemaFault
  | duplicateName (part : SchemaPart)
  | notFound (part : SchemaPart)
  | unsupportedAlteration (fault : AlterationFault)
  | invalidInterleave (fault : InterleaveFault)
  | hasDependents (table : String) (dependents : List String)
deriving DecidableEq

def SchemaFault.message : SchemaFault → String
  | duplicateName part => part.text ++ " already exists"
  | notFound part => part.text ++ " does not exist"
  | unsupportedAlteration fault => "unsupported alteration: " ++ fault.message
  | invalidInterleave fault => "invalid interleave: " ++ fault.message
  | hasDependents table dependents =>
    "table " ++ table ++ " has interleaved tables " ++ commaSeparated dependents

end RowForest
