import RowForest.Calendar.Reader
import RowForest.Sql.Expr

namespace RowForest.Filter

inductive SearchFault
  | count (n : Nat)
  | column
  | query
  | length (n : Nat)
deriving DecidableEq

def minSearchLength : Nat := 2

def SearchFault.message : SearchFault → String
  | count n => s!"unexpected number of arguments: {n} (expected 2 or 5)"
  | column => "first argument must be an identifier"
  | query => "second argument must be a string constant"
  | length n => s!"search query must be at least {minSearchLength} characters, got {n}"

inductive TimestampFault
  | notConstant
  | calendar (fault : Calendar.Fault)
deriving DecidableEq

def TimestampFault.message : TimestampFault → String
  | notConstant => "expected constant string arg"
  | calendar fault => fault.message

inductive UnsupportedFault
  | selectOperand (operand : String)
  | untypedIdent (id : Int)
  | argumentCount (function : String) (n : Nat)
  | hasOperands
  | hasType
deriving DecidableEq

def inBackquotes (s : String) : String := "\x60" ++ s ++ "\x60"

def UnsupportedFault.message : UnsupportedFault → String
  | selectOperand operand => "unsupported select expr operand " ++ operand
  | untypedIdent id => s!"unknown type of ident expr {id}"
  | argumentCount function n =>
    "unexpected number of arguments to " ++ inBackquotes function ++ s!": {n}"
  | hasOperands => inBackquotes ":" ++ " is only supported between an identifier and a constant"
  | hasType => inBackquotes ":" ++ " is only supported on repeated primitive fields"

inductive Place
  | root
  | argument (function : String)
  | side (function which : String)
deriving DecidableEq

def Place.message (predicate : String) : Place → String
  | root => predicate
  | argument function => "unexpected argument to " ++ inBackquotes function ++ ": " ++ predicate
  | side function which =>
    "unexpected arguments to " ++ inBackquotes function ++ ": " ++ which ++ " " ++ predicate

inductive Fault
  | unsupported (fault : UnsupportedFault)
  | unknownFunction (name : String)
  | wildcard (function : String)
  | search (function : String) (fault : SearchFault)
  | timestamp (function : String) (fault : TimestampFault)
  | notBoolean (place : Place) (predicate : String)
deriving DecidableEq

def Fault.message : Fault → String
  | unsupported fault => "unsupported expr: " ++ fault.message
  | unknownFunction name => "unsupported function call: " ++ name
  | wildcard function =>
    "unsupported argument to " ++ inBackquotes function ++
      ": wildcard only supported in leading or trailing positions"
  | search function fault => "invalid argument to " ++ function ++ ": " ++ fault.message
  | timestamp function fault => "invalid string arg to " ++ function ++ ": " ++ fault.message
  | notBoolean place predicate => "not a bool expr: " ++ place.message predicate

end RowForest.Filter
