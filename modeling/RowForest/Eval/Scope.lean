import RowForest.Row

namespace RowForest.Eval

inductive Fault
  | unboundParam (name : String)
  | unknownColumn (name : String)
  | unknownField (table column : String)
  | emptyPath
  | noField (name : String) (v : Value)
  | notBoolean (v : Value)
  | notComparable (v w : Value)
  | notText (v w : Value)
  | notArray (v : Value)
  | unknownFunction (name : String)
  | namedArgument (key : String)
  | badCount (clause : String) (v : Value)

def Fault.message : Fault → String
  | unboundParam name => "param @" ++ name ++ " is not bound"
  | unknownColumn name => "column " ++ name ++ " does not exist"
  | unknownField table column => "column " ++ table ++ "." ++ column ++ " does not exist"
  | emptyPath => "empty path"
  | noField name v => "cannot access field " ++ name ++ " of " ++ v.text
  | notBoolean v => "expected boolean, got " ++ v.text
  | notComparable v w => "cannot compare " ++ v.text ++ " and " ++ w.text
  | notText v w => "cannot match " ++ v.text ++ " LIKE " ++ w.text
  | notArray v => "cannot unnest " ++ v.text
  | unknownFunction name => "unsupported function " ++ name
  | namedArgument key => "unexpected named argument " ++ key
  | badCount clause v => "invalid " ++ clause ++ " " ++ v.text

/-- Bound parameters, and the rows of the queries around an expression with the
names of their tables, innermost first. -/
structure Scope where
  params : Params
  frames : List (String × Row)

namespace Scope

def ofParams (ps : Params) : Scope := ⟨ps, []⟩

def push (s : Scope) (table : String) (r : Row) : Scope :=
  { s with frames := (table, r) :: s.frames }

def param (s : Scope) (name : String) : Except Fault Value :=
  match s.params.find? name with
  | some v => .ok v
  | none => .error (.unboundParam name)

def column (s : Scope) (name : String) : Except Fault Value :=
  match s.frames.findSome? (fun f => f.2.get? name) with
  | some v => .ok v
  | none => .error (.unknownColumn name)

def frame? (s : Scope) (table : String) : Option Row := s.frames.lookup table

end Scope

end RowForest.Eval
