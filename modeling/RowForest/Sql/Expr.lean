import RowForest.Value.Printer

namespace RowForest.Sql

def reserved : List String := [
  "ALL", "AND", "ANY", "ARRAY", "AS", "ASC", "BETWEEN", "BY", "CASE", "CAST", "CROSS",
  "DEFAULT", "DESC", "DISTINCT", "ELSE", "END", "EXISTS", "FALSE", "FROM", "FULL", "GROUP",
  "HAVING", "IF", "IN", "INNER", "INTERVAL", "INTO", "IS", "JOIN", "LEFT", "LIKE", "LIMIT",
  "NOT", "NULL", "OF", "ON", "OR", "ORDER", "OUTER", "RIGHT", "SELECT", "SET", "STRUCT",
  "TABLESAMPLE", "THEN", "TO", "TRUE", "UNNEST", "USING", "WHEN", "WHERE", "WITH"]

def isReserved (name : String) : Bool :=
  reserved.any (fun r => r.toList = name.toList.map Char.toUpper)

def startsName (c : Char) : Bool := c.isAlpha || c = '_'

def continuesName (c : Char) : Bool := c.isAlphanum || c = '_'

/-- A letter or underscore, then letters, digits and underscores, all of them ASCII,
and no reserved word. -/
def isPlain (name : String) : Bool :=
  match name.toList with
  | [] => false
  | c :: cs => startsName c && cs.all continuesName && !isReserved name

def backquote : Char := '\x60'

def escapeBackquotes : List Char → List Char
  | [] => []
  | c :: cs => if c = backquote then '\\' :: c :: escapeBackquotes cs else c :: escapeBackquotes cs

def nameText (name : String) : String :=
  if isPlain name then name
  else .ofList (backquote :: escapeBackquotes name.toList ++ [backquote])

inductive Comparison
  | eq
  | ne
  | lt
  | le
  | gt
  | ge
  | like
deriving DecidableEq

inductive Connective
  | and
  | or
deriving DecidableEq

/-- A predicate or operand. Literals never occur: every value is a named parameter. -/
inductive Expr
  | always
  | column (name : String)
  | path (names : List String)
  | param (name : String)
  | paren (e : Expr)
  | compare (op : Comparison) (lhs rhs : Expr)
  | logical (op : Connective) (lhs rhs : Expr)
  | not (e : Expr)
  | isNull (e : Expr) (negated : Bool)
  /-- Membership, `lhs IN UNNEST(array)`. -/
  | member (lhs array : Expr)
  | call (function : String) (args : List Expr)
  | named (key : String) (value : Expr)

def Comparison.text : Comparison → String
  | eq => "="
  | ne => "!="
  | lt => "<"
  | le => "<="
  | gt => ">"
  | ge => ">="
  | like => "LIKE"

def Connective.text : Connective → String
  | and => "AND"
  | or => "OR"

namespace Expr

def equals (lhs rhs : Expr) : Expr := compare .eq lhs rhs

def and (lhs rhs : Expr) : Expr := logical .and lhs rhs

def or (lhs rhs : Expr) : Expr := logical .or lhs rhs

def conjunction : List Expr → Expr
  | [] => always
  | e :: es => es.foldl and e

mutual

def text : Expr → String
  | always => "TRUE"
  | column name => nameText name
  | path names => ".".intercalate (names.map nameText)
  | param name => "@" ++ name
  | paren e => "(" ++ e.text ++ ")"
  | compare op lhs rhs => lhs.text ++ " " ++ op.text ++ " " ++ rhs.text
  | logical op lhs rhs => lhs.text ++ " " ++ op.text ++ " " ++ rhs.text
  | not e => "NOT " ++ e.text
  | isNull e negated => e.text ++ " IS " ++ (if negated then "NOT NULL" else "NULL")
  | member lhs array => lhs.text ++ " IN UNNEST(" ++ array.text ++ ")"
  | call function args => function ++ "(" ++ commaSeparated (argTexts args) ++ ")"
  | named key value => key ++ " => " ++ value.text
termination_by structural x => x

def argTexts : List Expr → List String
  | [] => []
  | e :: es => e.text :: argTexts es
termination_by structural x => x

end

end Expr

structure Order where
  key : Expr
  desc : Bool

def Order.text (o : Order) : String := if o.desc then o.key.text ++ " DESC" else o.key.text

end RowForest.Sql
