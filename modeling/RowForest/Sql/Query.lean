import RowForest.Sql.Expr

namespace RowForest.Sql

mutual

structure Query where
  asStruct : Bool
  items : List Item
  source : String
  filter : Option Expr
  order : List Order
  limit : Option Expr
  offset : Option Expr

/-- A column of the source, or the rows of a subquery as an array of structs. -/
inductive Item
  | column (name : String)
  | array (query : Query) (label : String)

end

structure Statement where
  query : Query
  params : Params

def clause {α : Type} (keyword : String) (text : α → String) : Option α → String
  | none => ""
  | some a => " " ++ keyword ++ " " ++ text a

def orderClause : List Order → String
  | [] => ""
  | os => " ORDER BY " ++ commaSeparated (os.map Order.text)

mutual

def Query.text : Query → String
  | ⟨asStruct, items, source, filter, order, limit, offset⟩ =>
    "SELECT " ++ (if asStruct then "AS STRUCT " else "") ++ commaSeparated (itemTexts items) ++
      " FROM " ++ nameText source ++ clause "WHERE" Expr.text filter ++ orderClause order ++
      clause "LIMIT" Expr.text limit ++ clause "OFFSET" Expr.text offset
termination_by structural x => x

def itemTexts : List Item → List String
  | [] => []
  | i :: is => Item.text i :: itemTexts is
termination_by structural x => x

def Item.text : Item → String
  | .column name => nameText name
  | .array query label => "ARRAY(" ++ Query.text query ++ ") AS " ++ nameText label
termination_by structural x => x

end

def Item.name : Item → String
  | .column name => name
  | .array _ label => label

end RowForest.Sql
