import RowForest.Sql.Query
import Mathlib.Data.List.Basic

namespace RowForest.Sql

inductive Fragment
  | plain (s : String)
  | param (name : String)

namespace Fragment

def text : Fragment → String
  | plain s => s
  | param name => "@" ++ name

def param? : Fragment → Option String
  | plain _ => none
  | param name => some name

def joined (fs : List Fragment) : String := .join (fs.map text)

def params (fs : List Fragment) : List String := fs.filterMap param?

variable {s name : String} {fs gs : List Fragment}

@[simp] theorem joined_nil : joined [] = "" := rfl

@[simp] theorem joined_plain : joined (plain s :: fs) = s ++ joined fs := by
  rw [joined, List.map_cons, String.join_cons, joined, text]

@[simp] theorem joined_param : joined (param name :: fs) = "@" ++ name ++ joined fs := by
  rw [joined, List.map_cons, String.join_cons, joined, text]

@[simp] theorem joined_append : joined (fs ++ gs) = joined fs ++ joined gs := by
  rw [joined, List.map_append, String.join_append, joined, joined]

@[simp] theorem joined_intercalate (fss : List (List Fragment)) :
    joined ([plain s].intercalate fss) = s.intercalate (fss.map joined) := by
  induction fss with
  | nil => rfl
  | cons fs fss ih =>
      cases fss with
      | nil => simp
      | cons gs fss =>
          rw [List.intercalate_cons_cons, joined_append, joined_append, ih, joined_plain, joined_nil,
            String.append_empty]
          exact String.intercalate_cons_cons.symm

@[simp] theorem params_nil : params [] = [] := rfl

@[simp] theorem params_plain : params (plain s :: fs) = params fs := rfl

@[simp] theorem params_param : params (param name :: fs) = name :: params fs := rfl

@[simp] theorem params_append : params (fs ++ gs) = params fs ++ params gs := List.filterMap_append

@[simp] theorem params_intercalate (fss : List (List Fragment)) :
    params ([plain s].intercalate fss) = fss.flatMap params := by
  induction fss with
  | nil => rfl
  | cons fs fss ih =>
      cases fss with
      | nil => simp
      | cons gs fss =>
          rw [List.intercalate_cons_cons, params_append, params_append, ih, params_plain, params_nil,
            List.append_nil, ← List.flatMap_cons]

end Fragment

namespace Expr

mutual

def fragments : Expr → List Fragment
  | always => [.plain "TRUE"]
  | column name => [.plain (nameText name)]
  | path names => [.plain (".".intercalate (names.map nameText))]
  | param name => [.param name]
  | paren e => .plain "(" :: e.fragments ++ [.plain ")"]
  | compare op lhs rhs => lhs.fragments ++ .plain " " :: .plain op.text :: .plain " " :: rhs.fragments
  | logical op lhs rhs => lhs.fragments ++ .plain " " :: .plain op.text :: .plain " " :: rhs.fragments
  | not e => .plain "NOT " :: e.fragments
  | isNull e negated => e.fragments ++ [.plain " IS ", .plain (if negated then "NOT NULL" else "NULL")]
  | member lhs array => lhs.fragments ++ .plain " IN UNNEST(" :: array.fragments ++ [.plain ")"]
  | call function args =>
    .plain function :: .plain "(" :: [.plain ", "].intercalate (argFragments args) ++ [.plain ")"]
  | named key value => .plain key :: .plain " => " :: value.fragments
termination_by structural x => x

def argFragments : List Expr → List (List Fragment)
  | [] => []
  | e :: es => e.fragments :: argFragments es
termination_by structural x => x

end

/-- The parameters that the text of an expression names, from left to right. -/
def params (e : Expr) : List String := Fragment.params e.fragments

mutual

theorem text_eq_joined : ∀ e : Expr, e.text = Fragment.joined e.fragments
  | always | column _ | path _ | param _ => by simp [text, fragments]
  | paren e | not e | isNull e _ | named _ e => by
    simp [text, fragments, text_eq_joined e, String.append_assoc]
  | compare _ lhs rhs | logical _ lhs rhs | member lhs rhs => by
    simp [text, fragments, text_eq_joined lhs, text_eq_joined rhs, String.append_assoc]
  | call _ args => by
    simp [text, fragments, commaSeparated, argTexts_eq_joined args, String.append_assoc]

theorem argTexts_eq_joined : ∀ es : List Expr, argTexts es = (argFragments es).map Fragment.joined
  | [] => rfl
  | e :: es => by rw [argTexts, argFragments, List.map_cons, text_eq_joined e, argTexts_eq_joined es]

end

variable {op : Comparison} {connective : Connective} {a b e : Expr} {name : String} {args : List Expr}

theorem argTexts_eq_map : argTexts args = args.map text := by
  induction args with
  | nil => rfl
  | cons e es ih => rw [argTexts, ih, List.map_cons]

theorem argFragments_eq_map : argFragments args = args.map fragments := by
  induction args with
  | nil => rfl
  | cons e es ih => rw [argFragments, ih, List.map_cons]

@[simp] theorem params_always : always.params = [] := rfl

@[simp] theorem params_column : (column name).params = [] := rfl

@[simp] theorem params_path (names : List String) : (path names).params = [] := rfl

@[simp] theorem params_param : (param name).params = [name] := rfl

@[simp] theorem params_paren : (paren e).params = e.params := by simp [params, fragments]

@[simp] theorem params_compare : (compare op a b).params = a.params ++ b.params := by
  simp [params, fragments]

@[simp] theorem params_logical : (logical connective a b).params = a.params ++ b.params := by
  simp [params, fragments]

@[simp] theorem params_not : (not e).params = e.params := by simp [params, fragments]

@[simp] theorem params_isNull (negated : Bool) : (isNull e negated).params = e.params := by
  simp [params, fragments]

@[simp] theorem params_member : (member a b).params = a.params ++ b.params := by
  simp [params, fragments]

@[simp] theorem params_call (function : String) : (call function args).params = args.flatMap params := by
  simp only [params, fragments, Fragment.params_plain, Fragment.params_append, Fragment.params_intercalate,
    argFragments_eq_map, List.flatMap_map, Fragment.params_nil, List.append_nil]
  rfl

@[simp] theorem params_named (key : String) : (named key e).params = e.params := by
  simp [params, fragments]

end Expr

mutual

def Query.params : Query → List String
  | ⟨_, items, _, filter, order, limit, offset⟩ =>
    itemParams items ++ filter.elim [] Expr.params ++ order.flatMap (·.key.params) ++
      limit.elim [] Expr.params ++ offset.elim [] Expr.params
termination_by structural x => x

def itemParams : List Item → List String
  | [] => []
  | i :: is => i.params ++ itemParams is
termination_by structural x => x

def Item.params : Item → List String
  | .column _ => []
  | .array query _ => query.params
termination_by structural x => x

end

end RowForest.Sql
