import RowForest.Proofs.Sql.Parameters

namespace RowForest.Sql

inductive Operation
  | compare (op : Comparison)
  | logical (op : Connective)
  | member
deriving DecidableEq

namespace Operation

def expr : Operation → Expr → Expr → Expr
  | compare op => .compare op
  | logical op => .logical op
  | member => .member

def between : Operation → String
  | compare op => " " ++ op.text ++ " "
  | logical op => " " ++ op.text ++ " "
  | member => " IN UNNEST("

def closing : Operation → String
  | compare _ | logical _ => ""
  | member => ")"

def all : List Operation :=
  [.eq, .ne, .lt, .le, .gt, .ge, .like].map compare ++ [.and, .or].map logical ++ [member]

variable (o : Operation) (a b : Expr)

theorem text_expr : (o.expr a b).text = a.text ++ o.between ++ b.text ++ o.closing := by
  cases o <;> simp [expr, Expr.text, between, closing, String.append_assoc]

@[simp] theorem params_expr : (o.expr a b).params = a.params ++ b.params := by
  cases o <;> simp [expr]

theorem mem_all : o ∈ all := by
  cases o with
  | compare op => cases op <;> decide
  | logical op => cases op <;> decide
  | member => decide

theorem between_eq_cons : ∃ cs, o.between.toList = ' ' :: cs := by
  cases o <;> simp [between]

theorem eq_of_between_prefix {o o' : Operation} {cs : List Char}
    (h : o'.between.toList <+: o.between.toList ++ cs) : o' = o := by
  have hpairs : ∀ o ∈ all, ∀ o' ∈ all, o'.between.toList <+: o.between.toList → o' = o := by decide
  rcases List.prefix_or_prefix_of_prefix h (List.prefix_append o.between.toList cs) with h | h
  · exact hpairs o o.mem_all o' o'.mem_all h
  · exact (hpairs o' o'.mem_all o o.mem_all h).symm

end Operation

end RowForest.Sql
