import RowForest.Eval.Scope
import RowForest.Sql.Expr
import RowForest.Value.Order

namespace RowForest.Eval

def truth : Value → Except Fault (Option Bool)
  | .null => .ok none
  | .bool b => .ok (some b)
  | v => .error (.notBoolean v)

def ofTruth : Option Bool → Value
  | none => .null
  | some b => .bool b

def both : Option Bool → Option Bool → Option Bool
  | some false, _ | _, some false => some false
  | some true, some true => some true
  | _, _ => none

def either : Option Bool → Option Bool → Option Bool
  | some true, _ | _, some true => some true
  | some false, some false => some false
  | _, _ => none

def absorbing : Sql.Connective → Bool
  | .and => false
  | .or => true

def connect : Sql.Connective → Option Bool → Option Bool → Option Bool
  | .and => both
  | .or => either

def anySuffix {α : Type} (p : List α → Bool) : List α → Bool
  | [] => p []
  | a :: as => p (a :: as) || anySuffix p as

/-- Matching of `LIKE`: `%` stands for any text, `_` for one character, and a backslash
makes the next character stand for itself. A backslash at the end stands for itself. -/
def like : List Char → List Char → Bool
  | [], s => s.isEmpty
  | '%' :: p, s => anySuffix (like p) s
  | '_' :: p, s =>
    match s with
    | [] => false
    | _ :: s => like p s
  | '\\' :: c :: p, s =>
    match s with
    | [] => false
    | d :: s => d = c && like p s
  | c :: p, s =>
    match s with
    | [] => false
    | d :: s => d = c && like p s

def matchesLike (v w : Value) : Except Fault Bool :=
  match v, w with
  | .string s, .string p => .ok (like p.toList s.toList)
  | .bytes s, .bytes p => .ok (like (Utf8.lossyChars p) (Utf8.lossyChars s))
  | v, w => .error (.notText v w)

def holds : Sql.Comparison → Ordering → Bool
  | .eq, o => o = .eq
  | .ne, o => o != .eq
  | .lt, o => o = .lt
  | .le, o => o != .gt
  | .gt, o => o = .gt
  | .ge, o => o != .lt
  | .like, _ => false

def compare (op : Sql.Comparison) (v w : Value) : Except Fault Bool :=
  if op = .like then matchesLike v w
  else
    match v.compare? w with
    | some o => .ok (holds op o)
    | none => .error (.notComparable v w)

def fields : Value → List String → Except Fault Value
  | v, [] => .ok v
  | .null, _ => .ok .null
  | .struct fs, name :: names => fields ((fs.lookup name).getD .null) names
  | v, name :: _ => .error (.noField name v)

/-- A dotted name is a column of a table in scope if it starts with one, and of
the innermost row otherwise. Further names select fields. -/
def path (s : Scope) : List String → Except Fault Value
  | [] => .error .emptyPath
  | [name] => s.column name
  | first :: second :: rest =>
    match s.frame? first with
    | some r =>
      match r.get? second with
      | some v => fields v rest
      | none => .error (.unknownField first second)
    | none => do fields (← s.column first) (second :: rest)

def memberOf (v : Value) (items : List Value) : Value :=
  if v.isNull then .null
  else if items.any (·.equal v) then .bool true
  else if items.any Value.isNull then .null
  else .bool false

/-- The value of an expression. A comparison with null is null, and null is neither
true nor false; the right side of a connective counts only where the left leaves it open. -/
def eval (s : Scope) : Sql.Expr → Except Fault Value
  | .always => .ok (.bool true)
  | .column name => s.column name
  | .path names => path s names
  | .param name => s.param name
  | .paren e => eval s e
  | .compare op lhs rhs => do
    let v ← eval s lhs
    let w ← eval s rhs
    if v.isNull || w.isNull then return .null else return .bool (← compare op v w)
  | .logical op lhs rhs => do
    let a ← truth (← eval s lhs)
    if a = some (absorbing op) then return .bool (absorbing op)
    else do
      let b ← truth (← eval s rhs)
      return ofTruth (connect op a b)
  | .not e => do
    let a ← truth (← eval s e)
    return ofTruth (a.map Bool.not)
  | .isNull e negated => do
    let v ← eval s e
    return .bool (v.isNull != negated)
  | .member lhs array => do
    let v ← eval s lhs
    match ← eval s array with
    | .array items => return memberOf v items
    | .null => return .bool false
    | w => .error (.notArray w)
  | .call function _ => .error (.unknownFunction function)
  | .named key _ => .error (.namedArgument key)

@[simp] theorem eval_paren (s : Scope) (e : Sql.Expr) : eval s (.paren e) = eval s e := by
  rw [eval]

end RowForest.Eval
