import RowForest.Filter.Draft
import RowForest.Filter.Fault

namespace RowForest.Filter

structure Options where
  enumNames : Bool := false
  search : Option String := none

inductive Function
  | compare (op : Sql.Comparison)
  | logical (op : Sql.Connective)
  | not
  | has
  | timestamp

def Function.ofName? (name : String) : Option Function :=
  if name = "=" then some (.compare .eq)
  else if name = "!=" then some (.compare .ne)
  else if name = "<" then some (.compare .lt)
  else if name = "<=" then some (.compare .le)
  else if name = ">" then some (.compare .gt)
  else if name = ">=" then some (.compare .ge)
  else if name = "AND" then some (.logical .and)
  else if name = "OR" then some (.logical .or)
  else if name = "NOT" then some .not
  else if name = ":" then some .has
  else if name = timestampFunction then some .timestamp
  else none

/-- The value bound for a constant. There is no unsigned type, so large numbers wrap. -/
def Constant.toValue : Constant → Value
  | bool b => .bool b
  | int64 i => .int64 i
  | uint64 u => .int64 u.toInt64
  | double x => .float64 x
  | string s => .string s
  | bytes bs => .bytes bs

/-- Collects the values to bind. The parameter of each is named after its position. -/
abbrev Binder := StateT (List Value) (Except Fault)

def paramName (i : Nat) : String := "param_" ++ toString i

def bindValue (v : Value) : Binder Sql.Expr := fun vs =>
  .ok (.param (paramName vs.length), vs ++ [v])

def fail {α : Type} (fault : Fault) : Binder α := fun _ => .error fault

structure Context where
  types : Types
  options : Options

def ident (cx : Context) (id : Int) (name : String) : Binder Sql.Expr :=
  match cx.types.find? id with
  | none => fail (.unsupported (.untypedIdent id))
  | some (.enum _ values) =>
    match values.lookup name with
    | some n => bindValue (if cx.options.enumNames then .string name else .int64 (.ofInt n))
    | none => return .column name
  | some _ => return .column name

def select (operand : Sql.Expr) (field : String) : Binder Sql.Expr :=
  match operand with
  | .column name => return .path [name, field]
  | .path names => return .path (names ++ [field])
  | e => fail (.unsupported (.selectOperand e.text))

def isCondition (cx : Context) (e : Node) : Bool :=
  match cx.types.find? e.id with
  | some type => type = .bool
  | none =>
    match e with
    | .const _ (.bool _) => true
    | .const _ _ => false
    | .call _ function _ => function != timestampFunction
    | .ident _ _ | .select _ _ _ => true

def hasWildcard (s : String) : Bool :=
  s.toList.head? = some '*' || s.toList.getLast? = some '*'

def stripFirst : List Char → List Char
  | [] => []
  | c :: cs => if c = '*' then cs else c :: cs

def stripWildcards (cs : List Char) : List Char := (stripFirst (stripFirst cs).reverse).reverse

def wildcardMatch : List Node → Option (String × String)
  | [.ident _ name, .const _ (.string s)] => if hasWildcard s then some (name, s) else none
  | _ => none

def likePattern (s : String) : String :=
  .ofList (s.toList.map (fun c => if c = '*' then '%' else c))

def substring (function name s : String) : Binder Sql.Expr :=
  if '*' ∈ stripWildcards s.toList then fail (.wildcard function)
  else do return .compare .like (.column name) (← bindValue (.string (likePattern s)))

def has (cx : Context) : List Node → Binder Sql.Expr
  | [.ident id name, .const _ c] =>
    match cx.types.find? id with
    | some (.list item) =>
      if item.isPrimitive then do
        let array ← ident cx id name
        let lhs ← bindValue c.toValue
        return .member lhs array
      else fail (.unsupported .hasType)
    | some _ => fail (.unsupported .hasType)
    | none => fail (.unsupported (.untypedIdent id))
  | [_, _] => fail (.unsupported .hasOperands)
  | args => fail (.unsupported (.argumentCount ":" args.length))

def timestamp (function : String) : List Node → Binder Sql.Expr
  | [.const _ (.string s)] =>
    match Calendar.readTimestamp s with
    | .ok t => bindValue (.timestamp t)
    | .error fault => fail (.timestamp function (.calendar fault))
  | [_] => fail (.timestamp function .notConstant)
  | args => fail (.unsupported (.argumentCount function args.length))

def searchOption (key : String) (isSet : Constant → Bool) : Node → Binder (List Sql.Expr)
  | .const _ c => if isSet c then do return [.named key (← bindValue c.toValue)] else return []
  | _ => return []

def isSetText : Constant → Bool
  | .string s => s != ""
  | _ => false

def isSetCount : Constant → Bool
  | .int64 i => i != 0
  | _ => false

def isSetShare : Constant → Bool
  | .double x => !x.isZero
  | _ => false

def searchOptions : List Node → Binder (List Sql.Expr)
  | [language, count, share] => do
    let l ← searchOption "language_tag" isSetText language
    let n ← searchOption "min_ngrams" isSetCount count
    let p ← searchOption "min_ngrams_percent" isSetShare share
    return l ++ n ++ p
  | _ => return []

def search (function : String) (args : List Node) : Binder Sql.Expr :=
  if args.length != 2 && args.length != 5 then fail (.search function (.count args.length))
  else
    match args with
    | .ident _ name :: .const _ (.string query) :: rest =>
      if query.length < minSearchLength then fail (.search function (.length query.length))
      else do
        let q ← bindValue (.string query)
        let options ← searchOptions rest
        return .call "SEARCH_NGRAMS" (.column (name ++ "_tokens") :: q :: options)
    | .ident _ _ :: _ => fail (.search function .query)
    | _ => fail (.search function .column)

def requireSides (cx : Context) (function : String) (l r : Node) (a b : Sql.Expr) :
    Binder Unit :=
  if !isCondition cx l then fail (.notBoolean (.side function "lhs") a.text)
  else if !isCondition cx r then fail (.notBoolean (.side function "rhs") b.text)
  else return ()

/-- The predicate of a node. Every call stands in parentheses. -/
def exprOf (cx : Context) : Node → Binder Sql.Expr
  | .ident id name => ident cx id name
  | .const _ c => bindValue c.toValue
  | .select _ operand field => do select (← exprOf cx operand) field
  | .call _ function args =>
    match Function.ofName? function with
    | some (.compare op) =>
      match if op = .eq then wildcardMatch args else none with
      | some (name, s) => do return .paren (← substring function name s)
      | none =>
        match args with
        | [l, r] => do
          let a ← exprOf cx l
          let b ← exprOf cx r
          return .paren (.compare op a b)
        | args => fail (.unsupported (.argumentCount function args.length))
    | some (.logical op) =>
      match args with
      | [l, r] => do
        let a ← exprOf cx l
        let b ← exprOf cx r
        requireSides cx function l r a b
        return .paren (.logical op a b)
      | args => fail (.unsupported (.argumentCount function args.length))
    | some .not =>
      match args with
      | [e] => do
        let a ← exprOf cx e
        if isCondition cx e then return .paren (.not a)
        else fail (.notBoolean (.argument function) a.text)
      | args => fail (.unsupported (.argumentCount function args.length))
    | some .has => do return .paren (← has cx args)
    | some .timestamp => do return .paren (← timestamp function args)
    | none =>
      if cx.options.search = some function then do return .paren (← search function args)
      else fail (.unknownFunction function)

structure BoundPredicate where
  predicate : Sql.Expr
  params : Option Params

def namedValues : Nat → List Value → List (String × Value)
  | _, [] => []
  | i, v :: vs => (paramName i, v) :: namedValues (i + 1) vs

def predicate (filter : Filter) (options : Options) : Except Fault BoundPredicate :=
  match filter with
  | none => .ok ⟨.always, none⟩
  | some checked => do
    let cx : Context := ⟨checked.types, options⟩
    let (predicate, values) ← exprOf cx checked.root []
    if isCondition cx checked.root then
      return ⟨predicate, if values.isEmpty then none else some (.ofList (namedValues 0 values))⟩
    else .error (.notBoolean .root predicate.text)

end RowForest.Filter
