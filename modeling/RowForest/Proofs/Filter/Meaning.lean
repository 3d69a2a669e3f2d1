import RowForest.Eval.Value
import RowForest.Filter.Predicate
import RowForest.Proofs.KeyFormat

namespace RowForest.Filter

abbrev Outcome := Except Eval.Fault Value

def Constant.denotes : Constant → Value
  | bool b => .bool b
  | int64 i => .int64 i
  | uint64 u => .int64 (.ofNat u.toNat)
  | double x => .float64 x
  | string s => .string s
  | bytes bs => .bytes bs

def enumNumber? (types : Types) (id : Int) (name : String) : Option Int :=
  match types.find? id with
  | some (.enum _ values) => values.lookup name
  | _ => none

/-- A column of the innermost row that has it. -/
def columnOf (frames : List (String × Row)) (name : String) : Outcome :=
  match frames.findSome? (fun f => f.2.get? name) with
  | some v => .ok v
  | none => .error (.unknownColumn name)

def fieldOf (name : String) : Value → Outcome
  | .null => .ok .null
  | .struct fields => .ok ((fields.lookup name).getD .null)
  | v => .error (.noField name v)

def relations : List (String × List Ordering) :=
  [("=", [.eq]), ("!=", [.lt, .gt]), ("<", [.lt]), ("<=", [.lt, .eq]), (">", [.gt]),
    (">=", [.eq, .gt])]

def related (orders : List Ordering) (l r : Outcome) : Outcome := do
  let v ← l
  let w ← r
  if v = .null ∨ w = .null then return .null
  match v.compare? w with
  | some o => return .bool (o ∈ orders)
  | none => .error (.notComparable v w)

/-- A connective that ends at a left operand that is `stop`. Any other left operand is true, false or
null as well, and so is the right one, which settles it unless the left one is null: then only `stop`
does, and it is null otherwise. -/
def junction (stop : Bool) (l r : Outcome) : Outcome := do
  match ← l with
  | .bool a =>
    if a = stop then return .bool stop
    match ← r with
    | .bool b => return .bool b
    | .null => return .null
    | w => .error (.notBoolean w)
  | .null =>
    match ← r with
    | .bool b => return if b = stop then .bool stop else .null
    | .null => return .null
    | w => .error (.notBoolean w)
  | v => .error (.notBoolean v)

def negation (l : Outcome) : Outcome := do
  match ← l with
  | .bool b => return .bool (!b)
  | .null => return .null
  | v => .error (.notBoolean v)

/-- Whether an array holds a value. Null holds none, and an array with a null in it may. -/
def holding (array item : Outcome) : Outcome := do
  let v ← item
  match ← array with
  | .null => return .bool false
  | .array items =>
    if v = .null then return .null
    if ∃ w ∈ items, w.equal v then return .bool true
    if .null ∈ items then return .null
    return .bool false
  | w => .error (.notArray w)

def instant (text : Outcome) : Outcome := do
  match ← text with
  | .string s =>
    match Calendar.readTimestamp s with
    | .ok t => return .timestamp t
    | .error _ => .error (.unknownFunction timestampFunction)
  | _ => .error (.unknownFunction timestampFunction)

def unary (function : String) (arg : Outcome) : Outcome :=
  if function = "NOT" then negation arg
  else if function = timestampFunction then instant arg
  else .error (.unknownFunction function)

def binary (function : String) (l r : Outcome) : Outcome :=
  match relations.lookup function with
  | some orders => related orders l r
  | none =>
    if function = "AND" then junction false l r
    else if function = "OR" then junction true l r
    else if function = ":" then holding l r
    else .error (.unknownFunction function)

/-- The value of a filter where `column` reads the columns. -/
def Node.value (cx : Context) (column : String → Outcome) : Node → Outcome
  | .ident id name =>
    match enumNumber? cx.types id name with
    | some n => .ok (if cx.options.enumNames then .string name else .int64 (.ofInt n))
    | none => column name
  | .const _ c => .ok c.denotes
  | .select _ operand field => do fieldOf field (← operand.value cx column)
  | .call _ function [arg] => unary function (arg.value cx column)
  | .call _ function [l, r] => binary function (l.value cx column) (r.value cx column)
  | .call _ function _ => .error (.unknownFunction function)

def Node.root? : Node → Option String
  | .ident _ name => some name
  | .select _ operand _ => operand.root?
  | .const _ _ | .call _ _ _ => none

def Node.qualifier? : Node → Option String
  | .select _ operand _ => operand.root?
  | _ => none

mutual

def Node.nodes : Node → List Node
  | .ident id name => [.ident id name]
  | .const id c => [.const id c]
  | .select id operand field => .select id operand field :: operand.nodes
  | .call id function args => .call id function args :: nodesOf args

def nodesOf : List Node → List Node
  | [] => []
  | e :: es => e.nodes ++ nodesOf es

end

def Node.isSearch (options : Options) : Node → Bool
  | .call _ function _ => options.search = some function && (Function.ofName? function).isNone
  | _ => false

def Node.isWildcard : Node → Bool
  | .call _ function [.ident _ _, .const _ (.string s)] => function = "=" && hasWildcard s
  | _ => false

/-- Nothing in a filter is more than its tree says: no search, no pattern, and no dotted name
that starts with one of the tables. -/
structure Node.Plain (options : Options) (tables : List String) (e : Node) : Prop where
  search : ∀ n ∈ e.nodes, n.isSearch options = false
  wildcard : ∀ n ∈ e.nodes, n.isWildcard = false
  qualifier : ∀ n ∈ e.nodes, ∀ table ∈ n.qualifier?, table ∉ tables

theorem Node.self_mem_nodes (e : Node) : e ∈ e.nodes := by
  cases e <;> simp [nodes]

theorem mem_nodesOf {n : Node} {es : List Node} : n ∈ nodesOf es ↔ ∃ e ∈ es, n ∈ e.nodes := by
  induction es with
  | nil => simp [nodesOf]
  | cons e es ih => rw [nodesOf, List.mem_append, ih, List.exists_mem_cons_iff]

theorem Node.nodes_subset_of_arg {id : Int} {function : String} {args : List Node} {e : Node}
    (he : e ∈ args) : e.nodes ⊆ (Node.call id function args).nodes := by
  intro n hn
  exact List.mem_cons_of_mem _ (mem_nodesOf.2 ⟨e, he, hn⟩)

@[simp] theorem Constant.toValue_eq_denotes (c : Constant) : c.toValue = c.denotes := by
  cases c with
  | uint64 u => exact congrArg Value.int64 (Int64.toBitVec_inj.1 (by simp))
  | bool | int64 | double | string | bytes => rfl

open Eval

variable {function : String} {s : Scope} {a b : Sql.Expr}

def orders : Sql.Comparison → List Ordering
  | .eq => [.eq]
  | .ne => [.lt, .gt]
  | .lt => [.lt]
  | .le => [.lt, .eq]
  | .gt => [.gt]
  | .ge => [.eq, .gt]
  | .like => []

def Function.spelling : Function → String
  | compare .eq => "="
  | compare .ne => "!="
  | compare .lt => "<"
  | compare .le => "<="
  | compare .gt => ">"
  | compare .ge => ">="
  | compare .like => ""
  | logical .and => "AND"
  | logical .or => "OR"
  | not => "NOT"
  | has => ":"
  | timestamp => timestampFunction

theorem ite_eq_some {α : Type} {c : Prop} [Decidable c] {x y : α} {rest : Option α}
    (h : (if c then some x else rest) = some y) : c ∧ x = y ∨ rest = some y := by
  split at h
  · exact .inl ⟨‹c›, Option.some.inj h⟩
  · exact .inr h

theorem eq_spelling {f : Function} (h : Function.ofName? function = some f) :
    function = f.spelling ∧ f ≠ .compare .like := by
  unfold Function.ofName? at h
  -- the names are tried one after the other
  iterate 11
    obtain ⟨rfl, rfl⟩ | h := ite_eq_some h
    · exact ⟨rfl, nofun⟩
  cases h

theorem binary_compare {op : Sql.Comparison} (h : Function.ofName? function = some (.compare op))
    (l r : Outcome) : op ≠ .like ∧ binary function l r = related (orders op) l r := by
  obtain ⟨rfl, hlike⟩ := eq_spelling h
  have hop : op ≠ .like := fun ho => hlike (congrArg Function.compare ho)
  have hlookup : relations.lookup (Function.compare op).spelling = some (orders op) := by
    cases op with
    | like => exact absurd rfl hop
    | eq | ne | lt | le | gt | ge => decide
  rw [binary, hlookup]
  exact ⟨hop, rfl⟩

theorem binary_logical {op : Sql.Connective} (h : Function.ofName? function = some (.logical op))
    (l r : Outcome) : binary function l r = junction (absorbing op) l r := by
  obtain ⟨rfl, -⟩ := eq_spelling h
  cases op <;> rfl

theorem binary_has (h : Function.ofName? function = some .has) (l r : Outcome) :
    binary function l r = holding l r := by
  obtain ⟨rfl, -⟩ := eq_spelling h
  rfl

theorem unary_not (h : Function.ofName? function = some .not) (arg : Outcome) :
    unary function arg = negation arg := by
  obtain ⟨rfl, -⟩ := eq_spelling h
  rfl

theorem unary_timestamp (h : Function.ofName? function = some .timestamp) (arg : Outcome) :
    unary function arg = instant arg := by
  obtain ⟨rfl, -⟩ := eq_spelling h
  rfl

theorem holds_eq {op : Sql.Comparison} (hop : op ≠ .like) (o : Ordering) :
    holds op o = decide (o ∈ orders op) := by
  cases op with
  | like => exact absurd rfl hop
  | eq | ne | lt | le | gt | ge => cases o <;> rfl

theorem eval_compare {op : Sql.Comparison} (hop : op ≠ .like) :
    eval s (.compare op a b) = related (orders op) (eval s a) (eval s b) := by
  rw [eval, related]
  refine congrArg₂ _ rfl (funext fun v => congrArg₂ _ rfl (funext fun w => ?_))
  simp only [Bool.or_eq_true, Value.isNull_iff]
  rw [Eval.compare, if_neg hop]
  cases v.compare? w with
  | none => rfl
  | some o =>
      simp only [holds_eq hop]
      rfl

theorem eval_logical (op : Sql.Connective) :
    eval s (.logical op a b) = junction (absorbing op) (eval s a) (eval s b) := by
  rw [eval, junction]
  refine congrArg₂ _ rfl (funext fun v => ?_)
  cases v with
  | bool x =>
      by_cases hx : x = absorbing op
      · simp only [truth, Except.ok_bind, hx, if_true]
      · have hstop : ¬some x = some (absorbing op) := fun h => hx (Option.some.inj h)
        simp only [truth, Except.ok_bind, if_neg hx, if_neg hstop]
        refine congrArg₂ _ rfl (funext fun w => ?_)
        cases w with
        | bool y => cases op <;> cases x <;> cases y <;> first | rfl | exact absurd rfl hx
        | null => cases op <;> cases x <;> first | rfl | exact absurd rfl hx
        | _ => rfl
  | null =>
      have hstop : ¬none = some (absorbing op) := by simp
      simp only [truth, Except.ok_bind, if_neg hstop]
      refine congrArg₂ _ rfl (funext fun w => ?_)
      cases w with
      | bool y => cases op <;> cases y <;> rfl
      | null => cases op <;> rfl
      | _ => rfl
  | _ => rfl

theorem eval_not : eval s (.not a) = negation (eval s a) := by
  rw [eval, negation]
  refine congrArg₂ _ rfl (funext fun v => ?_)
  cases v <;> rfl

theorem eval_member : eval s (.member a b) = holding (eval s b) (eval s a) := by
  rw [eval, holding]
  refine congrArg₂ _ rfl (funext fun v => congrArg₂ _ rfl (funext fun w => ?_))
  cases w with
  | array items =>
      simp only [memberOf, List.any_eq_true, Value.isNull_iff, exists_eq_right]
      split_ifs <;> rfl
  | _ => rfl

theorem fields_append (v : Value) (names : List String) (name : String) :
    fields v (names ++ [name]) = fields v names >>= fieldOf name := by
  induction names generalizing v with
  | nil => cases v <;> rfl
  | cons n names ih =>
      cases v with
      | null => rfl
      | struct fs => exact ih _
      | _ => rfl

end RowForest.Filter
