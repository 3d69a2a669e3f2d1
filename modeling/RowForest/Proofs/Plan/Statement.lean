import RowForest.Plan.Statement
import RowForest.Proofs.Eval.Boolean
import RowForest.Proofs.Eval.Rows
import RowForest.Proofs.Read.Levelwise

namespace RowForest

open Eval

theorem Key.parentKey_ofRow_iff {parent child : Table} (hstarts : parent.keyColumns <+: child.keyColumns)
    {p c : Row} : (Key.ofRow child c).parentKey parent = Key.ofRow parent p ↔
      ∀ k ∈ parent.keyColumns, c.get k = p.get k := by
  obtain ⟨rest, hrest⟩ := hstarts
  have hlength : (parent.keyColumns.map c.get).length = parent.primaryKey.length := by
    simp [Table.keyColumns]
  have hparent : (Key.ofRow child c).parentKey parent = ⟨parent.keyColumns.map c.get⟩ := by
    rw [Key.ofRow, Key.parentKey, Key.leading, ← hrest, List.map_append, List.take_left' hlength]
  rw [hparent, Key.ofRow, Key.mk.injEq, List.map_inj_left]

/-- The value of the predicate that ties a child row to its parent row, with the two in scope. -/
def Table.tie (parent child : Table) (p c : Row) : Except Fault Value :=
  eval (((Scope.ofParams .empty).push parent.name p).push child.name c)
    (ReadSettings.correlation parent child)

def Table.ties (parent child : Table) (p c : Row) : Bool :=
  match parent.tie child p c with
  | .ok v => v.asBool? = some true
  | .error _ => false

namespace Eval

variable {sc sc' : Scope} {parent child : Table} {p c : Row}

theorem frame?_push (sc : Scope) (hne : parent.name ≠ child.name) :
    ((sc.push parent.name p).push child.name c).frame? child.name = some c ∧
      ((sc.push parent.name p).push child.name c).frame? parent.name = some p := by
  constructor
  · simp [Scope.frame?, Scope.push]
  · rw [Scope.frame?, Scope.push, Fields.lookup_cons_of_ne hne]
    simp [Scope.push]

theorem eval_tie_congr (hc : sc.frame? child.name = some c) (hp : sc.frame? parent.name = some p)
    (hc' : sc'.frame? child.name = some c) (hp' : sc'.frame? parent.name = some p) (column : String) :
    eval sc (ReadSettings.tie parent child column) = eval sc' (ReadSettings.tie parent child column) := by
  have hchild : path sc [child.name, column] = path sc' [child.name, column] := by
    simp only [path, hc, hc']
  have hparent : path sc [parent.name, column] = path sc' [parent.name, column] := by
    simp only [path, hp, hp']
  unfold ReadSettings.tie
  dsimp only
  split
  · simp only [Sql.Expr.equals, eval, hchild, hparent]
  · simp only [Sql.Expr.equals, Sql.Expr.or, Sql.Expr.and, eval, hchild, hparent]

theorem eval_foldl_and_congr {es : List Sql.Expr} (h : ∀ e ∈ es, eval sc e = eval sc' e) {e : Sql.Expr}
    (he : eval sc e = eval sc' e) : eval sc (es.foldl .and e) = eval sc' (es.foldl .and e) := by
  induction es generalizing e with
  | nil => exact he
  | cons e' es ih =>
      refine ih (fun e he => h e (List.mem_cons_of_mem _ he)) ?_
      simp only [Sql.Expr.and, eval, he, h e' List.mem_cons_self]

theorem eval_correlation_congr (hc : sc.frame? child.name = some c) (hp : sc.frame? parent.name = some p)
    (hc' : sc'.frame? child.name = some c) (hp' : sc'.frame? parent.name = some p) :
    eval sc (ReadSettings.correlation parent child) = eval sc' (ReadSettings.correlation parent child) := by
  have hties : ∀ e ∈ parent.keyColumns.map (ReadSettings.tie parent child), eval sc e = eval sc' e := by
    intro e he
    obtain ⟨column, -, rfl⟩ := List.mem_map.1 he
    exact eval_tie_congr hc hp hc' hp' column
  unfold ReadSettings.correlation Sql.Expr.conjunction
  split
  · rfl
  · next e es hes =>
    rw [hes] at hties
    exact eval_foldl_and_congr (fun e he => hties e (List.mem_cons_of_mem _ he))
      (hties e List.mem_cons_self)

theorem eval_correlation (sc : Scope) (hne : parent.name ≠ child.name) :
    eval ((sc.push parent.name p).push child.name c) (ReadSettings.correlation parent child) =
      parent.tie child p c := by
  obtain ⟨hc, hp⟩ := frame?_push (p := p) (c := c) sc hne
  obtain ⟨hc', hp'⟩ := frame?_push (p := p) (c := c) (.ofParams .empty) hne
  exact eval_correlation_congr hc hp hc' hp'

theorem eval_and_true {lhs rhs : Sql.Expr} (hlhs : eval sc lhs = .ok (.bool true))
    (hrhs : Boolean sc rhs) : eval sc (.and lhs rhs) = eval sc rhs := by
  rw [Sql.Expr.and, eval, hlhs, Except.ok_bind, truth, Except.ok_bind]
  cases hv : eval sc rhs with
  | error e => rfl
  | ok v =>
      obtain ⟨o, rfl⟩ := hrhs v hv
      rw [Except.ok_bind, truth_ofTruth]
      cases o with
      | none => rfl
      | some b => cases b <;> rfl

theorem eval_and_false {lhs : Sql.Expr} (hlhs : eval sc lhs = .ok (.bool false)) (rhs : Sql.Expr) :
    eval sc (.and lhs rhs) = .ok (.bool false) := by
  rw [Sql.Expr.and, eval, hlhs]
  rfl

theorem keeps_some (table : String) (e : Sql.Expr) (r : Row) : keeps sc table (some e) r =
    (evalIn (sc.push table r) e).map (fun v => decide (v.asBool? = some true)) := by
  simp only [keeps]
  cases evalIn (sc.push table r) e with
  | error e => rfl
  | ok v =>
      cases v with
      | bool b => cases b <;> rfl
      | _ => rfl

theorem boolean_tie (column : String) : Boolean sc (ReadSettings.tie parent child column) := by
  unfold ReadSettings.tie
  dsimp only
  split
  · exact boolean_compare _ _ _
  · exact boolean_logical _ _ _

theorem boolean_foldl_and {es : List Sql.Expr} {e : Sql.Expr} (he : Boolean sc e) :
    Boolean sc (es.foldl .and e) := by
  induction es generalizing e with
  | nil => exact he
  | cons e' es ih => exact ih (boolean_logical _ _ _)

theorem boolean_correlation : Boolean sc (ReadSettings.correlation parent child) := by
  unfold ReadSettings.correlation Sql.Expr.conjunction
  split
  · intro v hv
    cases hv
    exact ⟨some true, rfl⟩
  · next e es hes =>
    have he : e ∈ parent.keyColumns.map (ReadSettings.tie parent child) := by
      rw [hes]
      exact List.mem_cons_self
    obtain ⟨column, -, rfl⟩ := List.mem_map.1 he
    exact boolean_foldl_and (boolean_tie column)

/-- Whether an expression is true exactly if something holds, and false or null otherwise. -/
def Decides (sc : Scope) (e : Sql.Expr) (P : Prop) : Prop :=
  ∃ o, eval sc e = .ok (ofTruth o) ∧ (o = some true ↔ P)

/-- Whether values that are not null can be compared, and only equal ones come out as equal. -/
def Settled (v w : Value) : Prop :=
  v.isNull = false → w.isNull = false → ∃ o, v.compare? w = some o ∧ (o = .eq ↔ v = w)

theorem decides_bool {e : Sql.Expr} {b : Bool} (h : eval sc e = .ok (.bool b)) :
    Decides sc e (b = true) :=
  ⟨some b, h, by simp⟩

theorem decides_paren {e : Sql.Expr} {P : Prop} (h : Decides sc e P) : Decides sc (.paren e) P := by
  obtain ⟨o, heval, ho⟩ := h
  exact ⟨o, by rw [eval, heval], ho⟩

theorem decides_and {lhs rhs : Sql.Expr} {P Q : Prop} (hlhs : Decides sc lhs P)
    (hrhs : Decides sc rhs Q) : Decides sc (.and lhs rhs) (P ∧ Q) := by
  obtain ⟨a, hlhs, ha⟩ := hlhs
  obtain ⟨b, hrhs, hb⟩ := hrhs
  rw [Decides, Sql.Expr.and, eval, hlhs, Except.ok_bind, truth_ofTruth, Except.ok_bind, hrhs,
    Except.ok_bind, truth_ofTruth, Except.ok_bind, ← ha, ← hb]
  refine ⟨both a b, ?_, ?_⟩ <;> rcases a with - | (_ | _) <;> rcases b with - | (_ | _) <;>
    simp [both, absorbing, connect, ofTruth]

theorem decides_or {lhs rhs : Sql.Expr} {P Q : Prop} (hlhs : Decides sc lhs P)
    (hrhs : Decides sc rhs Q) : Decides sc (.or lhs rhs) (P ∨ Q) := by
  obtain ⟨a, hlhs, ha⟩ := hlhs
  obtain ⟨b, hrhs, hb⟩ := hrhs
  rw [Decides, Sql.Expr.or, eval, hlhs, Except.ok_bind, truth_ofTruth, Except.ok_bind, hrhs,
    Except.ok_bind, truth_ofTruth, Except.ok_bind, ← ha, ← hb]
  refine ⟨either a b, ?_, ?_⟩ <;> rcases a with - | (_ | _) <;> rcases b with - | (_ | _) <;>
    simp [either, absorbing, connect, ofTruth]

theorem decides_isNull {e : Sql.Expr} {v : Value} (h : eval sc e = .ok v) :
    Decides sc (.isNull e false) (v.isNull = true) := by
  refine decides_bool ?_
  rw [eval, h, Except.ok_bind, Bool.bne_false]
  rfl

theorem decides_equals {lhs rhs : Sql.Expr} {v w : Value} (hlhs : eval sc lhs = .ok v)
    (hrhs : eval sc rhs = .ok w) (h : Settled v w) :
    Decides sc (.equals lhs rhs) ((v.isNull = false ∧ w.isNull = false) ∧ v = w) := by
  rw [Decides, Sql.Expr.equals, eval, hlhs, Except.ok_bind, hrhs, Except.ok_bind]
  cases hv : v.isNull with
  | true => exact ⟨none, by simp; rfl, by simp⟩
  | false =>
      cases hw : w.isNull with
      | true => exact ⟨none, by simp; rfl, by simp⟩
      | false =>
          obtain ⟨o, ho, heq⟩ := h hv hw
          have hcompare : Eval.compare .eq v w = .ok (holds .eq o) := by
            rw [Eval.compare, if_neg (by simp), ho]
          refine ⟨some (holds .eq o), ?_, ?_⟩
          · rw [Bool.or_self, if_neg Bool.false_ne_true, hcompare]
            rfl
          · simp [holds, heq]

theorem keeps_of_decides {table : String} {e : Sql.Expr} {r : Row} {P : Prop}
    (h : Decides (sc.push table r) e P) {b : Bool} (hb : keeps sc table (some e) r = .ok b) : b = true ↔ P := by
  obtain ⟨o, heval, ho⟩ := h
  rw [keeps_some, evalIn, heval] at hb
  cases hb
  rw [← ho]
  rcases o with - | (_ | _) <;> simp [ofTruth, Value.asBool?]

theorem keeps_and {table : String} {e cond : Sql.Expr} {r : Row} {x : Bool}
    (hcond : eval (sc.push table r) cond = .ok (.bool x))
    {b both : Bool} (hb : keeps sc table (some e) r = .ok b)
    (hboth : keeps sc table (some (.and (.paren e) cond)) r = .ok both) : both = (b && x) := by
  have hvalue := hboth
  rw [keeps_some, Except.map_eq_ok, evalIn] at hvalue
  obtain ⟨v, hvalue, -⟩ := hvalue
  rw [Except.mapError_eq_ok, Sql.Expr.and, eval, eval, Except.bind_eq_ok] at hvalue
  obtain ⟨w, hw, hvalue⟩ := hvalue
  obtain ⟨o, ho, -⟩ := Except.bind_eq_ok.1 hvalue
  have he : Decides (sc.push table r) e (o = some true) := ⟨o, by rw [hw, truth_eq_ok ho], Iff.rfl⟩
  have hnarrow := keeps_of_decides (decides_and (decides_paren he) (decides_bool hcond)) hboth
  rw [Bool.eq_iff_iff, Bool.and_eq_true, hnarrow, keeps_of_decides he hb]

theorem decides_tie {column : String} (hlhs : eval sc (.path [child.name, column]) = .ok (c.get column))
    (hrhs : eval sc (.path [parent.name, column]) = .ok (p.get column))
    (hnull : (child.column? column).any (·.notNull) = true → (c.get column).isNull = false)
    (h : Settled (c.get column) (p.get column)) :
    Decides sc (ReadSettings.tie parent child column) (c.get column = p.get column) := by
  have hequals := decides_equals hlhs hrhs h
  unfold ReadSettings.tie
  dsimp only
  split
  · next hnotNull =>
    obtain ⟨o, heval, ho⟩ := hequals
    refine ⟨o, heval, ho.trans ⟨And.right, fun heq => ⟨⟨hnull hnotNull, ?_⟩, heq⟩⟩⟩
    rw [← heq]
    exact hnull hnotNull
  · have hnulls := decides_paren (decides_and (decides_isNull hlhs) (decides_isNull hrhs))
    obtain ⟨o, heval, ho⟩ := decides_paren (decides_or hnulls hequals)
    refine ⟨o, heval, ho.trans ⟨?_, fun heq => ?_⟩⟩
    · rintro (⟨hc, hp⟩ | ⟨-, heq⟩)
      · rw [Value.isNull_iff.1 hc, Value.isNull_iff.1 hp]
      · exact heq
    · rw [← heq]
      cases hc : (c.get column).isNull <;> simp

theorem decides_foldl_and {α : Type} {as : List α} {f : α → Sql.Expr} {Q : α → Prop}
    (has : ∀ a ∈ as, Decides sc (f a) (Q a)) {e : Sql.Expr} {P : Prop} (he : Decides sc e P) :
    Decides sc ((as.map f).foldl .and e) (P ∧ ∀ a ∈ as, Q a) := by
  induction as generalizing e P with
  | nil => simpa using he
  | cons a as ih =>
      have hrest := ih (fun a ha => has a (List.mem_cons_of_mem _ ha))
        (decides_and he (has a List.mem_cons_self))
      simpa only [List.map_cons, List.foldl_cons, List.forall_mem_cons, and_assoc] using hrest

theorem decides_conjunction {α : Type} {as : List α} {f : α → Sql.Expr} {Q : α → Prop}
    (has : ∀ a ∈ as, Decides sc (f a) (Q a)) :
    Decides sc (.conjunction (as.map f)) (∀ a ∈ as, Q a) := by
  cases as with
  | nil => exact ⟨some true, rfl, by simp⟩
  | cons a as =>
      rw [List.forall_mem_cons]
      exact decides_foldl_and (fun a ha => has a (List.mem_cons_of_mem _ ha)) (has a List.mem_cons_self)

theorem eval_path {table column : String} {r : Row} (hr : sc.frame? table = some r)
    (hcolumn : column ∈ r.columns) : eval sc (.path [table, column]) = .ok (r.get column) := by
  simp only [eval, path, hr, Row.get?_of_mem hcolumn, fields]

/-- What it takes for a child row to be compared with a parent row in one key column. -/
structure Matched (child : Table) (p c : Row) (column : String) : Prop where
  left : column ∈ c.columns
  right : column ∈ p.columns
  not_null : (child.column? column).any (·.notNull) = true → (c.get column).isNull = false
  settled : Settled (c.get column) (p.get column)

theorem decides_correlation (hc : sc.frame? child.name = some c) (hp : sc.frame? parent.name = some p)
    (h : ∀ k ∈ parent.keyColumns, Matched child p c k) :
    Decides sc (ReadSettings.correlation parent child) (∀ k ∈ parent.keyColumns, c.get k = p.get k) := by
  exact decides_conjunction fun k hk => decides_tie (eval_path hc (h k hk).left)
    (eval_path hp (h k hk).right) (h k hk).not_null (h k hk).settled

theorem ties_iff (hne : parent.name ≠ child.name) (h : ∀ k ∈ parent.keyColumns, Matched child p c k) :
    (∃ v, parent.tie child p c = .ok v) ∧
      (parent.ties child p c = true ↔ ∀ k ∈ parent.keyColumns, c.get k = p.get k) := by
  obtain ⟨hc, hp⟩ := frame?_push (p := p) (c := c) (.ofParams .empty) hne
  obtain ⟨o, heval, ho⟩ := decides_correlation hc hp h
  have hvalue : parent.tie child p c = .ok (ofTruth o) := heval
  refine ⟨⟨_, hvalue⟩, ?_⟩
  rw [Table.ties, hvalue, ← ho]
  rcases o with - | (_ | _) <;> simp [ofTruth, Value.asBool?]

end Eval

namespace ReadSettings

variable {s : ReadSettings} {showDeleted : Bool} {sc : Scope} {parent child : Table} {p c : Row}

theorem eval_visible (sc : Scope) (table : String) {column : String} (hc : column ∈ c.columns) :
    eval (sc.push table c) (.isNull (.column column) false) = .ok (.bool (c.get column).isNull) := by
  rw [eval, eval, column_push hc, Except.ok_bind]
  simp

theorem softDelete_mem {column : Column} (h : child.softDelete? s.softDeleteColumn = some column) :
    column.name ∈ child.columnNames := by
  obtain ⟨hcolumn, -⟩ := Option.filter_eq_some_iff.1 h
  exact List.mem_map.2 ⟨column, List.mem_of_find?_eq_some hcolumn, rfl⟩

/-- The filter of a child level keeps the rows that are shown and tied to the parent's row.
It looks at the tie of the rows that are shown only. -/
theorem keeps_childFilter (hne : parent.name ≠ child.name) (hcolumns : c.columns = child.columnNames) :
    keeps (sc.push parent.name p) child.name (some (s.childFilter showDeleted parent child)) c =
      if s.shows showDeleted child c then
        (parent.tie child p c).mapError .eval |>.map (fun _ => parent.ties child p c)
      else .ok false := by
  have htie := eval_correlation (p := p) (c := c) sc hne
  have hkept : (evalIn ((sc.push parent.name p).push child.name c) (correlation parent child)).map
      (fun v => decide (v.asBool? = some true)) =
      ((parent.tie child p c).mapError .eval).map (fun _ => parent.ties child p c) := by
    rw [evalIn, htie, Table.ties]
    cases parent.tie child p c <;> rfl
  rw [keeps_some, childFilter, shows]
  cases showDeleted with
  | true => exact hkept
  | false =>
      cases hdelete : child.softDelete? s.softDeleteColumn with
      | none => simpa [visible?, hdelete] using hkept
      | some column =>
          have hmem : column.name ∈ c.columns := hcolumns ▸ softDelete_mem hdelete
          have hvisible := eval_visible (sc.push parent.name p) child.name hmem
          simp only [visible?, hdelete, Option.map_some, Bool.false_or, Bool.false_eq_true, if_false]
          cases hnull : (c.get column.name).isNull with
          | true =>
              rw [hnull] at hvisible
              rw [evalIn, eval_and_true hvisible boolean_correlation]
              exact hkept
          | false =>
              rw [hnull] at hvisible
              rw [evalIn, eval_and_false hvisible]
              rfl

end ReadSettings

end RowForest
