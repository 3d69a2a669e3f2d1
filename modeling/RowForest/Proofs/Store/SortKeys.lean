import RowForest.Proofs.Eval.Sorting
import RowForest.Proofs.Plan.Statement
import RowForest.Proofs.Store.Order

namespace RowForest

open Eval

namespace Eval

theorem fields_accepted {t : ColumnType} {v x : Value} {names : List String} (hv : t.accepts v = true)
    (h : fields v names = .ok x) : t.accepts x = true := by
  cases names with
  | nil =>
      rw [fields] at h
      cases h
      exact hv
  | cons name names =>
      cases v with
      | null =>
          cases h
          rfl
      | struct fs => simp [ColumnType.accepts, Value.baseType?] at hv
      | _ => cases h

end Eval

/-- Whether all values that satisfy `P` are one value or fit one column type. -/
def Value.Uniform (P : Value → Prop) : Prop :=
  (∃ v, ∀ x, P x → x = v) ∨ ∃ t : ColumnType, ∀ x, P x → t.accepts x = true

namespace RowStore

variable {rs : RowStore} {t : Table} {ps : Params} {order : List Sql.Order} {rows : List Row}

def HasValue (rs : RowStore) (t : Table) (ps : Params) (e : Sql.Expr) (x : Value) : Prop :=
  ∃ r ∈ rs.stored t, eval ((Scope.ofParams ps).push t.name r) e = .ok x

theorem uniform_of_column {P : Value → Prop} (name : String) (h : ∀ x, P x →
    ∃ column, t.column? name = some column ∧ column.type.accepts x = true) : Value.Uniform P := by
  cases hcolumn : t.column? name with
  | none =>
      refine .inl ⟨.null, fun x hx => ?_⟩
      obtain ⟨column, hsome, -⟩ := h x hx
      cases hcolumn.symm.trans hsome
  | some column =>
      refine .inr ⟨column.type, fun x hx => ?_⟩
      obtain ⟨column', hsome, haccepts⟩ := h x hx
      cases hcolumn.symm.trans hsome
      exact haccepts

theorem uniform_of_boolean {e : Sql.Expr} (h : ∀ sc, Boolean sc e) : Value.Uniform (rs.HasValue t ps e) := by
  refine .inr ⟨.scalar .bool, ?_⟩
  rintro x ⟨r, -, hx⟩
  obtain ⟨o, rfl⟩ := h _ x hx
  cases o <;> rfl

variable (h : rs.Reachable) (ht : t ∈ rs.db.tables)
include h ht

theorem accepts_get? {r : Row} (hr : r ∈ rs.stored t) {name : String} {x : Value}
    (hx : r.get? name = some x) : ∃ column, t.column? name = some column ∧ column.type.accepts x = true := by
  have hmem : name ∈ t.columnNames := (holds_of_mem_stored h ht hr).columns ▸ Row.mem_columns_of_get? hx
  obtain ⟨column, hcolumn⟩ := Option.isSome_iff_exists.1 ((t.hasColumn_iff name).2 hmem)
  have haccepts := (accepts_of_mem_stored h ht hr hcolumn).1
  rw [Row.get, hx, Option.getD_some] at haccepts
  exact ⟨column, hcolumn, haccepts⟩

theorem accepts_column {r : Row} (hr : r ∈ rs.stored t) {name : String} {x : Value}
    (hx : ((Scope.ofParams ps).push t.name r).column name = .ok x) :
    ∃ column, t.column? name = some column ∧ column.type.accepts x = true := by
  refine accepts_get? h ht hr ?_
  simp only [Scope.column, Scope.push, Scope.ofParams, List.findSome?_cons, List.findSome?_nil] at hx
  cases hget : r.get? name with
  | none =>
      rw [hget] at hx
      cases hx
  | some v =>
      rw [hget] at hx
      cases hx
      rfl

theorem uniform_path (names : List String) : Value.Uniform (rs.HasValue t ps (.path names)) := by
  cases names with
  | nil => exact .inl ⟨.null, by rintro x ⟨r, -, hx⟩; cases hx⟩
  | cons first names =>
      cases names with
      | nil =>
          refine uniform_of_column (t := t) first ?_
          rintro x ⟨r, hr, hx⟩
          exact accepts_column h ht hr hx
      | cons second names =>
          by_cases hfirst : first = t.name
          · refine uniform_of_column (t := t) second ?_
            rintro x ⟨r, hr, hx⟩
            have hframe : ((Scope.ofParams ps).push t.name r).frame? first = some r := by
              simp [Scope.frame?, Scope.push, hfirst]
            simp only [eval, path, hframe] at hx
            cases hget : r.get? second with
            | none =>
                rw [hget] at hx
                cases hx
            | some v =>
                rw [hget] at hx
                obtain ⟨column, hcolumn, haccepts⟩ := accepts_get? h ht hr hget
                exact ⟨column, hcolumn, fields_accepted haccepts hx⟩
          · refine uniform_of_column (t := t) first ?_
            rintro x ⟨r, hr, hx⟩
            have hframe : ((Scope.ofParams ps).push t.name r).frame? first = none := by
              rw [Scope.frame?, Scope.push, Fields.lookup_cons_of_ne hfirst]
              rfl
            simp only [eval, path, hframe, Except.bind_eq_ok] at hx
            obtain ⟨v, hv, hx⟩ := hx
            obtain ⟨column, hcolumn, haccepts⟩ := accepts_column h ht hr hv
            exact ⟨column, hcolumn, fields_accepted haccepts hx⟩

/-- What an expression comes to on the rows of a table depends on the row only as far as the type
of one column allows. -/
theorem uniform : ∀ e : Sql.Expr, Value.Uniform (rs.HasValue t ps e)
  | .always => .inl ⟨.bool true, by rintro x ⟨r, -, hx⟩; cases hx; rfl⟩
  | .column name => uniform_of_column name (by rintro x ⟨r, hr, hx⟩; exact accepts_column h ht hr hx)
  | .path names => uniform_path h ht names
  | .param name => by
    cases hparam : ps.find? name with
    | none =>
        refine .inl ⟨.null, ?_⟩
        rintro x ⟨r, -, hx⟩
        rw [eval, Scope.param, Scope.push, Scope.ofParams, hparam] at hx
        cases hx
    | some v =>
        refine .inl ⟨v, ?_⟩
        rintro x ⟨r, -, hx⟩
        rw [eval, Scope.param, Scope.push, Scope.ofParams, hparam] at hx
        cases hx
        rfl
  | .paren e => uniform e
  | .compare op lhs rhs => uniform_of_boolean fun _ => boolean_compare op lhs rhs
  | .logical op lhs rhs => uniform_of_boolean fun _ => boolean_logical op lhs rhs
  | .not e => uniform_of_boolean fun _ => boolean_not e
  | .isNull e negated => uniform_of_boolean fun _ => boolean_isNull e negated
  | .member lhs array => uniform_of_boolean fun _ => boolean_member lhs array
  | .call function args => .inl ⟨.null, by rintro x ⟨r, -, hx⟩; cases hx⟩
  | .named key value => .inl ⟨.null, by rintro x ⟨r, -, hx⟩; cases hx⟩

theorem sortable_of_hasValue {e : Sql.Expr} {v w : Value} (hv : rs.HasValue t ps e v)
    (hw : rs.HasValue t ps e w) (hv' : v.NaNFree) (hw' : w.NaNFree) : v.Sortable w := by
  rcases uniform h ht e with ⟨u, hu⟩ | ⟨type, htype⟩
  · exact .inl ((hu v hv).trans (hu w hw).symm)
  · exact .inr ⟨type, ⟨htype v hv, hv'⟩, htype w hw, hw'⟩

theorem sortRows_filter_stored {sorted : List Row} (hrows : rows ⊆ rs.stored t)
    (hnumbers : ∀ r ∈ rows, ∀ o ∈ order, ∀ v,
      evalIn ((Scope.ofParams ps).push t.name r) o.key = .ok v → v.NaNFree)
    (hsorted : sortRows (.ofParams ps) t.name order rows = .ok sorted) (p : Row → Bool) :
    sortRows (.ofParams ps) t.name order (rows.filter p) = .ok (sorted.filter p) := by
  refine sortRows_filter (fun a ha b hb o ho v w hv hw => ?_) hsorted p
  exact sortable_of_hasValue h ht ⟨a, hrows ha, Except.mapError_eq_ok.1 hv⟩
    ⟨b, hrows hb, Except.mapError_eq_ok.1 hw⟩ (hnumbers a ha o ho v hv) (hnumbers b hb o ho w hw)

end RowStore

theorem Table.mergeSort_filter {t : Table} {rows : List Row} (h : ∀ a ∈ rows, ∀ b ∈ rows,
    ∀ c ∈ t.keyColumns, (a.get c).Comparable (b.get c)) (p : Row → Bool) :
    (rows.filter p).mergeSort t.keyLE = (rows.mergeSort t.keyLE).filter p :=
  List.mergeSort_filter_of_transCmp (fun a ha b hb => keyLE_eq (h a ha b hb)) p

end RowForest
