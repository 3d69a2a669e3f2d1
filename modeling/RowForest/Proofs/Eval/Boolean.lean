import RowForest.Eval.Value
import RowForest.Proofs.Outcome

namespace RowForest.Eval

variable {sc : Scope} {e lhs rhs array : Sql.Expr}

/-- Whether an expression comes out as a truth value wherever it comes out at all. -/
def Boolean (sc : Scope) (e : Sql.Expr) : Prop :=
  ∀ v, eval sc e = .ok v → ∃ o, v = ofTruth o

theorem truth_ofTruth (o : Option Bool) : truth (ofTruth o) = .ok o := by
  cases o <;> rfl

theorem truth_eq_ok {v : Value} {o : Option Bool} (h : truth v = .ok o) : v = ofTruth o := by
  cases v <;> cases h <;> rfl

theorem boolean_compare (op : Sql.Comparison) (lhs rhs : Sql.Expr) : Boolean sc (.compare op lhs rhs) := by
  intro v hv
  simp only [eval, Except.bind_eq_ok] at hv
  obtain ⟨a, -, b, -, hv⟩ := hv
  split at hv
  · cases hv
    exact ⟨none, rfl⟩
  · obtain ⟨o, -, hv⟩ := Except.bind_eq_ok.1 hv
    cases hv
    exact ⟨some o, rfl⟩

theorem boolean_logical (op : Sql.Connective) (lhs rhs : Sql.Expr) :
    Boolean sc (.logical op lhs rhs) := by
  intro v hv
  simp only [eval, Except.bind_eq_ok] at hv
  obtain ⟨_, -, a, -, hv⟩ := hv
  split at hv
  · cases hv
    exact ⟨some (absorbing op), rfl⟩
  · simp only [Except.bind_eq_ok] at hv
    obtain ⟨_, -, b, -, hv⟩ := hv
    cases hv
    exact ⟨connect op a b, rfl⟩

theorem boolean_not (e : Sql.Expr) : Boolean sc (.not e) := by
  intro v hv
  simp only [eval, Except.bind_eq_ok] at hv
  obtain ⟨_, -, a, -, hv⟩ := hv
  cases hv
  exact ⟨_, rfl⟩

theorem boolean_isNull (e : Sql.Expr) (negated : Bool) : Boolean sc (.isNull e negated) := by
  intro v hv
  simp only [eval, Except.bind_eq_ok] at hv
  obtain ⟨a, -, hv⟩ := hv
  cases hv
  exact ⟨some _, rfl⟩

theorem boolean_member (lhs array : Sql.Expr) : Boolean sc (.member lhs array) := by
  intro v hv
  simp only [eval, Except.bind_eq_ok] at hv
  obtain ⟨a, -, w, -, hv⟩ := hv
  cases w with
  | array items =>
      cases hv
      unfold memberOf
      split_ifs
      · exact ⟨none, rfl⟩
      · exact ⟨some true, rfl⟩
      · exact ⟨none, rfl⟩
      · exact ⟨some false, rfl⟩
  | null =>
      cases hv
      exact ⟨some false, rfl⟩
  | _ => cases hv

/-- Whether the evaluation of an expression never stops at a value that is no truth value where it needs one. -/
def Safe (sc : Scope) (e : Sql.Expr) : Prop := ∀ v, eval sc e ≠ .error (.notBoolean v)

theorem safe_column (name : String) : Safe sc (.column name) := by
  intro v h
  rw [eval, Scope.column] at h
  split at h <;> cases h

theorem safe_param (name : String) : Safe sc (.param name) := by
  intro v h
  rw [eval, Scope.param] at h
  split at h <;> cases h

theorem fields_ne_notBoolean {v w : Value} {names : List String} : fields v names ≠ .error (.notBoolean w) := by
  induction v, names using fields.induct with
  | case1 | case2 | case4 => simp [fields]
  | case3 fs name names ih => rwa [fields]

theorem safe_path (names : List String) : Safe sc (.path names) := by
  intro v h
  match names with
  | [] => cases h
  | [name] => exact safe_column name v h
  | first :: second :: rest =>
    rw [eval, path] at h
    split at h
    · split at h
      · exact fields_ne_notBoolean h
      · cases h
    · obtain h | ⟨w, -, h⟩ := Except.bind_eq_error.1 h
      · exact safe_column first v h
      · exact fields_ne_notBoolean h

theorem compare_ne_notBoolean {op : Sql.Comparison} {v w u : Value} : compare op v w ≠ .error (.notBoolean u) := by
  unfold compare matchesLike
  split_ifs
  · split <;> nofun
  · split <;> nofun

theorem safe_compare (op : Sql.Comparison) (hlhs : Safe sc lhs) (hrhs : Safe sc rhs) :
    Safe sc (.compare op lhs rhs) := by
  intro v h
  simp only [eval, Except.bind_eq_error] at h
  obtain h | ⟨a, -, h | ⟨b, -, h⟩⟩ := h
  · exact hlhs v h
  · exact hrhs v h
  · split at h
    · cases h
    · obtain h | ⟨o, -, h⟩ := Except.bind_eq_error.1 h
      · exact compare_ne_notBoolean h
      · cases h

theorem truth_ne_error {v : Value} {fault : Fault} (h : Boolean sc e) (hv : eval sc e = .ok v) :
    truth v ≠ .error fault := by
  obtain ⟨o, rfl⟩ := h v hv
  rw [truth_ofTruth]
  nofun

theorem safe_logical (op : Sql.Connective) (hlhs : Safe sc lhs) (hrhs : Safe sc rhs) (hl : Boolean sc lhs)
    (hr : Boolean sc rhs) : Safe sc (.logical op lhs rhs) := by
  intro v h
  simp only [eval, Except.bind_eq_error] at h
  obtain h | ⟨a, ha, h | ⟨x, -, h⟩⟩ := h
  · exact hlhs v h
  · exact truth_ne_error hl ha h
  · split at h
    · cases h
    · simp only [Except.bind_eq_error] at h
      obtain h | ⟨b, hb, h | ⟨y, -, h⟩⟩ := h
      · exact hrhs v h
      · exact truth_ne_error hr hb h
      · cases h

theorem safe_not (he : Safe sc e) (hb : Boolean sc e) : Safe sc (.not e) := by
  intro v h
  simp only [eval, Except.bind_eq_error] at h
  obtain h | ⟨a, ha, h | ⟨x, -, h⟩⟩ := h
  · exact he v h
  · exact truth_ne_error hb ha h
  · cases h

theorem safe_member (hlhs : Safe sc lhs) (harray : Safe sc array) : Safe sc (.member lhs array) := by
  intro v h
  simp only [eval, Except.bind_eq_error] at h
  obtain h | ⟨a, -, h | ⟨w, -, h⟩⟩ := h
  · exact hlhs v h
  · exact harray v h
  · split at h <;> cases h

end RowForest.Eval
