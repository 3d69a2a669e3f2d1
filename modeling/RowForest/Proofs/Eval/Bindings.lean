import RowForest.Proofs.Eval.Rows

namespace RowForest.Eval

/-- Whether a scope has the same rows as another one, and all of its parameters. -/
structure Scope.Extends (wide sc : Scope) : Prop where
  frames : wide.frames = sc.frames
  params : ∀ name v, sc.params.find? name = some v → wide.params.find? name = some v

variable {sc wide : Scope} {table : String} {r : Row} {v : Value}

namespace Scope.Extends

theorem push (h : wide.Extends sc) (table : String) (r : Row) :
    (wide.push table r).Extends (sc.push table r) where
  frames := congrArg ((table, r) :: ·) h.frames
  params := h.params

theorem column_eq (h : wide.Extends sc) (name : String) : wide.column name = sc.column name := by
  rw [Scope.column, Scope.column, h.frames]

theorem frame?_eq (h : wide.Extends sc) (table : String) : wide.frame? table = sc.frame? table := by
  rw [Scope.frame?, Scope.frame?, h.frames]

theorem path_eq (h : wide.Extends sc) (names : List String) : path wide names = path sc names := by
  cases names with
  | nil => rfl
  | cons first names =>
      cases names with
      | nil => exact h.column_eq first
      | cons second rest => simp only [path, h.column_eq, h.frame?_eq]

theorem param (h : wide.Extends sc) {name : String} (hv : sc.param name = .ok v) :
    wide.param name = .ok v := by
  rw [Scope.param] at hv ⊢
  cases hfind : sc.params.find? name with
  | none =>
      rw [hfind] at hv
      cases hv
  | some w =>
      rw [hfind] at hv
      rw [h.params name w hfind]
      exact hv

end Scope.Extends

/-- An expression that has a value keeps it when more parameters are bound. -/
theorem eval_of_extends (h : wide.Extends sc) : ∀ (e : Sql.Expr) {v : Value},
    eval sc e = .ok v → eval wide e = .ok v
  | .always, _, hv => hv
  | .column name, _, hv => (h.column_eq name).trans hv
  | .path names, _, hv => (h.path_eq names).trans hv
  | .param _, _, hv => h.param hv
  | .paren e, _, hv => eval_of_extends h e hv
  | .compare op lhs rhs, v, hv => by
    simp only [eval, Except.bind_eq_ok] at hv ⊢
    obtain ⟨a, ha, b, hb, hv⟩ := hv
    exact ⟨a, eval_of_extends h lhs ha, b, eval_of_extends h rhs hb, hv⟩
  | .logical op lhs rhs, v, hv => by
    simp only [eval, Except.bind_eq_ok] at hv ⊢
    obtain ⟨a, ha, x, hx, hv⟩ := hv
    refine ⟨a, eval_of_extends h lhs ha, x, hx, ?_⟩
    -- the right side is evaluated only where the left one does not settle the connective
    by_cases hsettled : x = some (absorbing op)
    · rwa [if_pos hsettled] at hv ⊢
    · rw [if_neg hsettled] at hv ⊢
      simp only [Except.bind_eq_ok] at hv ⊢
      obtain ⟨b, hb, hv⟩ := hv
      exact ⟨b, eval_of_extends h rhs hb, hv⟩
  | .not e, v, hv => by
    simp only [eval, Except.bind_eq_ok] at hv ⊢
    obtain ⟨a, ha, hv⟩ := hv
    exact ⟨a, eval_of_extends h e ha, hv⟩
  | .isNull e negated, v, hv => by
    simp only [eval, Except.bind_eq_ok] at hv ⊢
    obtain ⟨a, ha, hv⟩ := hv
    exact ⟨a, eval_of_extends h e ha, hv⟩
  | .member lhs array, v, hv => by
    simp only [eval, Except.bind_eq_ok] at hv ⊢
    obtain ⟨a, ha, b, hb, hv⟩ := hv
    exact ⟨a, eval_of_extends h lhs ha, b, eval_of_extends h array hb, hv⟩
  | .call _ _, _, hv => by cases hv
  | .named _ _, _, hv => by cases hv

section

variable (h : wide.Extends sc)
include h

theorem evalIn_of_extends {e : Sql.Expr} (hv : evalIn sc e = .ok v) : evalIn wide e = .ok v := by
  rw [evalIn, Except.mapError_eq_ok] at hv ⊢
  exact eval_of_extends h e hv

theorem keeps_of_extends {filter : Option Sql.Expr} {b : Bool} (hb : keeps sc table filter r = .ok b) :
    keeps wide table filter r = .ok b := by
  cases filter with
  | none => exact hb
  | some e =>
      rw [keeps, Except.bind_eq_ok] at hb ⊢
      obtain ⟨v, hv, hb⟩ := hb
      exact ⟨v, evalIn_of_extends (h.push table r) hv, hb⟩

theorem keepWhere_of_extends {filter : Option Sql.Expr} {rows kept : List Row}
    (hkept : keepWhere sc table filter rows = .ok kept) :
    keepWhere wide table filter rows = .ok kept := by
  induction rows generalizing kept with
  | nil => exact hkept
  | cons r rows ih =>
      rw [keepWhere_cons] at hkept ⊢
      obtain ⟨b, rest, hb, hrest, hkept⟩ := hkept
      exact ⟨b, rest, keeps_of_extends h hb, ih hrest, hkept⟩

theorem sortKeys_of_extends {order : List Sql.Order} {ks : List Value} (hks : sortKeys sc order = .ok ks) :
    sortKeys wide order = .ok ks := by
  induction order generalizing ks with
  | nil => exact hks
  | cons o os ih =>
      simp only [sortKeys, Except.bind_eq_ok] at hks ⊢
      obtain ⟨v, hv, vs, hvs, hks⟩ := hks
      exact ⟨v, evalIn_of_extends h hv, vs, ih hvs, hks⟩

theorem withKeys_of_extends {order : List Sql.Order} {rows : List Row} {keyed : List (List Value × Row)}
    (hkeyed : withKeys sc table order rows = .ok keyed) : withKeys wide table order rows = .ok keyed := by
  induction rows generalizing keyed with
  | nil => exact hkeyed
  | cons r rows ih =>
      simp only [withKeys, Except.bind_eq_ok] at hkeyed ⊢
      obtain ⟨ks, hks, rest, hrest, hkeyed⟩ := hkeyed
      exact ⟨ks, sortKeys_of_extends (h.push table r) hks, rest, ih hrest, hkeyed⟩

theorem sortRows_of_extends {order : List Sql.Order} {rows sorted : List Row}
    (hsorted : sortRows sc table order rows = .ok sorted) : sortRows wide table order rows = .ok sorted := by
  rw [sortRows] at hsorted ⊢
  by_cases hnone : order.isEmpty = true
  · rwa [if_pos hnone] at hsorted ⊢
  · rw [if_neg hnone, Except.bind_eq_ok] at hsorted ⊢
    obtain ⟨keyed, hkeyed, hsorted⟩ := hsorted
    exact ⟨keyed, withKeys_of_extends h hkeyed, hsorted⟩

end

end RowForest.Eval
