import RowForest.Proofs.Filter.Grammar

namespace RowForest.Filter

section

variable {P : String → Prop} {p : Sql.Expr} {n m : Nat} {vs : List Value} {filter : Filter}
  {options : Options} {bound : BoundPredicate} {name : String}

theorem flatMap_params_namedArgs (keys : List String) : (namedArgs n keys).flatMap Sql.Expr.params =
    (List.range' n keys.length).map paramName := by
  induction keys generalizing n with
  | nil => rfl
  | cons key keys ih =>
      rw [namedArgs, List.flatMap_cons, ih, Sql.Expr.params_named, Sql.Expr.params_param, List.length_cons,
        List.range'_succ, List.map_cons, List.singleton_append]

/-- The parameters of a predicate are numbered as they are met from left to right. -/
theorem Generated.params (h : Generated P n p m) :
    ∃ k, m = n + k ∧ p.params = (List.range' n k).map paramName := by
  induction h with
  | column n | path n => exact ⟨0, rfl, rfl⟩
  | param n | instant n => exact ⟨1, rfl, by simp⟩
  | @operation n m k a b o _ _ iha ihb =>
      obtain ⟨i, rfl, ha⟩ := iha
      obtain ⟨j, rfl, hb⟩ := ihb
      refine ⟨i + j, Nat.add_assoc n i j, ?_⟩
      have hrange : List.range' n i ++ List.range' (n + i) j = List.range' n (i + j) := by
        rw [← List.range'_append, Nat.one_mul]
      rw [Sql.Expr.params_paren, Sql.Operation.params_expr, ha, hb, ← List.map_append, hrange]
  | not _ ih =>
      obtain ⟨k, hk, ha⟩ := ih
      exact ⟨k, hk, by simp [ha]⟩
  | @search n name keys =>
      refine ⟨1 + keys.length, Nat.add_assoc n 1 keys.length, ?_⟩
      rw [Sql.Expr.params_paren, Sql.Expr.params_call, List.flatMap_cons, List.flatMap_cons,
        flatMap_params_namedArgs, Nat.add_comm 1, List.range'_succ]
      rfl

theorem mem_keys_namedValues : name ∈ (SortedMap.ofList (namedValues 0 vs)).keys ↔
    name ∈ (List.range vs.length).map paramName := by
  have hkeys : (namedValues 0 vs).map Prod.fst = (List.range vs.length).map paramName := by
    rw [namedValues_keys, List.range_eq_range']
  have hnodup : ((namedValues 0 vs).map Prod.fst).Nodup := by
    rw [hkeys]
    exact List.nodup_range.map paramName_injective
  rw [SortedMap.mem_keys_ofList hnodup, hkeys]

theorem predicate_eq_ok {checked : Checked} (h : predicate (some checked) options = .ok bound) :
    ∃ vs, exprOf ⟨checked.types, options⟩ checked.root [] = .ok (bound.predicate, vs) ∧
      bound.params = if vs.isEmpty then none else some (.ofList (namedValues 0 vs)) := by
  simp only [predicate, Except.bind_eq_ok, Prod.exists] at h
  obtain ⟨p, vs, hp, h⟩ := h
  split at h
  · cases h
    exact ⟨vs, hp, rfl⟩
  · cases h

theorem predicate_generated {checked : Checked} (h : predicate (some checked) options = .ok bound)
    (hnames : checked.root.Names P) (hP : ∀ name, P name → P (name ++ "_tokens")) :
    ∃ m, Generated P 0 bound.predicate m := by
  obtain ⟨vs, hp, -⟩ := predicate_eq_ok h
  exact ⟨vs.length, exprOf_generated hp hnames hP⟩

end

namespace Decade

def draft : Draft :=
  let year (i : Nat) : Draft := .call "=" [.ident "year" .int64, .const (.int64 (.ofNat (1960 + i)))]
  (List.range 10).foldl (fun d i => .call "OR" [d, year (i + 1)]) (year 0)

def bound : BoundPredicate := (predicate draft.build ⟨false, none⟩).toOption.getD ⟨.always, none⟩

end Decade

end RowForest.Filter
