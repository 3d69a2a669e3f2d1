import RowForest.Eval.Rows
import RowForest.Key.Predicate
import RowForest.Proofs.Outcome
import RowForest.Proofs.Row
import Mathlib.Data.List.Perm.Subperm

namespace RowForest

def Table.keyLE (t : Table) (a b : Row) : Bool :=
  (Eval.compareKeys (Key.order t) (Key.ofRow t a).values (Key.ofRow t b).values).isLE

namespace Eval

variable {source : Source} {s : Scope} {table : String} {filter : Option Sql.Expr} {rows : List Row}

theorem keepWhere_cons {r : Row} {kept : List Row} :
    keepWhere s table filter (r :: rows) = .ok kept ↔ ∃ b rest, keeps s table filter r = .ok b ∧
      keepWhere s table filter rows = .ok rest ∧ kept = if b then r :: rest else rest := by
  simp only [keepWhere, Except.bind_eq_ok, Except.pure_ok, Except.ok.injEq]
  constructor
  · rintro ⟨b, hb, rest, hrest, rfl⟩
    exact ⟨b, rest, hb, hrest, rfl⟩
  · rintro ⟨b, rest, hb, hrest, rfl⟩
    exact ⟨b, hb, rest, hrest, rfl⟩

theorem keeps_of_keepWhere {kept : List Row} (h : keepWhere s table filter rows = .ok kept) :
    ∀ r ∈ rows, ∃ b, keeps s table filter r = .ok b := by
  induction rows generalizing kept with
  | nil => simp
  | cons r rows ih =>
      obtain ⟨b, rest, hb, hrest, -⟩ := keepWhere_cons.1 h
      intro r' hr'
      rcases List.mem_cons.1 hr' with rfl | hr'
      · exact ⟨b, hb⟩
      · exact ih hrest r' hr'

theorem keepWhere_eq_filter {p : Row → Bool} (h : ∀ r ∈ rows, keeps s table filter r = .ok (p r)) :
    keepWhere s table filter rows = .ok (rows.filter p) := by
  induction rows with
  | nil => rfl
  | cons r rows ih =>
      refine keepWhere_cons.2 ⟨p r, rows.filter p, h r List.mem_cons_self,
        ih (fun r hr => h r (List.mem_cons_of_mem _ hr)), ?_⟩
      rw [List.filter_cons]

/-- Of two filters, the second narrows the selection down as it does so row by row. -/
theorem keepWhere_narrow {e e' : Sql.Expr} {p : Row → Bool} {kept kept' : List Row}
    (h : ∀ r ∈ rows, ∀ b b', keeps s table (some e) r = .ok b → keeps s table (some e') r = .ok b' →
      b' = (b && p r))
    (hkept : keepWhere s table (some e) rows = .ok kept)
    (hkept' : keepWhere s table (some e') rows = .ok kept') : kept' = kept.filter p := by
  induction rows generalizing kept kept' with
  | nil =>
      cases hkept
      cases hkept'
      rfl
  | cons r rows ih =>
      obtain ⟨b, rest, hb, hrest, rfl⟩ := keepWhere_cons.1 hkept
      obtain ⟨b', rest', hb', hrest', rfl⟩ := keepWhere_cons.1 hkept'
      rw [ih (fun r hr => h r (List.mem_cons_of_mem _ hr)) hrest hrest',
        h r List.mem_cons_self b b' hb hb']
      cases b with
      | false => simp
      | true => simp [List.filter_cons]

theorem column_push {r : Row} {c : String} (hc : c ∈ r.columns) :
    (s.push table r).column c = .ok (r.get c) := by
  simp [Scope.column, Scope.push, Row.get?_of_mem hc]

theorem evalIn_column_push {r : Row} {c : String} (hc : c ∈ r.columns) :
    evalIn (s.push table r) (.column c) = .ok (r.get c) := by
  rw [evalIn, eval, column_push hc]
  rfl

theorem sortKeys_order {t : Table} {r : Row} (h : ∀ c ∈ t.keyColumns, c ∈ r.columns) :
    sortKeys (s.push table r) (Key.order t) = .ok (Key.ofRow t r).values := by
  unfold Key.order Key.ofRow Table.keyColumns at *
  dsimp only
  generalize t.primaryKey = parts at h
  induction parts with
  | nil => rfl
  | cons p parts ih =>
      have hp : p.column ∈ r.columns := h _ (by simp)
      rw [List.map_cons, sortKeys, evalIn_column_push hp, Except.ok_bind,
        ih (fun c hc => h c (List.mem_cons_of_mem _ hc))]
      rfl

theorem withKeys_order {t : Table} (h : ∀ r ∈ rows, ∀ c ∈ t.keyColumns, c ∈ r.columns) :
    withKeys s table (Key.order t) rows = .ok (rows.map (fun r => ((Key.ofRow t r).values, r))) := by
  induction rows with
  | nil => rfl
  | cons r rows ih =>
      rw [withKeys, sortKeys_order (h r List.mem_cons_self), Except.ok_bind,
        ih (fun r hr => h r (List.mem_cons_of_mem _ hr))]
      rfl

/-- Rows are sorted by their table's own order in one way, whatever is in scope. -/
theorem sortRows_order {t : Table} (h : ∀ r ∈ rows, ∀ c ∈ t.keyColumns, c ∈ r.columns) :
    sortRows s table (Key.order t) rows = .ok (rows.mergeSort t.keyLE) := by
  unfold sortRows
  split
  · next hnone =>
    have hall : rows.Pairwise (fun a b => t.keyLE a b = true) := by
      refine List.pairwise_of_forall fun a b => ?_
      rw [Table.keyLE, List.isEmpty_iff.1 hnone]
      rfl
    rw [List.mergeSort_of_pairwise hall]
  · rw [withKeys_order h, Except.ok_bind]
    have hsort := List.map_mergeSort (l := rows) (f := fun r => ((Key.ofRow t r).values, r))
      (r := t.keyLE) (s := fun a b => (compareKeys (Key.order t) a.1 b.1).isLE) (fun _ _ _ _ => rfl)
    rw [← hsort, List.map_map]
    exact congrArg Except.ok (List.map_id _)

theorem keepWhere_sublist {kept : List Row} (h : keepWhere s table filter rows = .ok kept) :
    kept.Sublist rows := by
  induction rows generalizing kept with
  | nil =>
      cases h
      exact List.Sublist.refl _
  | cons r rows ih =>
      obtain ⟨b, rest, -, hrest, rfl⟩ := keepWhere_cons.1 h
      cases b with
      | true => exact (ih hrest).cons_cons r
      | false => exact (ih hrest).cons r

theorem map_withKeys {order : List Sql.Order} {keyed : List (List Value × Row)}
    (h : withKeys s table order rows = .ok keyed) : keyed.map Prod.snd = rows := by
  induction rows generalizing keyed with
  | nil =>
      cases h
      rfl
  | cons r rows ih =>
      simp only [withKeys, Except.bind_eq_ok, Except.pure_ok, Except.ok.injEq] at h
      obtain ⟨ks, -, rest, hrest, rfl⟩ := h
      rw [List.map_cons, ih hrest]

theorem sortRows_perm {order : List Sql.Order} {sorted : List Row}
    (h : sortRows s table order rows = .ok sorted) : sorted.Perm rows := by
  unfold sortRows at h
  split at h
  · cases h
    exact List.Perm.refl _
  · simp only [Except.bind_eq_ok, Except.pure_ok, Except.ok.injEq] at h
    obtain ⟨keyed, hkeyed, rfl⟩ := h
    exact ((List.mergeSort_perm _ _).map _).trans (.of_eq (map_withKeys hkeyed))

theorem select_subperm {order : List Sql.Order} {limit offset : Option Sql.Expr} {sel : List Row}
    (h : select source s table filter order limit offset = .ok sel) :
    ∃ all, source table = .ok all ∧ sel.Subperm all := by
  simp only [select, Except.bind_eq_ok, Except.pure_ok, Except.ok.injEq] at h
  obtain ⟨l, -, o, -, all, hall, kept, hkept, sorted, hsorted, hsel⟩ := h
  have hdrop : (sorted.drop (o.getD 0)).Subperm all := (List.drop_sublist _ _).subperm.trans
    ((sortRows_perm hsorted).subperm.trans (keepWhere_sublist hkept).subperm)
  refine ⟨all, hall, ?_⟩
  cases l with
  | none => exact hsel ▸ hdrop
  | some n => exact hsel ▸ (List.take_sublist _ _).subperm.trans hdrop

theorem project_columns {r out : Row} (cs : List String) (items : List Sql.Item) :
    project source s r (cs.map .column ++ items) out =
      project source s r items (cs.foldl (fun out c => out.set c (r.get c)) out) := by
  induction cs generalizing out with
  | nil => rfl
  | cons c cs ih =>
      rw [List.map_cons, List.cons_append, project, itemValue, Except.ok_bind, ih]
      rfl

end Eval

end RowForest
