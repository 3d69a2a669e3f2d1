import RowForest.Proofs.Plan.Parameters
import RowForest.Proofs.Read.Listing

namespace RowForest

open Eval

theorem Eval.optionalCount_param {sc : Scope} {name : String} {n : Int64} (keyword : String)
    (hfind : sc.params.find? name = some (.int64 n)) (hn : 0 ≤ n.toInt) :
    optionalCount sc keyword (some (.param name)) = .ok (some n.toInt.toNat) := by
  have heval : evalIn sc (.param name) = .ok (.int64 n) := by
    rw [evalIn, eval, Scope.param, hfind]
    rfl
  simp only [optionalCount, countOf, heval, Except.ok_bind, hn, if_true, Except.pure_ok]

/-- The limit that a statement with a limit or an offset comes to. If one parameter is to stand for
both, it is the offset. -/
def ReadSettings.boundLimit (s : ReadSettings) (q : Listing) : Int64 :=
  if s.limitParam = s.offsetParam then q.offset else q.limit.getD Int64.maxValue

namespace RowStore

variable {rs : RowStore} {s : ReadSettings} {q : Listing} {t : Table} {rows : List Row}

/-- With a limit or an offset, a listing gives a page of what it would give without. -/
theorem rootRows_paged (h : rs.Reachable) (ht : t ∈ rs.db.tables) (hpaged : q.isPaged = true)
    (hlimit : 0 ≤ (s.boundLimit q).toInt) (hoffset : 0 ≤ q.offset.toInt) :
    s.rootRows rs.scan t q = .ok rows ↔ ∃ ps kept sorted, s.statementParams q = .ok ps ∧
      keepWhere (.ofParams ps) t.name (some (s.rootFilter t q)) (rs.stored t) = .ok kept ∧
      sortRows (.ofParams ps) t.name (if q.order.isEmpty then Key.order t else q.order) kept =
        .ok sorted ∧
      rows = (sorted.drop q.offset.toInt.toNat).take (s.boundLimit q).toInt.toNat := by
  have hcounts {ps : Params} (hps : s.statementParams q = .ok ps) :
      optionalCount (.ofParams ps) "LIMIT" (some (.param s.limitParam)) =
          .ok (some (s.boundLimit q).toInt.toNat) ∧
        optionalCount (.ofParams ps) "OFFSET" (some (.param s.offsetParam)) =
          .ok (some q.offset.toInt.toNat) := by
    have hfind := ReadSettings.find?_of_statementParams hps
    refine ⟨optionalCount_param _ ?_ hlimit, optionalCount_param _ ?_ hoffset⟩
    · rw [Scope.ofParams, hfind, ReadSettings.boundLimit]
      by_cases hs : s.limitParam = s.offsetParam <;> simp [hpaged, hs]
    · rw [Scope.ofParams, hfind, if_pos ⟨hpaged, rfl⟩]
  simp only [ReadSettings.rootRows, hpaged, if_true, Except.bind_eq_ok, select, scan_eq_stored h ht,
    Except.ok.injEq, exists_eq_left', Except.pure_ok]
  constructor
  · rintro ⟨ps, hps, limit, hlimit, offset, hoffset, kept, hkept, sorted, hsorted, rfl⟩
    obtain rfl := Except.ok.inj ((hcounts hps).1.symm.trans hlimit)
    obtain rfl := Except.ok.inj ((hcounts hps).2.symm.trans hoffset)
    exact ⟨ps, kept, sorted, hps, hkept, hsorted, rfl⟩
  · rintro ⟨ps, kept, sorted, hps, hkept, hsorted, rfl⟩
    exact ⟨ps, hps, _, (hcounts hps).1, _, (hcounts hps).2, kept, hkept, sorted, hsorted, rfl⟩

theorem rootRows_keyQuery (h : rs.Reachable) (ht : t ∈ rs.db.tables) (hs : s.NamesApart) (e : Sql.Expr)
    (keyParams : Params) {n : Nat} (hn : n < 2 ^ 63) (d : TableNames) : ∃ ps : Params,
      (∀ name, s.keyParamLabel.toList <+: name.toList → ps.find? name = keyParams.find? name) ∧
      ∀ rows, s.rootRows rs.scan t (Transaction.keyQuery t e keyParams n d) = .ok rows ↔
        ∃ kept, keepWhere (.ofParams ps) t.name (some e) (rs.stored t) = .ok kept ∧
          rows = (kept.mergeSort t.keyLE).take n := by
  have hlimit : (s.boundLimit (Transaction.keyQuery t e keyParams n d)).toInt = n := by
    rw [ReadSettings.boundLimit, if_neg hs.limit_ne_offset]
    exact Int64.toInt_ofNat_of_lt hn
  obtain ⟨ps, hps⟩ : ∃ ps, s.statementParams (Transaction.keyQuery t e keyParams n d) = .ok ps :=
    ReadSettings.exists_statementParams (by simp [Transaction.keyQuery, SortedMap.keys, SortedMap.empty])
  refine ⟨ps, fun name hname => ?_, fun rows => ?_⟩
  · rw [ReadSettings.find?_of_starts hs hps hname]
    exact congrArg (·.find? name) (SortedMap.insertAll_empty keyParams)
  · have hsort {kept : List Row} (hkept : keepWhere (.ofParams ps) t.name (some e) (rs.stored t) = .ok kept) :
        sortRows (.ofParams ps) t.name (Key.order t) kept = .ok (kept.mergeSort t.keyLE) := by
      refine sortRows_order fun r hr c hc => ?_
      rw [(holds_of_mem_stored h ht ((keepWhere_sublist hkept).subset hr)).columns]
      exact (h.wellFormed.tables t ht).key_columns c hc
    rw [rootRows_paged h ht rfl (by simp [hlimit]) (by simp [Transaction.keyQuery]), hlimit]
    constructor
    · rintro ⟨ps', kept, sorted, hps', hkept, hsorted, rfl⟩
      obtain rfl := Except.ok.inj (hps.symm.trans hps')
      obtain rfl := Except.ok.inj ((hsort hkept).symm.trans hsorted)
      exact ⟨kept, hkept, by simp [Transaction.keyQuery]⟩
    · rintro ⟨kept, hkept, rfl⟩
      exact ⟨ps, kept, _, hps, hkept, hsort hkept, by simp [Transaction.keyQuery]⟩

end RowStore

end RowForest
