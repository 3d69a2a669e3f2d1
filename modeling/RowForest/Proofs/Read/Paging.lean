import RowForest.Proofs.Eval.Bindings
import RowForest.Proofs.Read.Pages
import RowForest.Proofs.Read.Roots

namespace RowForest

open Eval

def Listing.page (q : Listing) (n k : Nat) : Listing :=
  { q with limit := some (.ofNat n), offset := .ofNat (k * n) }

namespace ReadSettings

variable {s : ReadSettings} {q : Listing} {ps : Params} {n k : Nat}

def pageSize (s : ReadSettings) (n k : Nat) : Nat := if s.limitParam = s.offsetParam then k * n else n

theorem boundLimit_page (hn : n < 2 ^ 63) (hk : k * n < 2 ^ 63) :
    (s.boundLimit (q.page n k)).toInt = s.pageSize n k := by
  rw [boundLimit, pageSize]
  split
  · exact Int64.toInt_ofNat_of_lt hk
  · exact Int64.toInt_ofNat_of_lt hn

theorem statementParams_page (hpaged : q.isPaged = false) (hkeys : q.keyParams = .empty)
    (hps : s.statementParams q = .ok ps) (n k : Nat) : ∃ paged,
      s.statementParams (q.page n k) = .ok paged ∧ (Scope.ofParams paged).Extends (.ofParams ps) := by
  have hfree := isReserved_of_statementParams hps
  obtain ⟨paged, hpage⟩ : ∃ paged, s.statementParams (q.page n k) = .ok paged :=
    exists_statementParams hfree
  refine ⟨paged, hpage, rfl, fun name v hv => ?_⟩
  have hown : q.params.insertAll q.keyParams.toList = q.params := by
    rw [hkeys]
    rfl
  change ps.find? name = some v at hv
  change paged.find? name = some v
  simp only [find?_of_statementParams hps, hpaged, Bool.false_eq_true, false_and, if_false, hown] at hv
  have hunused := hfree name (SortedMap.mem_keys.2 ⟨v, SortedMap.find?_eq_some.1 hv⟩)
  simp only [isReserved, Bool.or_eq_false_iff, decide_eq_false_iff_not] at hunused
  rw [find?_of_statementParams hpage, if_neg (fun h => hunused.1.2 h.2), if_neg (fun h => hunused.1.1 h.2)]
  exact (congrArg (·.find? name) hown).trans hv

end ReadSettings

theorem RowStore.rootRows_page {rs : RowStore} {s : ReadSettings} {q : Listing} {t : Table} {rows : List Row}
    {n k : Nat} (h : rs.Reachable) (ht : t ∈ rs.db.tables) (hpaged : q.isPaged = false)
    (hkeys : q.keyParams = .empty) (hn : n < 2 ^ 63) (hk : k * n < 2 ^ 63)
    (hrows : s.rootRows rs.scan t q = .ok rows) :
    s.rootRows rs.scan t (q.page n k) = .ok ((rows.drop (k * n)).take (s.pageSize n k)) := by
  obtain ⟨ps, kept, hps, hkept, hsorted⟩ := (rootRows_eq_ok h ht hpaged).1 hrows
  obtain ⟨paged, hpage, hextends⟩ := ReadSettings.statementParams_page hpaged hkeys hps n k
  have hoffset : (q.page n k).offset.toInt = (k * n : Nat) := Int64.toInt_ofNat_of_lt hk
  have hlimit := ReadSettings.boundLimit_page (s := s) (q := q) hn hk
  refine (rootRows_paged h ht rfl ?_ ?_).2 ⟨paged, kept, rows, hpage,
    keepWhere_of_extends hextends hkept, sortRows_of_extends hextends hsorted, ?_⟩
  · rw [hlimit]
    exact Int.natCast_nonneg _
  · rw [hoffset]
    exact Int.natCast_nonneg _
  · rw [hoffset, hlimit, Int.toNat_natCast, Int.toNat_natCast]

namespace Transaction

variable {rs : RowStore} {s : ReadSettings} {q : Listing} {st st' : ReadState} {trees : List RowTree}
  {n k m : Nat}

/-- Each page has the trees that the whole listing has for its rows. -/
theorem run_list_page (h : rs.Reachable) (hpaged : q.isPaged = false) (hkeys : q.keyParams = .empty)
    (hn : n < 2 ^ 63) (hk : k * n < 2 ^ 63)
    (hlist : (list ⟨rs.db, rs.backend, s⟩ q).run.run st = (.ok trees, st')) :
    (list ⟨rs.db, rs.backend, s⟩ (q.page n k)).run.run st =
      (.ok ((trees.drop (k * n)).take (s.pageSize n k)), st) := by
  obtain ⟨hst, plan, rows, hplan, hrows⟩ := rootRows_of_run_list hlist
  obtain ⟨hfits, -, -⟩ := h.wellFormed.plan_eq_ok hplan
  have hpage := RowStore.rootRows_page h hfits.mem_tables hpaged hkeys hn hk hrows
  cases hq : q.isNested s with
  | false =>
      rw [run_list_levelwise h hplan hst hq hrows] at hlist
      obtain ⟨⟨rfl⟩, -⟩ := Prod.mk.inj hlist
      rw [run_list_levelwise (q := q.page n k) h hplan hst hq hpage, List.map_take, List.map_drop]
      rfl
  | true =>
      rw [run_list_of_isNested hplan hst hq] at hlist
      obtain ⟨hlist, -⟩ := Prod.mk.inj hlist
      obtain ⟨nested, hnested, htrees⟩ := Except.bind_eq_ok.1 hlist
      obtain ⟨sel, hsel, hdecided, rfl⟩ := (RowStore.query_nested h hfits).1 hnested
      obtain rfl : rows = sel := Except.ok.inj (hrows.symm.trans hsel)
      have hmem : ∀ r ∈ (rows.drop (k * n)).take (s.pageSize n k), r ∈ rows :=
        fun r hr => List.mem_of_mem_drop (List.mem_of_mem_take hr)
      have hquery := (RowStore.query_nested (q := q.page n k) h hfits).2
        ⟨_, hpage, fun r hr => hdecided r (hmem r hr), rfl⟩
      rw [run_list_of_isNested (q := q.page n k) hplan hst hq, hquery, Except.ok_bind, List.map_take,
        List.map_drop]
      exact congrArg (·, st) (Except.mapM_slice htrees _ _)

theorem flatten_pages {α : Type} (as : List α) (n m : Nat) :
    ((List.range m).map (fun k => (as.drop (k * n)).take n)).flatten = as.take (m * n) := by
  induction m with
  | zero => rw [List.range_zero, List.map_nil, List.flatten_nil, Nat.zero_mul, List.take_zero]
  | succ m ih =>
      rw [List.range_succ, List.map_append, List.flatten_append, ih, Nat.succ_mul, List.take_add]
      simp

/-- Page by page a listing gives the trees that it gives as a whole, and the pages up to the last
one make up all of them. -/
theorem list_pages (h : rs.Reachable) (hpaged : q.isPaged = false) (hkeys : q.keyParams = .empty)
    (hlist : (list ⟨rs.db, rs.backend, s⟩ q).run.run st = (.ok trees, st')) (hn : n < 2 ^ 63)
    (hm : ∀ k < m, k * n < 2 ^ 63) :
    ∃ pages, ((List.range m).mapM (fun k => list ⟨rs.db, rs.backend, s⟩ (q.page n k))).run.run st =
        (.ok pages, st') ∧
      pages = (List.range m).map (fun k => (trees.drop (k * n)).take (s.pageSize n k)) ∧
      (s.limitParam ≠ s.offsetParam → trees.length ≤ m * n → pages.flatten = trees) := by
  obtain ⟨-, rfl, -⟩ := roots_of_run_list h hlist
  refine ⟨_, ?_, rfl, fun hs hlength => ?_⟩
  · exact ReadM.run_mapM fun k hk => run_list_page h hpaged hkeys hn (hm k (List.mem_range.1 hk)) hlist
  · have hsize : s.pageSize n = fun _ => n := funext fun _ => if_neg hs
    rw [hsize, flatten_pages, List.take_of_length_le hlength]

end Transaction

theorem Transaction.list_pages_sample :
    (list ⟨Sample.store.db, Sample.store.backend, {}⟩ Sample.listing).run.run ⟨false, []⟩ =
        (.ok Sample.trees, ⟨false, []⟩) ∧
      ∃ pages, ((List.range 2).mapM (fun k => list ⟨Sample.store.db, Sample.store.backend, {}⟩
          (Sample.listing.page 1 k))).run.run ⟨false, []⟩ = (.ok pages, ⟨false, []⟩) ∧
        pages = Sample.trees.map (fun tree => [tree]) ∧ pages.flatten = Sample.trees := by
  have hlist : (list ⟨Sample.store.db, Sample.store.backend, {}⟩ Sample.listing).run.run ⟨false, []⟩ =
      (.ok Sample.trees, ⟨false, []⟩) := by cbv
  obtain ⟨pages, hrun, hpages, hwhole⟩ := list_pages (n := 1) (m := 2) Sample.store_reachable rfl rfl hlist
    (by decide) (by decide)
  exact ⟨hlist, pages, hrun, hpages, hwhole (by decide) (by decide)⟩

end RowForest
