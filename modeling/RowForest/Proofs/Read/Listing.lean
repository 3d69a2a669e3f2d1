import RowForest.Proofs.Read.Nested
import RowForest.Proofs.Store.Order

namespace RowForest

open Eval

def ReadSettings.rootRows (s : ReadSettings) (source : Source) (t : Table) (q : Listing) :
    Except Error (List Row) := do
  let ps ← s.statementParams q
  let page (name : String) : Option Sql.Expr := if q.isPaged then some (.param name) else none
  select source (.ofParams ps) t.name (some (s.rootFilter t q))
    (if q.order.isEmpty then Key.order t else q.order) (page s.limitParam) (page s.offsetParam)

def Listing.isNested (s : ReadSettings) (q : Listing) : Bool := q.strategy.getD s.strategy = .nested

namespace Level

/-- Whether no table is named like a column of the one above it. -/
def Apart (l : Level) : Prop :=
  ∀ m p, (m, some p) ∈ l.walk none → m.table.name ∉ p.table.columnNames

variable {l m p c : Level}

theorem mem_walk_of_mem_child (hc : c ∈ l.children) (hm : (m, some p) ∈ c.walk none) :
    (m, some p) ∈ l.walk none := by
  rw [walk_eq, List.mem_cons] at hm ⊢
  refine .inr (List.mem_flatMap.2 ⟨c, hc, ?_⟩)
  rw [walk_eq, List.mem_cons]
  rcases hm with hm | hm
  · cases hm
  · exact .inr hm

theorem Apart.child (h : l.Apart) (hc : c ∈ l.children) : c.Apart :=
  fun m p hm => h m p (mem_walk_of_mem_child hc hm)

theorem Apart.not_mem (h : l.Apart) (hc : c ∈ l.children) : c.table.name ∉ l.table.columnNames := by
  refine h c l ?_
  rw [walk_eq]
  exact List.mem_cons_of_mem _ (List.mem_flatMap.2 ⟨c, hc, self_mem_walk c _⟩)

end Level

namespace RowStore

variable {rs : RowStore} {s : ReadSettings} {q : Listing} {plan : Level} {sel : List Row}

theorem subperm_of_rootRows (h : rs.Reachable) {t : Table} (ht : t ∈ rs.db.tables)
    (hsel : s.rootRows rs.scan t q = .ok sel) : sel.Subperm (rs.stored t) := by
  simp only [ReadSettings.rootRows, Except.bind_eq_ok] at hsel
  obtain ⟨ps, -, hsel⟩ := hsel
  obtain ⟨all, hall, hsub⟩ := select_subperm hsel
  rw [scan_eq_stored h ht] at hall
  cases hall
  exact hsub

theorem query_statement (nested : Bool) : (s.statement plan q nested >>= rs.query) =
    s.statementParams q >>= fun ps => s.rootRows rs.scan plan.table q >>= fun sel =>
      sel.mapM (fun r => project rs.scan ((Scope.ofParams ps).push plan.table.name r) r
        (ReadSettings.columnItems plan.table ++ s.childArrays q.showDeleted plan.table
          (if nested then plan.children else [])) .empty) := by
  rw [ReadSettings.statement, ReadSettings.rootRows]
  cases s.statementParams q with
  | error e => rfl
  | ok ps => rfl

theorem query_flat (h : rs.Reachable) (ht : plan.table ∈ rs.db.tables) :
    (s.statement plan q false >>= rs.query) = s.rootRows rs.scan plan.table q := by
  rw [query_statement]
  cases hps : s.statementParams q with
  | error e => rw [ReadSettings.rootRows, hps, Except.error_bind, Except.error_bind]
  | ok ps =>
      rw [Except.ok_bind]
      cases hsel : s.rootRows rs.scan plan.table q with
      | error e => rfl
      | ok sel =>
          have hrows := (subperm_of_rootRows h ht hsel).subset
          have hproject : sel.mapM (fun r => project rs.scan ((Scope.ofParams ps).push plan.table.name r) r
              (ReadSettings.columnItems plan.table ++ s.childArrays q.showDeleted plan.table []) .empty) =
                .ok (sel.map id) := by
            refine (Except.mapM_eq_ok_map (P := fun _ => True) fun r hr res => ?_).2 ⟨by simp, rfl⟩
            refine (project_level (l := ⟨plan.table, 0, []⟩) (holds_of_mem_stored h ht (hrows hr))
              (by simp)).trans ?_
            exact and_congr_left fun _ => iff_of_true (.node (by simp) (by simp)) trivial
          rw [Except.ok_bind, if_neg Bool.false_ne_true, hproject, List.map_id]

theorem query_nested (h : rs.Reachable) (hplan : plan.Fits rs.db) {rows : List Row} :
    (s.statement plan q true >>= rs.query) = .ok rows ↔
      ∃ sel, s.rootRows rs.scan plan.table q = .ok sel ∧ (∀ r ∈ sel,
        plan.Throughout (rs.joined s q.showDeleted) (rs.Decided s q.showDeleted) r) ∧
        rows = sel.map (rs.nestRow s q.showDeleted plan) := by
  have hproject {ps : Params} {sel : List Row} (hsel : s.rootRows rs.scan plan.table q = .ok sel) :
      sel.mapM (fun r => project rs.scan ((Scope.ofParams ps).push plan.table.name r) r
        (ReadSettings.columnItems plan.table ++ s.childArrays q.showDeleted plan.table plan.children)
          .empty) = .ok rows ↔ (∀ r ∈ sel,
        plan.Throughout (rs.joined s q.showDeleted) (rs.Decided s q.showDeleted) r) ∧
        rows = sel.map (rs.nestRow s q.showDeleted plan) := by
    have hrows := (subperm_of_rootRows h hplan.mem_tables hsel).subset
    refine Except.mapM_eq_ok_map fun r hr res => ?_
    exact project_level (holds_of_mem_stored h hplan.mem_tables (hrows hr))
      (fun m hm => computes h (hplan.child hm).1 (hplan.child hm).2.1)
  rw [query_statement]
  simp only [Except.bind_eq_ok, if_true]
  constructor
  · rintro ⟨ps, -, sel, hsel, hrun⟩
    exact ⟨sel, hsel, (hproject hsel).1 hrun⟩
  · rintro ⟨sel, hsel, hrun⟩
    obtain ⟨ps, hps, -⟩ := Except.bind_eq_ok.1 hsel
    exact ⟨ps, hps, sel, hsel, (hproject hsel).2 hrun⟩

theorem query_of_error {e : Error} (hsel : s.rootRows rs.scan plan.table q = .error e) (nested : Bool) :
    (s.statement plan q nested >>= rs.query) = .error e := by
  rw [query_statement, hsel]
  cases hps : s.statementParams q with
  | error e' =>
      rw [ReadSettings.rootRows, hps, Except.error_bind] at hsel
      exact hsel
  | ok ps => rfl

theorem ofRow_nestRow_eq (h : rs.Reachable) {showDeleted : Bool} {t : Table} (ht : t ∈ rs.db.tables)
    {depth : Nat} {children : List Level} (hnames : (children.map (fun l => l.table.name)).Nodup)
    {r : Row} (hr : r ∈ rs.stored t) {tree : Level → Row → RowTree}
    (hread : ∀ m ∈ children, ∀ c ∈ rs.joined s showDeleted t m.table r,
      RowTree.ofRow m (rs.nestRow s showDeleted m c) = .ok (tree m c))
    (hunnamed : ∀ m ∈ children, t.hasColumn m.table.name = true →
      r.get m.table.name = .array [] ∧ rs.joined s showDeleted t m.table r = []) :
    RowTree.ofRow ⟨t, depth, children⟩ (rs.nestRow s showDeleted ⟨t, depth, children⟩ r) =
      .ok (.node t.name r (children.map (fun m =>
        (m.table.name, (rs.joined s showDeleted t m.table r).map (tree m))))) := by
  have hcolumns : r.columns = t.columnNames := (holds_of_mem_stored h ht hr).columns
  have hget : ∀ c ∈ t.columnNames, (RowTree.withArrays (fun m => (rs.joined s showDeleted t m.table r).map
      (rs.nestRow s showDeleted m)) children r).get c = r.get c := by
    intro c hc
    by_cases hmem : c ∈ children.map (fun l => l.table.name)
    · obtain ⟨m, hm, rfl⟩ := List.mem_map.1 hmem
      obtain ⟨hnone, hjoined⟩ := hunnamed m hm ((t.hasColumn_iff _).2 hc)
      rw [RowTree.get_withArrays_of_mem hnames hm, hjoined, hnone]
      rfl
    · exact RowTree.get_withArrays_of_not_mem hnames hmem
  have hrows : ∀ m ∈ children, ((rs.joined s showDeleted t m.table r).map
      (rs.nestRow s showDeleted m)).mapM (RowTree.ofRow m) =
        .ok ((rs.joined s showDeleted t m.table r).map (tree m)) := by
    intro m hm
    rw [List.mapM_map]
    refine (Except.mapM_eq_ok_map (P := fun _ => True) fun c hc tree => ?_).2 ⟨by simp, rfl⟩
    rw [Function.comp_apply, hread m hm c hc]
    simp [eq_comm]
  rw [nestRow_eq]
  refine (RowTree.ofRow_withArrays hnames hcolumns).2 ⟨?_, fun m hm _ => ⟨_, hrows m hm⟩, ?_⟩
  · intro c hc column hcolumn
    rw [hget c hc]
    exact (accepts_of_mem_stored h ht hr hcolumn).1
  · have hself : (RowTree.withArrays (fun m => (rs.joined s showDeleted t m.table r).map
        (rs.nestRow s showDeleted m)) children r).project t.columnNames = r := by
      rw [Row.project_congr hget, ← hcolumns, r.project_columns]
    rw [hself]
    refine congrArg _ (List.map_congr_left fun m hm => ?_)
    rw [hrows m hm]
    cases hnamed : t.hasColumn m.table.name with
    | false => rfl
    | true =>
        rw [(hunnamed m hm hnamed).2]
        rfl

/-- Where no table is named like a column, a nested row is read as the row with what is tied to it
at every level below. -/
theorem ofRow_nestRow (h : rs.Reachable) {showDeleted : Bool} {l : Level} (hl : l.Fits rs.db)
    (hapart : l.Apart) {r : Row} (hr : r ∈ rs.stored l.table) :
    RowTree.ofRow l (rs.nestRow s showDeleted l r) = .ok (rs.nest s showDeleted l r) := by
  induction hl generalizing r with
  | @node t depth children ht hnames hchild hfits ih =>
      have hunnamed : ∀ m ∈ children, t.hasColumn m.table.name = true →
          r.get m.table.name = .array [] ∧ rs.joined s showDeleted t m.table r = [] :=
        fun m hm hnamed => absurd ((t.hasColumn_iff _).1 hnamed) (hapart.not_mem hm)
      rw [ofRow_nestRow_eq h ht hnames hr
        (fun m hm c hc => ih m hm (hapart.child hm) (stored_of_mem_joined hc)) hunnamed, nest,
        RowTree.grow_eq]

theorem mapM_ofRow_nestRow (h : rs.Reachable) {showDeleted : Bool} (hplan : plan.Fits rs.db)
    (hapart : plan.Apart) (hsel : ∀ r ∈ sel, r ∈ rs.stored plan.table) :
    (sel.map (rs.nestRow s showDeleted plan)).mapM (RowTree.ofRow plan) =
      .ok (sel.map (rs.nest s showDeleted plan)) := by
  rw [List.mapM_map]
  refine (Except.mapM_eq_ok_map (P := fun _ => True) fun r hr tree => ?_).2 ⟨by simp, rfl⟩
  rw [Function.comp_apply, ofRow_nestRow h hplan hapart (hsel r hr)]
  simp [eq_comm]

theorem mapM_ofRow_leaf (h : rs.Reachable) {t : Table} {depth : Nat} (ht : t ∈ rs.db.tables)
    (hsel : ∀ r ∈ sel, r ∈ rs.stored t) :
    sel.mapM (RowTree.ofRow ⟨t, depth, []⟩) = .ok (sel.map (RowTree.leaf t.name)) := by
  have hfits : (⟨t, depth, []⟩ : Level).Fits rs.db := .node ht .nil (by simp) (by simp)
  have hapart : (⟨t, depth, []⟩ : Level).Apart := by
    intro m p hm
    simp [Level.walk_eq] at hm
  have hread : (sel.map (rs.nestRow {} false ⟨t, depth, []⟩)).mapM (RowTree.ofRow ⟨t, depth, []⟩) =
      .ok (sel.map (rs.nest {} false ⟨t, depth, []⟩)) := mapM_ofRow_nestRow h hfits hapart hsel
  have hself : sel.map (rs.nestRow {} false ⟨t, depth, []⟩) = sel := List.map_id sel
  rw [hself] at hread
  exact hread

theorem nodup_keys_of_rootRows (h : rs.Reachable) {t : Table} (ht : t ∈ rs.db.tables)
    (hsel : s.rootRows rs.scan t q = .ok sel) : (sel.map (Key.ofRow t)).Nodup := by
  obtain ⟨rows, hperm, hsub⟩ := subperm_of_rootRows h ht hsel
  exact (hperm.map _).nodup_iff.1 ((stored_keys_nodup h ht).sublist (hsub.map _))

end RowStore

namespace Transaction

variable {rs : RowStore} {s : ReadSettings} {q : Listing} {plan : Level} {st : ReadState}

theorem run_list (hplan : rs.db.plan q.table q.descendants = .ok plan) (hst : st.cancelled = false)
    {nested : Bool} (hnested : nested = (!plan.children.isEmpty && q.isNested s)) :
    (list ⟨rs.db, rs.backend, s⟩ q).run.run st =
      match s.statement plan q nested >>= rs.query with
      | .error e => (.error e, st)
      | .ok rows => if !plan.children.isEmpty && !nested then
          (Levelwise.read rs.backend s q.showDeleted plan rows).run.run st
        else (rows.mapM (RowTree.ofRow plan), st) := by
  subst hnested
  rw [list, ReadM.run_ofExcept_bind_ok hplan]
  dsimp only
  rw [Listing.isNested]
  generalize (!plan.children.isEmpty && decide (q.strategy.getD s.strategy = .nested)) = nested
  cases hstatement : s.statement plan q nested with
  | error e =>
      rw [ReadM.run_ofExcept_bind_error rfl]
      rfl
  | ok statement =>
      have hquery := rs.run_backend_query hst statement
      rw [ReadM.run_ofExcept_bind_ok rfl, Except.ok_bind]
      cases hrows : rs.query statement with
      | error e =>
          rw [hrows] at hquery
          rw [ReadM.run_bind_error hquery]
      | ok rows =>
          rw [hrows] at hquery
          rw [ReadM.run_bind_ok hquery]
          dsimp only
          split
          · rfl
          · rfl

theorem run_list_of_isNested (hplan : rs.db.plan q.table q.descendants = .ok plan)
    (hst : st.cancelled = false) (hq : q.isNested s = true) :
    (list ⟨rs.db, rs.backend, s⟩ q).run.run st =
      ((s.statement plan q true >>= rs.query) >>= List.mapM (RowTree.ofRow plan), st) := by
  have hstatement : s.statement plan q (!plan.children.isEmpty) = s.statement plan q true := by
    rw [ReadSettings.statement, ReadSettings.statement]
    cases plan.children with
    | nil => rfl
    | cons l ls => rfl
  rw [run_list hplan hst rfl, hq, Bool.and_true, hstatement, Bool.not_not, Bool.and_comm]
  cases s.statement plan q true >>= rs.query with
  | error e => rfl
  | ok rows => cases plan.children.isEmpty <;> rfl

theorem run_list_of_plan_error {e : Error} (hplan : rs.db.plan q.table q.descendants = .error e) :
    (list ⟨rs.db, rs.backend, s⟩ q).run.run st = (.error e, st) := by
  rw [list, ReadM.run_ofExcept_bind_error hplan]

theorem run_list_cancelled_of_params (hst : st.cancelled = true)
    (hplan : rs.db.plan q.table q.descendants = .ok plan) {ps : Params} (hps : s.statementParams q = .ok ps) :
    (list ⟨rs.db, rs.backend, s⟩ q).run.run st = (.error (.backend .cancelled), st) := by
  have hstatement (nested : Bool) : ∃ statement, s.statement plan q nested = .ok statement := by
    rw [ReadSettings.statement, hps, Except.ok_bind]
    exact ⟨_, rfl⟩
  obtain ⟨statement, hstatement⟩ := hstatement (!plan.children.isEmpty &&
    decide (q.strategy.getD s.strategy = .nested))
  rw [list, ReadM.run_ofExcept_bind_ok hplan]
  refine (ReadM.run_ofExcept_bind_ok hstatement).trans ?_
  rw [ReadM.run_bind_error (rs.run_backend_query_error hst statement)]

theorem run_list_cancelled (rs : RowStore) (s : ReadSettings) (hst : st.cancelled = true) (q : Listing) :
    ∃ e, ∀ strategy, (list ⟨rs.db, rs.backend, s⟩
      { q with strategy := strategy }).run.run st = (.error e, st) := by
  cases hplan : rs.db.plan q.table q.descendants with
  | error e => exact ⟨e, fun strategy => run_list_of_plan_error hplan⟩
  | ok plan =>
      cases hps : s.statementParams q with
      | error e =>
          refine ⟨e, fun strategy => ?_⟩
          have hstatement (nested : Bool) :
              s.statement plan { q with strategy := strategy } nested = .error e := by
            rw [ReadSettings.statement, show s.statementParams { q with strategy := strategy } = .error e
              from hps, Except.error_bind]
          rw [list, ReadM.run_ofExcept_bind_ok hplan]
          exact ReadM.run_ofExcept_bind_error (hstatement _)
      | ok ps =>
          exact ⟨_, fun strategy =>
            run_list_cancelled_of_params (q := { q with strategy := strategy }) hst hplan hps⟩

theorem run_list_flat (h : rs.Reachable) (hplan : rs.db.plan q.table q.descendants = .ok plan)
    (hst : st.cancelled = false) :
    (list ⟨rs.db, rs.backend, s⟩ { q with descendants := .empty }).run.run st =
      ((s.rootRows rs.scan plan.table q).map (List.map (RowTree.leaf plan.table.name)), st) := by
  have htable : plan.table ∈ rs.db.tables := (h.wellFormed.plan_eq_ok hplan).1.mem_tables
  have hflat : (s.statement ⟨plan.table, 0, []⟩ { q with descendants := .empty } false >>= rs.query) =
      s.rootRows rs.scan plan.table q := RowStore.query_flat h htable
  rw [run_list (q := { q with descendants := .empty }) (Database.plan_empty hplan) hst rfl]
  rw [List.isEmpty_nil, Bool.not_true, Bool.false_and, hflat]
  cases hsel : s.rootRows rs.scan plan.table q with
  | error e => rfl
  | ok sel =>
      dsimp only
      rw [RowStore.mapM_ofRow_leaf h htable
        (fun r hr => (RowStore.subperm_of_rootRows h htable hsel).subset hr)]
      rfl

/-- Where no table is named like a column of the one above it, a nested listing gives the rows
that the listing gives without descendants, each with what is tied to it, in the order of keys. -/
theorem list_eq_nest (h : rs.Reachable) (hnan : rs.NoNaN)
    (hplan : rs.db.plan q.table q.descendants = .ok plan) (hapart : plan.Apart) :
    (∀ rows, (s.statement plan q true >>= rs.query) = .ok rows →
      ∃ trees, rows.mapM (RowTree.ofRow plan) = .ok trees) ∧
    (∀ m p, (m, some p) ∈ plan.walk none → ∀ r ∈ rs.stored p.table,
      m.table.Sorts ((rs.visible s q.showDeleted m.table).filter (p.table.ties m.table r))
        (rs.joined s q.showDeleted p.table m.table r)) ∧
    ∀ trees st st', q.isNested s = true →
      (list ⟨rs.db, rs.backend, s⟩ q).run.run st = (.ok trees, st') →
      ∃ rows : List Row, (list ⟨rs.db, rs.backend, s⟩ { q with descendants := .empty }).run.run st =
          (.ok (rows.map (RowTree.leaf plan.table.name)), st') ∧
        trees = rows.map (rs.nest s q.showDeleted plan) := by
  obtain ⟨hfits, -, -⟩ := h.wellFormed.plan_eq_ok hplan
  have hread {sel : List Row} (hsel : s.rootRows rs.scan plan.table q = .ok sel) :
      (sel.map (rs.nestRow s q.showDeleted plan)).mapM (RowTree.ofRow plan) =
        .ok (sel.map (rs.nest s q.showDeleted plan)) :=
    RowStore.mapM_ofRow_nestRow h hfits hapart
      (fun r hr => (RowStore.subperm_of_rootRows h hfits.mem_tables hsel).subset hr)
  refine ⟨?_, ?_, ?_⟩
  · intro rows hrows
    obtain ⟨sel, hsel, -, rfl⟩ := (RowStore.query_nested h hfits).1 hrows
    exact ⟨_, hread hsel⟩
  · intro m p hm r hr
    refine RowStore.sorts_of_stored h hnan (hfits.of_mem_walk hm).mem_tables fun c hc => ?_
    exact (RowStore.visible_sublist m.table).subset (List.mem_filter.1 hc).1
  · intro trees st st' hnested hlist
    have hst : st.cancelled = false := by
      by_contra hcancelled
      obtain ⟨e, he⟩ := run_list_cancelled rs s (by simpa using hcancelled) q
      cases hlist.symm.trans (he q.strategy)
    rw [run_list_of_isNested hplan hst hnested, Prod.mk.injEq] at hlist
    obtain ⟨hlist, rfl⟩ := hlist
    obtain ⟨rows, hrows, htrees⟩ := Except.bind_eq_ok.1 hlist
    obtain ⟨sel, hsel, -, rfl⟩ := (RowStore.query_nested h hfits).1 hrows
    rw [hread hsel] at htrees
    rw [run_list_flat h hplan hst, hsel]
    exact ⟨sel, rfl, (Except.ok.inj htrees).symm⟩

end Transaction

namespace Sample

def listing : Listing :=
  { table := "Singer", descendants := .ofList ["Album"], strategy := some .nested }

def album (no : Int64) : Row := .ofFields [("id", .int64 2), ("no", .int64 no), ("delete_time", .null)]

def trees : List RowTree := [
  .node "Singer" (.ofFields [("id", .int64 1), ("name", .null)]) [("Album", [])],
  .node "Singer" (.ofFields [("id", .int64 2), ("name", .string "Ella")])
    [("Album", [.leaf "Album" (album 5), .leaf "Album" (album 1)])]]

theorem store_noNaN : store.NoNaN := by
  rw [RowStore.noNaN_iff]
  cbv

theorem mem_walk {m : Level} {q : Option Level} (hm : (m, q) ∈ plan.walk none) :
    m = plan ∧ q = none ∨ m = ⟨albums, 1, []⟩ ∧ q = some plan := by
  have hwalk : plan.walk none = [(plan, none), (⟨albums, 1, []⟩, some plan)] := rfl
  simpa [hwalk] using hm

theorem plan_apart : plan.Apart := by
  intro m p hm
  obtain ⟨-, ⟨⟩⟩ | ⟨rfl, ⟨⟩⟩ := mem_walk hm
  decide

end Sample

theorem Transaction.list_eq_nest_sample :
    (list ⟨Sample.store.db, Sample.store.backend, {}⟩ Sample.listing).run.run ⟨false, []⟩ =
        (.ok Sample.trees, ⟨false, []⟩) ∧
      ∃ rows : List Row, (list ⟨Sample.store.db, Sample.store.backend, {}⟩
          { Sample.listing with descendants := .empty }).run.run ⟨false, []⟩ =
            (.ok (rows.map (RowTree.leaf "Singer")), ⟨false, []⟩) ∧
        Sample.trees = rows.map (Sample.store.nest {} false Sample.plan) := by
  have hlist : (list ⟨Sample.store.db, Sample.store.backend, {}⟩ Sample.listing).run.run ⟨false, []⟩ =
      (.ok Sample.trees, ⟨false, []⟩) := by cbv
  have hplan : Sample.store.db.plan "Singer" (.ofList ["Album"]) = .ok Sample.plan := by cbv
  have hnest := list_eq_nest (s := {}) (q := Sample.listing) Sample.store_reachable Sample.store_noNaN
    hplan Sample.plan_apart
  exact ⟨hlist, hnest.2.2 _ _ _ rfl hlist⟩

end RowForest
