import RowForest.Proofs.Read.Visibility

namespace RowForest

namespace Level

/-- A row with an empty array in each column that is named like a table below. -/
def emptied (l : Level) (r : Row) : Row :=
  .ofFields (l.table.columnNames.map (fun c =>
    (c, if c ∈ l.children.map (fun m => m.table.name) then .array [] else r.get c)))

theorem emptied_eq_self_iff {l : Level} {r : Row} (hr : r.columns = l.table.columnNames) :
    l.emptied r = r ↔ ∀ m ∈ l.children, l.table.hasColumn m.table.name = true →
      r.get m.table.name = .array [] := by
  have hnodup : l.table.columnNames.Nodup := hr ▸ r.nodup_columns
  rw [Row.ext_iff, emptied, Row.fields_ofFields (by simpa [Function.comp_def] using hnodup),
    Row.fields_eq_map, hr, List.map_inj_left]
  simp only [Prod.mk.injEq, true_and, ite_eq_right_iff]
  constructor
  · intro h m hm hnamed
    exact (h _ ((l.table.hasColumn_iff _).1 hnamed) (List.mem_map.2 ⟨m, hm, rfl⟩)).symm
  · intro h c hc hnamed
    obtain ⟨m, hm, rfl⟩ := List.mem_map.1 hnamed
    exact (h m hm ((l.table.hasColumn_iff _).2 hc)).symm

end Level

namespace RowTree

theorem project_withArrays {t : Table} {depth : Nat} {children : List Level} {rows : Level → List Row}
    {r : Row} (hnames : (children.map (fun l => l.table.name)).Nodup)
    (haccepts : ∀ c ∈ t.columnNames, ∀ column, t.column? c = some column →
      column.type.accepts ((withArrays rows children r).get c) = true) :
    (withArrays rows children r).project t.columnNames = Level.emptied ⟨t, depth, children⟩ r := by
  refine congrArg Row.ofFields (List.map_congr_left fun c hc => congrArg _ ?_)
  split
  · next hnamed =>
    obtain ⟨m, hm, rfl⟩ := List.mem_map.1 hnamed
    obtain ⟨column, hcolumn⟩ := Option.isSome_iff_exists.1 ((t.hasColumn_iff _).2 hc)
    have harray := haccepts _ hc column hcolumn
    rw [get_withArrays_of_mem hnames hm] at harray ⊢
    rw [RowStore.eq_nil_of_accepts harray]
    rfl
  · next hnamed => exact get_withArrays_of_not_mem hnames hnamed

end RowTree

namespace RowStore

variable {rs : RowStore} {s : ReadSettings} {showDeleted : Bool} {l : Level} {r : Row} {tree : RowTree}

theorem row_of_ofRow (h : rs.Reachable) (hl : l.Fits rs.db) (hr : r ∈ rs.stored l.table)
    (htree : RowTree.ofRow l (rs.nestRow s showDeleted l r) = .ok tree) :
    tree.row = l.emptied r ∧ ∀ m ∈ l.children, ∀ column, l.table.column? m.table.name = some column →
      column.type.array = true := by
  cases hl with
  | @node t depth children ht hnames hchild hfits =>
      rw [nestRow_eq] at htree
      obtain ⟨haccepts, -, rfl⟩ :=
        (RowTree.ofRow_withArrays hnames (columns_of_mem_stored h ht hr).1).1 htree
      refine ⟨RowTree.project_withArrays hnames haccepts, fun m hm column hcolumn => ?_⟩
      have hnamed : m.table.name ∈ t.columnNames :=
        (t.hasColumn_iff _).1 (Option.isSome_iff_exists.2 ⟨column, hcolumn⟩)
      have harray := haccepts _ hnamed column hcolumn
      rw [RowTree.get_withArrays_of_mem hnames hm] at harray
      exact (Bool.and_eq_true_iff.1 harray).1

end RowStore

namespace Transaction

variable {rs : RowStore} {s : ReadSettings} {q : Listing} {st st' : ReadState} {trees : List RowTree}

theorem roots_of_run_list (h : rs.Reachable)
    (hlist : (list ⟨rs.db, rs.backend, s⟩ q).run.run st = (.ok trees, st')) :
    st.cancelled = false ∧ st' = st ∧ ∃ plan rows, rs.db.plan q.table q.descendants = .ok plan ∧
      s.rootRows rs.scan plan.table q = .ok rows ∧
      trees.map RowTree.row = (if q.isNested s then rows.map plan.emptied else rows) ∧
      (q.isNested s = true → ∀ r ∈ rows, ∀ m ∈ plan.children, ∀ column,
        plan.table.column? m.table.name = some column → column.type.array = true) := by
  obtain ⟨hst, plan, rows, hplan, hrows⟩ := rootRows_of_run_list hlist
  obtain ⟨hfits, -, -⟩ := h.wellFormed.plan_eq_ok hplan
  have hstored := (RowStore.subperm_of_rootRows h hfits.mem_tables hrows).subset
  cases hq : q.isNested s with
  | false =>
      rw [run_list_levelwise h hplan hst hq hrows, Prod.mk.injEq] at hlist
      obtain ⟨hlist, rfl⟩ := hlist
      refine ⟨hst, rfl, plan, rows, hplan, hrows, ?_, nofun⟩
      have hrow : RowTree.row ∘ rs.tree s q.showDeleted plan = id :=
        funext fun r => RowTree.grow_row plan r
      rw [← Except.ok.inj hlist, List.map_map, hrow, List.map_id]
      rfl
  | true =>
      have hstate : st' = st := by
        rw [run_list_of_isNested hplan hst hq, Prod.mk.injEq] at hlist
        exact hlist.2.symm
      have hread := mapM_of_run_list h hplan hq hrows hlist
      refine ⟨hst, hstate, plan, rows, hplan, hrows, ?_, fun _ r hr => ?_⟩
      · exact Except.map_of_mapM
          (fun r hr tree htree => (RowStore.row_of_ofRow h hfits (hstored hr) htree).1) hread
      · obtain ⟨tree, htree⟩ := Except.exists_of_mapM hread r hr
        exact (RowStore.row_of_ofRow h hfits (hstored hr) htree).2

/-- Listing descendants too gives a tree for each row that is listed without them, in the same
order. The rows are the same if no column that is named like a table below holds anything but an
empty array, or if they are read level by level. -/
theorem list_roots (h : rs.Reachable)
    (hlist : (list ⟨rs.db, rs.backend, s⟩ q).run.run st = (.ok trees, st')) :
    ∃ (plan : Level) (rows : List Row), rs.db.plan q.table q.descendants = .ok plan ∧
      (list ⟨rs.db, rs.backend, s⟩ { q with descendants := .empty }).run.run st =
        (.ok (rows.map (RowTree.leaf plan.table.name)), st') ∧
      trees.map RowTree.row = (if q.isNested s then rows.map plan.emptied else rows) ∧
      (trees.map RowTree.row = rows ↔ (q.isNested s = true → ∀ r ∈ rows, ∀ m ∈ plan.children,
        plan.table.hasColumn m.table.name = true → r.get m.table.name = .array [])) ∧
      ((∀ m ∈ plan.children, ∀ column, plan.table.column? m.table.name = some column →
        column.type.array = false) → trees.map RowTree.row = rows) := by
  obtain ⟨hst, rfl, plan, rows, hplan, hrows, htrees, harrays⟩ := roots_of_run_list h hlist
  obtain ⟨hfits, -, -⟩ := h.wellFormed.plan_eq_ok hplan
  have hstored := (RowStore.subperm_of_rootRows h hfits.mem_tables hrows).subset
  have hself : trees.map RowTree.row = rows ↔ (q.isNested s = true → ∀ r ∈ rows, ∀ m ∈ plan.children,
      plan.table.hasColumn m.table.name = true → r.get m.table.name = .array []) := by
    rw [htrees]
    cases q.isNested s with
    | false => simp
    | true =>
        have hcolumns : ∀ r ∈ rows, r.columns = plan.table.columnNames := fun r hr =>
          (RowStore.columns_of_mem_stored h hfits.mem_tables (hstored hr)).1
        have hmap : rows.map plan.emptied = rows ↔ ∀ r ∈ rows, plan.emptied r = r := by
          simpa using List.map_inj_left (f := plan.emptied) (g := id) (l := rows)
        rw [if_pos rfl, hmap, imp_iff_right rfl]
        exact forall₂_congr fun r hr => Level.emptied_eq_self_iff (hcolumns r hr)
  refine ⟨plan, rows, hplan, ?_, htrees, hself, fun hscalar => hself.2 fun hq r hr m hm hnamed => ?_⟩
  · rw [run_list_flat h hplan hst, hrows]
    rfl
  · obtain ⟨column, hcolumn⟩ := Option.isSome_iff_exists.1 hnamed
    have harray := harrays hq r hr m hm column hcolumn
    rw [hscalar m hm column hcolumn] at harray
    cases harray

theorem list_roots_sample : Sample.store.Reachable ∧
    ∃ rows : List Row, (list ⟨Sample.store.db, Sample.store.backend, {}⟩
        { Sample.listing with descendants := .empty }).run.run ⟨false, []⟩ =
          (.ok (rows.map (RowTree.leaf "Singer")), ⟨false, []⟩) ∧
      Sample.trees.map RowTree.row = rows := by
  have hlist : (list ⟨Sample.store.db, Sample.store.backend, {}⟩ Sample.listing).run.run ⟨false, []⟩ =
      (.ok Sample.trees, ⟨false, []⟩) := by cbv
  obtain ⟨plan, rows, hplan, hflat, -, -, hscalar⟩ := list_roots Sample.store_reachable hlist
  have hsample : Sample.store.db.plan "Singer" (.ofList ["Album"]) = .ok Sample.plan := by cbv
  obtain rfl : plan = Sample.plan := Except.ok.inj (hplan.symm.trans hsample)
  exact ⟨Sample.store_reachable, rows, hflat, hscalar (by decide)⟩

end Transaction

namespace Overwritten

def albums : Table where
  name := "Album"
  columns := [⟨"id", .scalar .int64, true, none, none, false⟩,
    ⟨"Track", ⟨.int64, true, none⟩, false, none, none, false⟩]
  primaryKey := [⟨"id", false⟩]

def db : Database := Database.empty.run [.createTable albums, .createTable Clash.tracks]

def album : Row := .ofFields [("id", .int64 1), ("Track", .array [.int64 7])]

def store : RowStore :=
  ((RowStore.ofDatabase db).apply [.insert "Album" album]).toOption.getD (.ofDatabase db)

theorem store_reachable : store.Reachable :=
  RowStore.reachable_getD ⟨[.createTable albums, .createTable Clash.tracks], rfl⟩ _

def listing : Listing :=
  { table := "Album", descendants := .ofList ["Track"], strategy := some .nested }

end Overwritten

/-- With the tracks of an album, there being none, its column of that name is lost. -/
theorem Transaction.list_roots_overwritten : Overwritten.store.Reachable ∧
    (list ⟨Overwritten.store.db, Overwritten.store.backend, {}⟩
        { Overwritten.listing with descendants := .empty }).run.run ⟨false, []⟩ =
      (.ok [.leaf "Album" Overwritten.album], ⟨false, []⟩) ∧
    (list ⟨Overwritten.store.db, Overwritten.store.backend, {}⟩ Overwritten.listing).run.run ⟨false, []⟩ =
      (.ok [.node "Album" (.ofFields [("id", .int64 1), ("Track", .array [])]) [("Track", [])]],
        ⟨false, []⟩) :=
  ⟨Overwritten.store_reachable, by cbv, by cbv⟩

end RowForest
