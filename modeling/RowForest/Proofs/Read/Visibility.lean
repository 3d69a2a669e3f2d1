import RowForest.Proofs.Read.Strategies
import RowForest.Proofs.Store.SortKeys

namespace RowForest

open Eval

namespace RowTree

mutual

/-- A tree without the trees of deleted rows in it, unless its own row is deleted. -/
def prune (deleted : String → Row → Bool) : RowTree → Option RowTree
  | node table r children =>
    if deleted table r then none else some (node table r (pruneChildren deleted children))
termination_by structural x => x

def pruneChildren (deleted : String → Row → Bool) :
    List (String × List RowTree) → List (String × List RowTree)
  | [] => []
  | e :: es => pruneChild deleted e :: pruneChildren deleted es
termination_by structural x => x

def pruneChild (deleted : String → Row → Bool) : String × List RowTree → String × List RowTree
  | (table, trees) => (table, pruneAll deleted trees)
termination_by structural x => x

def pruneAll (deleted : String → Row → Bool) : List RowTree → List RowTree
  | [] => []
  | tree :: trees => (prune deleted tree).toList ++ pruneAll deleted trees
termination_by structural x => x

end

variable {deleted : String → Row → Bool}

theorem pruneChildren_eq (children : List (String × List RowTree)) :
    pruneChildren deleted children = children.map (fun e => (e.1, pruneAll deleted e.2)) := by
  induction children with
  | nil => rfl
  | cons e es ih =>
      obtain ⟨table, trees⟩ := e
      rw [pruneChildren, ih, pruneChild, List.map_cons]

theorem prune_of_deleted {table : String} {r : Row} (h : deleted table r = true)
    (children : List (String × List RowTree)) : prune deleted (node table r children) = none := by
  rw [prune, if_pos h]

theorem prune_of_not_deleted {table : String} {r : Row} (h : deleted table r = false)
    (children : List (String × List RowTree)) : prune deleted (node table r children) =
      some (node table r (children.map (fun e => (e.1, pruneAll deleted e.2)))) := by
  rw [prune, if_neg (by simp [h]), pruneChildren_eq]

theorem pruneAll_cons_of_none {tree : RowTree} (h : prune deleted tree = none) (trees : List RowTree) :
    pruneAll deleted (tree :: trees) = pruneAll deleted trees := by
  rw [pruneAll, h, Option.toList_none, List.nil_append]

theorem pruneAll_cons_of_some {tree kept : RowTree} (h : prune deleted tree = some kept)
    (trees : List RowTree) : pruneAll deleted (tree :: trees) = kept :: pruneAll deleted trees := by
  rw [pruneAll, h, Option.toList_some, List.singleton_append]

theorem pruneAll_eq_of_mapM {f g : Row → Except Error RowTree} {p : Row → Bool} {rows : List Row}
    {trees kept : List RowTree}
    (hnone : ∀ r ∈ rows, p r = false → ∀ tree, f r = .ok tree → prune deleted tree = none)
    (hsome : ∀ r ∈ rows, p r = true → ∀ tree, f r = .ok tree → ∀ kept, g r = .ok kept →
      prune deleted tree = some kept)
    (htrees : rows.mapM f = .ok trees) (hkept : (rows.filter p).mapM g = .ok kept) :
    pruneAll deleted trees = kept := by
  induction rows generalizing trees kept with
  | nil =>
      cases htrees
      cases hkept
      rfl
  | cons r rows ih =>
      simp only [List.mapM_cons, Except.bind_eq_ok, Except.pure_ok, Except.ok.injEq] at htrees
      obtain ⟨tree, htree, trees, htrees, rfl⟩ := htrees
      have hrest : ∀ kept, (rows.filter p).mapM g = .ok kept → pruneAll deleted trees = kept :=
        fun _ => ih (fun r hr => hnone r (List.mem_cons_of_mem _ hr))
          (fun r hr => hsome r (List.mem_cons_of_mem _ hr)) htrees
      cases hp : p r with
      | false =>
          rw [List.filter_cons_of_neg (by simp [hp])] at hkept
          rw [pruneAll_cons_of_none (hnone r List.mem_cons_self hp tree htree), hrest _ hkept]
      | true =>
          simp only [List.filter_cons_of_pos hp, List.mapM_cons, Except.bind_eq_ok, Except.pure_ok,
            Except.ok.injEq] at hkept
          obtain ⟨first, hfirst, kept, hkept, rfl⟩ := hkept
          rw [pruneAll_cons_of_some (hsome r List.mem_cons_self hp tree htree first hfirst), hrest _ hkept]

theorem pruneAll_map {f g : Row → RowTree} {p : Row → Bool} {rows : List Row}
    (hnone : ∀ r ∈ rows, p r = false → prune deleted (f r) = none)
    (hsome : ∀ r ∈ rows, p r = true → prune deleted (f r) = some (g r)) :
    pruneAll deleted (rows.map f) = (rows.filter p).map g := by
  refine pruneAll_eq_of_mapM (f := fun r => .ok (f r)) (g := fun r => .ok (g r)) (p := p) ?_ ?_
    (List.mapM_pure ..) (List.mapM_pure ..)
  · rintro r hr hp tree ⟨⟩
    exact hnone r hr hp
  · rintro r hr hp tree ⟨⟩ kept ⟨⟩
    exact hsome r hr hp

end RowTree

/-- Whether a row is marked as deleted: its table has a soft-delete column, and the row a value in it. -/
def Database.isDeleted (db : Database) (s : ReadSettings) (table : String) (r : Row) : Bool :=
  ((db.table? table).bind (·.softDelete? s.softDeleteColumn)).any (fun c => !(r.get c.name).isNull)

namespace RowStore

variable {rs : RowStore} {s : ReadSettings} {q : Listing} {t : Table} {ps : Params}

theorem isDeleted_eq (h : rs.Reachable) (ht : t ∈ rs.db.tables) (r : Row) :
    rs.db.isDeleted s t.name r = !s.shows false t r := by
  rw [Database.isDeleted, h.wellFormed.table?_eq_some.2 ⟨ht, rfl⟩, Option.bind_some, ReadSettings.shows,
    Bool.false_or]
  cases t.softDelete? s.softDeleteColumn <;> simp

theorem rootRows_eq_ok (h : rs.Reachable) (ht : t ∈ rs.db.tables) (hpaged : q.isPaged = false)
    {rows : List Row} : s.rootRows rs.scan t q = .ok rows ↔ ∃ ps kept, s.statementParams q = .ok ps ∧
      keepWhere (.ofParams ps) t.name (some (s.rootFilter t q)) (rs.stored t) = .ok kept ∧
      sortRows (.ofParams ps) t.name (if q.order.isEmpty then Key.order t else q.order) kept = .ok rows := by
  simp only [ReadSettings.rootRows, select, hpaged, Bool.false_eq_true, if_false, optionalCount,
    scan_eq_stored h ht, Except.ok_bind, Except.bind_eq_ok, Option.getD_none, List.drop_zero,
    Except.pure_ok, Except.ok.injEq]
  constructor
  · rintro ⟨ps, hps, kept, hkept, sorted, hsorted, rfl⟩
    exact ⟨ps, kept, hps, hkept, hsorted⟩
  · rintro ⟨ps, kept, hps, hkept, hsorted⟩
    exact ⟨ps, hps, kept, hkept, rows, hsorted, rfl⟩

theorem keepWhere_rootFilter (h : rs.Reachable) (ht : t ∈ rs.db.tables) {kept shown : List Row}
    (hkept : keepWhere (.ofParams ps) t.name (some (s.rootFilter t { q with showDeleted := true }))
      (rs.stored t) = .ok kept)
    (hshown : keepWhere (.ofParams ps) t.name (some (s.rootFilter t { q with showDeleted := false }))
      (rs.stored t) = .ok shown) : shown = kept.filter (s.shows false t) := by
  refine keepWhere_narrow (fun r hr b b' hb hb' => ?_) hkept hshown
  simp only [ReadSettings.rootFilter, ReadSettings.visible?, Bool.false_eq_true, if_false,
    if_true] at hb hb'
  rw [ReadSettings.shows, Bool.false_or]
  cases hdelete : t.softDelete? s.softDeleteColumn with
  | none =>
      rw [hdelete] at hb'
      rw [Bool.and_true]
      exact Except.ok.inj (hb'.symm.trans hb)
  | some column =>
      rw [hdelete] at hb'
      have hmem : column.name ∈ r.columns :=
        (holds_of_mem_stored h ht hr).columns ▸ ReadSettings.softDelete_mem hdelete
      exact keeps_and (ReadSettings.eval_visible _ t.name hmem) hb hb'

theorem rootRows_filter (h : rs.Reachable) (ht : t ∈ rs.db.tables) (hpaged : q.isPaged = false)
    {all shown : List Row} (hall : s.rootRows rs.scan t { q with showDeleted := true } = .ok all)
    (hshown : s.rootRows rs.scan t { q with showDeleted := false } = .ok shown)
    (hnumbers : ∀ ps, s.statementParams q = .ok ps → ∀ r ∈ all,
      ∀ o ∈ if q.order.isEmpty then Key.order t else q.order, ∀ v,
        evalIn ((Scope.ofParams ps).push t.name r) o.key = .ok v → v.NaNFree) :
    shown = all.filter (s.shows false t) := by
  obtain ⟨ps, kept, hps, hkept, hsorted⟩ :=
    (rootRows_eq_ok (q := { q with showDeleted := true }) h ht hpaged).1 hall
  obtain ⟨ps', kept', hps', hkept', hsorted'⟩ :=
    (rootRows_eq_ok (q := { q with showDeleted := false }) h ht hpaged).1 hshown
  obtain rfl : ps = ps' := Except.ok.inj (hps.symm.trans hps')
  have hfilter := sortRows_filter_stored h ht (keepWhere_sublist hkept).subset
    (fun r hr => hnumbers ps hps r ((sortRows_perm hsorted).mem_iff.2 hr)) hsorted (s.shows false t)
  rw [keepWhere_rootFilter h ht hkept hkept'] at hsorted'
  exact Except.ok.inj (hsorted'.symm.trans hfilter)

theorem visible_eq_filter_visible (t : Table) :
    rs.visible s false t = (rs.visible s true t).filter (s.shows false t) := by
  have hall : rs.visible s true t = rs.stored t := List.filter_eq_self.2 fun _ _ => rfl
  rw [hall, visible]

theorem below_eq_filter (t child : Table) (r : Row) :
    rs.below s false t child r = (rs.below s true t child r).filter (s.shows false child) := by
  rw [below, visible_eq_filter_visible, below, List.filter_comm]

def KeysNaNFree (rs : RowStore) (s : ReadSettings) (t child : Table) (r : Row) : Prop :=
  ∀ c ∈ rs.joined s true t child r, ∀ v ∈ (Key.ofRow child c).values, v.isNaN = false

theorem joined_eq_filter (h : rs.Reachable) {child : Table} (hchild : child ∈ rs.db.tables) {r : Row}
    (hnumbers : rs.KeysNaNFree s t child r) :
    rs.joined s false t child r = (rs.joined s true t child r).filter (s.shows false child) := by
  rw [joined, visible_eq_filter_visible, List.filter_comm, joined]
  refine Table.mergeSort_filter (fun a ha b hb c hc => ?_) _
  have hnumber {a : Row} (ha : a ∈ (rs.visible s true child).filter (t.ties child r)) :
      (a.get c).isNaN = false :=
    hnumbers a (List.mem_mergeSort.2 ha) _ (List.mem_map.2 ⟨c, hc, rfl⟩)
  exact comparable_of_isNaN h hchild ((visible_sublist child).subset (List.mem_filter.1 ha).1)
    ((visible_sublist child).subset (List.mem_filter.1 hb).1) hc (hnumber ha) (hnumber hb)

theorem isDeleted_of_shows (h : rs.Reachable) (ht : t ∈ rs.db.tables) {r : Row} {b : Bool}
    (hshows : s.shows false t r = b) : rs.db.isDeleted s t.name r = !b := by
  rw [isDeleted_eq h ht, hshows]

theorem prune_tree_of_hidden (h : rs.Reachable) {l : Level} (hl : l.table ∈ rs.db.tables) {r : Row}
    (hshows : s.shows false l.table r = false) :
    (rs.tree s true l r).prune (rs.db.isDeleted s) = none := by
  rw [tree, RowTree.grow_eq]
  exact RowTree.prune_of_deleted (isDeleted_of_shows h hl hshows) _

theorem prune_tree_of_shown (h : rs.Reachable) {l : Level} (hl : l.Fits rs.db) {r : Row}
    (hshows : s.shows false l.table r = true) :
    (rs.tree s true l r).prune (rs.db.isDeleted s) = some (rs.tree s false l r) := by
  induction hl generalizing r with
  | @node t depth children ht hnames hchild hfits ih =>
      rw [tree, RowTree.grow_eq, RowTree.prune_of_not_deleted (isDeleted_of_shows h ht hshows), tree,
        RowTree.grow_eq, List.map_map]
      refine congrArg some (congrArg _ (List.map_congr_left fun m hm => ?_))
      rw [Function.comp_apply, below_eq_filter]
      exact congrArg _ (RowTree.pruneAll_map
        (fun c hc hp => prune_tree_of_hidden h (hfits m hm).mem_tables hp) (fun c hc hp => ih m hm hp))

section

variable {children : List Level} {rows rows' : Level → List Row} {r : Row}
  (hnames : (children.map (fun l => l.table.name)).Nodup)
  (haccepts : ∀ c ∈ t.columnNames, ∀ column, t.column? c = some column →
    column.type.accepts ((RowTree.withArrays rows children r).get c) = true)
include hnames haccepts

theorem project_withArrays_congr (hnil : ∀ m ∈ children, rows m = [] → rows' m = []) :
    (RowTree.withArrays rows children r).project t.columnNames =
      (RowTree.withArrays rows' children r).project t.columnNames := by
  refine Row.project_congr fun c hc => ?_
  by_cases hclash : c ∈ children.map (fun l => l.table.name)
  · obtain ⟨m, hm, rfl⟩ := List.mem_map.1 hclash
    obtain ⟨column, hcolumn⟩ := Option.isSome_iff_exists.1 ((t.hasColumn_iff _).2 hc)
    have harray := haccepts _ hc column hcolumn
    rw [RowTree.get_withArrays_of_mem hnames hm] at harray
    have hnone := eq_nil_of_accepts harray
    rw [RowTree.get_withArrays_of_mem hnames hm, RowTree.get_withArrays_of_mem hnames hm, hnone,
      hnil m hm hnone]
  · rw [RowTree.get_withArrays_of_not_mem hnames hclash,
      RowTree.get_withArrays_of_not_mem hnames hclash]

theorem shows_withArrays (ht : t.columnNames.Nodup) :
    s.shows false t ((RowTree.withArrays rows children r).project t.columnNames) = s.shows false t r := by
  unfold ReadSettings.shows
  cases hdelete : t.softDelete? s.softDeleteColumn with
  | none => rfl
  | some c =>
      have hmem := ReadSettings.softDelete_mem hdelete
      obtain ⟨hcolumn, htime⟩ := Option.filter_eq_some_iff.1 hdelete
      have hname : c.name = s.softDeleteColumn := by simpa using List.find?_some hcolumn
      have htype : c.type = .scalar .timestamp := by
        simpa [Column.isOptionalTime] using (Bool.and_eq_true_iff.1 htime).2
      have hget : (RowTree.withArrays rows children r).get c.name = r.get c.name := by
        refine RowTree.get_withArrays_of_not_mem hnames fun hclash => ?_
        obtain ⟨m, hm, hm'⟩ := List.mem_map.1 hclash
        have harray := haccepts c.name hmem c (hname ▸ hcolumn)
        rw [← hm', RowTree.get_withArrays_of_mem hnames hm, htype] at harray
        cases harray
      dsimp only
      rw [Row.get_project ht _ hmem, hget]

end

variable {l : Level} {tree kept : RowTree}

theorem prune_of_hidden (h : rs.Reachable) (hl : l.Fits rs.db) {r : Row} (hr : r ∈ rs.stored l.table)
    (hshows : s.shows false l.table r = false)
    (htree : RowTree.ofRow l (rs.nestRow s true l r) = .ok tree) :
    tree.prune (rs.db.isDeleted s) = none := by
  cases hl with
  | @node t depth children ht hnames hchild hfits =>
      obtain ⟨hcolumns, hnodup⟩ := columns_of_mem_stored h ht hr
      rw [nestRow_eq] at htree
      obtain ⟨haccepts, -, rfl⟩ := (RowTree.ofRow_withArrays hnames hcolumns).1 htree
      exact RowTree.prune_of_deleted
        (isDeleted_of_shows h ht ((shows_withArrays hnames haccepts hnodup).trans hshows)) _

/-- Where no key is NaN, what is read back below a row that is shown differs by the trees of
deleted rows. -/
theorem prune_of_shown (h : rs.Reachable) (hl : l.Fits rs.db) {r : Row} (hr : r ∈ rs.stored l.table)
    (hnumbers : l.Throughout (rs.joined s true) (rs.KeysNaNFree s) r)
    (hshows : s.shows false l.table r = true)
    (htree : RowTree.ofRow l (rs.nestRow s true l r) = .ok tree)
    (hkept : RowTree.ofRow l (rs.nestRow s false l r) = .ok kept) :
    tree.prune (rs.db.isDeleted s) = some kept := by
  induction hl generalizing r tree kept with
  | @node t depth children ht hnames hchild hfits ih =>
      obtain ⟨hcolumns, hnodup⟩ := columns_of_mem_stored h ht hr
      rw [nestRow_eq] at htree hkept
      obtain ⟨haccepts, hreads, rfl⟩ := (RowTree.ofRow_withArrays hnames hcolumns).1 htree
      obtain ⟨-, hreads', rfl⟩ := (RowTree.ofRow_withArrays hnames hcolumns).1 hkept
      have hjoined : ∀ m ∈ children, rs.joined s false t m.table r =
          (rs.joined s true t m.table r).filter (s.shows false m.table) := fun m hm =>
        joined_eq_filter h (hfits m hm).mem_tables (Level.throughout_iff.1 hnumbers m hm).1
      have hnil : ∀ m ∈ children, (rs.joined s true t m.table r).map (rs.nestRow s true m) = [] →
          (rs.joined s false t m.table r).map (rs.nestRow s false m) = [] := by
        intro m hm hnone
        rw [hjoined m hm, List.map_eq_nil_iff.1 hnone]
        rfl
      have hdeleted := isDeleted_of_shows h ht ((shows_withArrays hnames haccepts hnodup).trans hshows)
      rw [RowTree.prune_of_not_deleted hdeleted, List.map_map,
        project_withArrays_congr hnames haccepts hnil]
      refine congrArg some (congrArg _ (List.map_congr_left fun m hm => ?_))
      rw [Function.comp_apply]
      cases hnamed : t.hasColumn m.table.name with
      | true => rfl
      | false =>
          obtain ⟨ts, hts⟩ := hreads m hm hnamed
          obtain ⟨ts', hts'⟩ := hreads' m hm hnamed
          rw [if_neg Bool.false_ne_true, hts, if_neg Bool.false_ne_true, hts']
          rw [List.mapM_map] at hts hts'
          rw [hjoined m hm] at hts'
          refine congrArg _ (RowTree.pruneAll_eq_of_mapM ?_ ?_ hts hts')
          · exact fun c hc hp _ hread => prune_of_hidden h (hfits m hm) (stored_of_mem_joined hc) hp hread
          · exact fun c hc hp _ hread _ hread' => ih m hm (stored_of_mem_joined hc)
              ((Level.throughout_iff.1 hnumbers m hm).2 c hc) hp hread hread'

/-- Whether no value by which a listing sorts the rows it finds, deleted ones included, is NaN or
an array with NaN in it. A nested statement also sorts the rows below them, by their keys. -/
structure SortKeysNaNFree (rs : RowStore) (s : ReadSettings) (q : Listing) : Prop where
  roots : ∀ plan rows ps, rs.db.plan q.table q.descendants = .ok plan →
    s.rootRows rs.scan plan.table { q with showDeleted := true } = .ok rows →
    s.statementParams q = .ok ps → ∀ r ∈ rows,
    ∀ o ∈ if q.order.isEmpty then Key.order plan.table else q.order, ∀ v,
      evalIn ((Scope.ofParams ps).push plan.table.name r) o.key = .ok v → v.NaNFree
  arrays : q.isNested s = true → ∀ plan rows, rs.db.plan q.table q.descendants = .ok plan →
    s.rootRows rs.scan plan.table { q with showDeleted := true } = .ok rows → ∀ r ∈ rows,
    plan.Throughout (rs.joined s true) (rs.KeysNaNFree s) r

theorem throughout_keysNaNFree (hnan : rs.NoNaN) (hl : l.Fits rs.db) (r : Row) :
    l.Throughout (rs.joined s true) (rs.KeysNaNFree s) r := by
  induction hl generalizing r with
  | node ht hnames hchild hfits ih =>
      refine Level.throughout_iff.2 fun m hm => ⟨fun c hc v hv => ?_, fun c hc => ih m hm c⟩
      exact hnan m.table (hfits m hm).mem_tables c (stored_of_mem_joined hc) v hv

theorem sortKeysNaNFree_of_noNaN (h : rs.Reachable) (hnan : rs.NoNaN) (horder : q.order = []) :
    rs.SortKeysNaNFree s q where
  roots plan rows ps hplan hrows hps r hr o ho v hv := by
    have ht := (h.wellFormed.plan_eq_ok hplan).1.mem_tables
    have hr := (subperm_of_rootRows h ht hrows).subset hr
    rw [horder] at ho
    obtain ⟨p, hp, rfl⟩ := List.mem_map.1 ho
    have hc : p.column ∈ plan.table.keyColumns := List.mem_map.2 ⟨p, hp, rfl⟩
    have hmem := (h.wellFormed.tables _ ht).key_columns _ hc
    rw [evalIn_column_push ((columns_of_mem_stored h ht hr).1 ▸ hmem)] at hv
    obtain rfl := Except.ok.inj hv
    exact Value.naNFree_of_scalar (scalar_get h ht hr hc) (hnan _ ht r hr _ (List.mem_map.2 ⟨_, hc, rfl⟩))
  arrays _ _ _ hplan _ r _ := throughout_keysNaNFree hnan (h.wellFormed.plan_eq_ok hplan).1 r

end RowStore

namespace Transaction

variable {rs : RowStore} {s : ReadSettings} {q : Listing} {plan : Level} {st st' : ReadState}
  {trees : List RowTree}

theorem rootRows_of_run_list
    (hlist : (list ⟨rs.db, rs.backend, s⟩ q).run.run st = (.ok trees, st')) :
    st.cancelled = false ∧ ∃ plan rows, rs.db.plan q.table q.descendants = .ok plan ∧
      s.rootRows rs.scan plan.table q = .ok rows := by
  cases hst : st.cancelled with
  | true =>
      obtain ⟨e, he⟩ := run_list_cancelled rs s hst q
      cases hlist.symm.trans (he q.strategy)
  | false =>
      cases hplan : rs.db.plan q.table q.descendants with
      | error e => cases hlist.symm.trans (run_list_of_plan_error hplan)
      | ok plan =>
          cases hsel : s.rootRows rs.scan plan.table q with
          | error e =>
              rw [run_list hplan hst rfl, RowStore.query_of_error hsel] at hlist
              cases hlist
          | ok rows => exact ⟨rfl, plan, rows, rfl, hsel⟩

theorem mapM_of_run_list (h : rs.Reachable) (hplan : rs.db.plan q.table q.descendants = .ok plan)
    (hq : q.isNested s = true) {rows : List Row} (hrows : s.rootRows rs.scan plan.table q = .ok rows)
    (hlist : (list ⟨rs.db, rs.backend, s⟩ q).run.run st = (.ok trees, st')) :
    rows.mapM (fun r => RowTree.ofRow plan (rs.nestRow s q.showDeleted plan r)) = .ok trees := by
  obtain ⟨hst, -⟩ := rootRows_of_run_list hlist
  obtain ⟨hfits, -, -⟩ := h.wellFormed.plan_eq_ok hplan
  rw [run_list_of_isNested hplan hst hq, Prod.mk.injEq, Except.bind_eq_ok] at hlist
  obtain ⟨⟨nested, hnested, htrees⟩, -⟩ := hlist
  obtain ⟨sel, hsel, -, rfl⟩ := (RowStore.query_nested h hfits).1 hnested
  obtain rfl : rows = sel := Except.ok.inj (hrows.symm.trans hsel)
  rwa [List.mapM_map] at htrees

/-- Without limit and offset, a listing that does not show deleted rows gives what it gives with
them, without the trees of deleted rows at any level. Nothing else differs, whichever way it is read. -/
theorem list_eq_pruneAll (h : rs.Reachable) (s : ReadSettings) (q : Listing) (hlimit : q.limit = none)
    (hoffset : q.offset = 0) (hnumbers : rs.SortKeysNaNFree s q) {st st' fin fin' : ReadState}
    {all shown : List RowTree}
    (hall : (list ⟨rs.db, rs.backend, s⟩ { q with showDeleted := true }).run.run st = (.ok all, fin))
    (hshown : (list ⟨rs.db, rs.backend, s⟩ { q with showDeleted := false }).run.run st' =
      (.ok shown, fin')) :
    shown = RowTree.pruneAll (rs.db.isDeleted s) all := by
  obtain ⟨hst, plan, rows, hplan, hrows⟩ := rootRows_of_run_list hall
  obtain ⟨hst', plan', rows', hplan', hrows'⟩ := rootRows_of_run_list hshown
  obtain rfl : plan = plan' := Except.ok.inj (hplan.symm.trans hplan')
  obtain ⟨hfits, -, -⟩ := h.wellFormed.plan_eq_ok hplan
  have ht := hfits.mem_tables
  have hstored := (RowStore.subperm_of_rootRows h ht hrows).subset
  have hpaged : q.isPaged = false := by simp [Listing.isPaged, hlimit, hoffset]
  obtain rfl : rows' = rows.filter (s.shows false plan.table) :=
    RowStore.rootRows_filter h ht hpaged hrows hrows' fun ps => hnumbers.roots plan rows ps hplan hrows
  cases hq : q.isNested s with
  | false =>
      rw [run_list_levelwise h hplan hst hq hrows, Prod.mk.injEq] at hall
      rw [run_list_levelwise h hplan' hst' hq hrows', Prod.mk.injEq] at hshown
      obtain ⟨hall, -⟩ := hall
      obtain ⟨hshown, -⟩ := hshown
      rw [← Except.ok.inj hall, ← Except.ok.inj hshown]
      exact (RowTree.pruneAll_map (fun r hr hp => RowStore.prune_tree_of_hidden h ht hp)
        (fun r hr hp => RowStore.prune_tree_of_shown h hfits hp)).symm
  | true =>
      have hall := mapM_of_run_list h hplan hq hrows hall
      have hshown := mapM_of_run_list h hplan' hq hrows' hshown
      have hkeys := hnumbers.arrays hq plan rows hplan hrows
      refine (RowTree.pruneAll_eq_of_mapM ?_ ?_ hall hshown).symm
      · exact fun r hr hp tree htree => RowStore.prune_of_hidden h hfits (hstored hr) hp htree
      · exact fun r hr hp tree htree kept hkept =>
          RowStore.prune_of_shown h hfits (hstored hr) (hkeys r hr) hp htree hkept

end Transaction

namespace Sample

def deletedAlbum : Row := .ofFields [("id", .int64 1), ("no", .int64 7),
  ("delete_time", .timestamp { seconds := 1700000000, nanos := 0 })]

def marked : RowStore :=
  ((RowStore.ofDatabase db).apply (writes ++ [.insert "Album" deletedAlbum])).toOption.getD (.ofDatabase db)

theorem marked_reachable : marked.Reachable :=
  RowStore.reachable_getD ⟨[.createTable singers, .createTable albums], rfl⟩ _

theorem marked_noNaN : marked.NoNaN := by
  rw [RowStore.noNaN_iff]
  cbv

def markedTrees : List RowTree := [
  .node "Singer" (.ofFields [("id", .int64 1), ("name", .null)]) [("Album", [.leaf "Album" deletedAlbum])],
  .node "Singer" (.ofFields [("id", .int64 2), ("name", .string "Ella")])
    [("Album", [.leaf "Album" (album 5), .leaf "Album" (album 1)])]]

end Sample

theorem Transaction.list_eq_pruneAll_sample :
    (list ⟨Sample.marked.db, Sample.marked.backend, {}⟩ { Sample.listing with showDeleted := true }).run.run
        ⟨false, []⟩ = (.ok Sample.markedTrees, ⟨false, []⟩) ∧
      (list ⟨Sample.marked.db, Sample.marked.backend, {}⟩ Sample.listing).run.run ⟨false, []⟩ =
        (.ok Sample.trees, ⟨false, []⟩) ∧
      Sample.trees = RowTree.pruneAll (Sample.marked.db.isDeleted {}) Sample.markedTrees := by
  have hall : (list ⟨Sample.marked.db, Sample.marked.backend, {}⟩
      { Sample.listing with showDeleted := true }).run.run ⟨false, []⟩ =
        (.ok Sample.markedTrees, ⟨false, []⟩) := by cbv
  have hshown : (list ⟨Sample.marked.db, Sample.marked.backend, {}⟩ Sample.listing).run.run ⟨false, []⟩ =
      (.ok Sample.trees, ⟨false, []⟩) := by cbv
  have hnumbers : Sample.marked.SortKeysNaNFree {} Sample.listing :=
    RowStore.sortKeysNaNFree_of_noNaN Sample.marked_reachable Sample.marked_noNaN rfl
  exact ⟨hall, hshown, list_eq_pruneAll Sample.marked_reachable {} Sample.listing rfl rfl hnumbers
    hall hshown⟩

end RowForest
