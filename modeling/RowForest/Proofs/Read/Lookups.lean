import RowForest.Proofs.Read.Faults
import RowForest.Proofs.Read.Pages
import RowForest.Proofs.Read.Roots
import RowForest.Proofs.Store.Deletion
import RowForest.Proofs.Store.Selection

namespace RowForest

open Eval

theorem Key.Differs.not_selects {k : Key} {t : Table} {r : Row} (h : k.Differs t r) :
    k.selects t r = false := by
  obtain ⟨part, hpart, o, ho, hne⟩ := h
  refine Bool.eq_false_iff.2 fun hselects => ?_
  have heq := of_decide_eq_true (List.all_eq_true.1 hselects part hpart)
  rw [ho, Option.some.injEq] at heq
  exact hne heq

theorem Table.Admits.scalar {t : Table} {k : Key} (hk : t.Admits k) (ht : t.WellFormed)
    (hexact : t.ExactKeys) : ∀ v ∈ k.values, v.Scalar := by
  have hlength : k.values.length ≤ t.keyColumns.length := by
    rw [Table.keyColumns, List.length_map]
    exact hk.length_eq.le
  intro v hv
  rw [← List.map_snd_zip hlength] at hv
  obtain ⟨part, hpart, rfl⟩ := List.mem_map.1 hv
  obtain ⟨column, hcolumn⟩ := ht.exists_column? (List.of_mem_zip hpart).1
  exact ((hexact _ (List.of_mem_zip hpart).1 column hcolumn).regular (hk.accepts part hpart column hcolumn)).1

theorem Eval.keepWhere_of_decides {sc : Scope} {table : String} {e : Sql.Expr} {rows : List Row}
    {P : Row → Prop} [DecidablePred P] (h : ∀ r ∈ rows, Decides (sc.push table r) e (P r)) :
    keepWhere sc table (some e) rows = .ok (rows.filter (fun r => P r)) := by
  refine keepWhere_eq_filter fun r hr => ?_
  obtain ⟨o, heval, ho⟩ := h r hr
  rw [keeps_some, evalIn, heval]
  refine congrArg Except.ok ?_
  rw [decide_eq_decide, ← ho]
  rcases o with - | (_ | _) <;> simp [ofTruth, Value.asBool?]

namespace RowStore

variable {rs : RowStore} {s : ReadSettings} {plan : Level} {t : Table} {k : Key} {ks : List Key}
  {rows : List Row} {d : TableNames}

def selected (rs : RowStore) (t : Table) (k : Key) : List Row :=
  ((rs.stored t).filter (k.selects t)).mergeSort t.keyLE

theorem mem_selected {r : Row} : r ∈ rs.selected t k ↔ r ∈ rs.stored t ∧ k.selects t r = true := by
  rw [selected, List.mem_mergeSort, List.mem_filter]

theorem read_whole (h : rs.Reachable) (ht : t ∈ rs.db.tables) {keys : KeySet} {p : Row → Bool}
    (hp : ∀ r ∈ rs.stored t, (keys.cut t).contains (Key.ofRow t r) = p r) :
    rs.read t.name keys t.columnNames = .ok rows ↔ keys.Valid t ∧ rows = (rs.stored t).filter p := by
  have hself : ∀ r ∈ (rs.stored t).filter p, r.project t.columnNames = r := by
    intro r hr
    rw [← (columns_of_mem_stored h ht (List.mem_filter.1 hr).1).1, r.project_columns]
  rw [read_eq_ok h ht, List.filter_congr hp, List.map_congr_left hself, List.map_id']

theorem read_single (h : rs.Reachable) (ht : t ∈ rs.db.tables) :
    rs.read t.name (.single k) t.columnNames = .ok rows ↔
      (k.length = t.primaryKey.length ∧ ∀ v ∈ k.values, v.Scalar) ∧
        rows = (rs.stored t).filter (fun r => Key.ofRow t r = k) := by
  refine read_whole h ht fun r hr => ?_
  rw [KeySet.cut, KeySet.contains, Bool.eq_iff_iff, Key.equal_iff (.inr (scalar_of_mem_stored h ht hr)),
    decide_eq_true_eq, eq_comm]

theorem head?_filter_key (h : rs.Reachable) (ht : t ∈ rs.db.tables) {r : Row} (hr : r ∈ rs.stored t) :
    ((rs.stored t).filter (fun c => Key.ofRow t c = Key.ofRow t r)).head? = some r := by
  cases hhead : ((rs.stored t).filter (fun c => Key.ofRow t c = Key.ofRow t r)).head? with
  | none =>
      have hnil := List.head?_eq_none_iff.1 hhead
      exact absurd (decide_eq_true rfl) (List.filter_eq_nil_iff.1 hnil r hr)
  | some c =>
      obtain ⟨hc, hkey⟩ := List.mem_filter.1 (List.mem_of_head? hhead)
      rw [List.inj_on_of_nodup_map (stored_keys_nodup h ht) hc hr (of_decide_eq_true hkey)]

theorem regular_of_exact (h : rs.Reachable) (ht : t ∈ rs.db.tables) (hexact : t.ExactKeys) :
    ∀ r ∈ rs.stored t, ∀ v ∈ (Key.ofRow t r).values, v.Regular := by
  intro r hr v hv
  obtain ⟨c, hc, rfl⟩ := List.mem_map.1 hv
  obtain ⟨column, hcolumn⟩ := column?_of_mem_keyColumns h ht hc
  exact ((hexact c hc column hcolumn).regular (accepts_of_mem_stored h ht hr hcolumn).1).2

theorem filter_keys_nodup (h : rs.Reachable) (ht : t ∈ rs.db.tables) (ks : List Key) :
    (((rs.stored t).filter (fun r => Key.ofRow t r ∈ ks)).map (Key.ofRow t)).Nodup :=
  (stored_keys_nodup h ht).sublist (List.filter_sublist.map _)

theorem length_filter_keys (h : rs.Reachable) (ht : t ∈ rs.db.tables) (ks : List Key) :
    ((rs.stored t).filter (fun r => Key.ofRow t r ∈ ks)).length ≤ ks.length := by
  have hsubset : ((rs.stored t).filter (fun r => Key.ofRow t r ∈ ks)).map (Key.ofRow t) ⊆ ks := by
    intro k hk
    obtain ⟨r, hr, rfl⟩ := List.mem_map.1 hk
    exact of_decide_eq_true (List.mem_filter.1 hr).2
  have hlength := ((filter_keys_nodup h ht ks).subperm hsubset).length_le
  rwa [List.length_map] at hlength

theorem leaf_eq_tree {name : String} (hplan : rs.db.plan name d = .ok plan) (hd : d.isEmpty = true)
    (showDeleted : Bool) : RowTree.leaf plan.table.name = rs.tree s showDeleted plan := by
  funext r
  rw [tree, RowTree.grow_eq, Database.children_eq_nil hplan hd]
  rfl

/-- A condition that tells by the key which rows are asked for finds them all, in the order of
their keys, if the limit is not below the number of keys. -/
theorem rootRows_of_decides (h : rs.Reachable) (ht : t ∈ rs.db.tables) (hs : s.NamesApart)
    (hexact : t.ExactKeys) {e : Sql.Expr} {keyParams : Params} {n : Nat} (hn : n < 2 ^ 63)
    (hlength : ks.length ≤ n) (hdecides : ∀ ps : Params,
      (∀ name, s.keyParamLabel.toList <+: name.toList → ps.find? name = keyParams.find? name) →
      ∀ r ∈ rs.stored t, Decides ((Scope.ofParams ps).push t.name r) e (Key.ofRow t r ∈ ks)) :
    s.rootRows rs.scan t (Transaction.keyQuery t e keyParams n d) =
      .ok ((rs.stored t).filter (fun r => Key.ofRow t r ∈ ks)) := by
  obtain ⟨ps, hps, hrows⟩ := rootRows_keyQuery h ht hs e keyParams hn d
  have hordered := stored_ordered h ht (regular_of_exact h ht hexact)
  refine (hrows _).2 ⟨_, keepWhere_of_decides (hdecides ps hps), ?_⟩
  rw [List.mergeSort_of_pairwise (hordered.sublist List.filter_sublist),
    List.take_of_length_le ((length_filter_keys h ht ks).trans hlength)]

end RowStore

namespace Transaction

variable {rs : RowStore} {s : ReadSettings} {q : Listing} {plan : Level} {st st' : ReadState} {t : Table}
  {k : Key} {d : TableNames} {name : String}

theorem run_list_plain (h : rs.Reachable) (hplan : rs.db.plan q.table q.descendants = .ok plan)
    (hst : st.cancelled = false) (hplain : rs.Plain plan) {rows : List Row}
    (hrows : s.rootRows rs.scan plan.table q = .ok rows) :
    (list ⟨rs.db, rs.backend, s⟩ q).run.run st = (.ok (rows.map (rs.tree s q.showDeleted plan)), st) := by
  cases hq : q.isNested s with
  | false => exact run_list_levelwise h hplan hst hq hrows
  | true =>
      obtain ⟨hfits, -, -⟩ := h.wellFormed.plan_eq_ok hplan
      have hstored := (RowStore.subperm_of_rootRows h hfits.mem_tables hrows).subset
      refine (run_list_nested h hplan hst hq hrows).2 fun r hr => ?_
      exact RowStore.throughout_of_walk hfits
        (fun m p hm r hr => RowStore.agrees_of_plain h hfits hplain hm hr) (hstored hr)

def lookup (s : ReadSettings) (t : Table) (k : Key) (d : TableNames) : Listing :=
  let label := Key.parameterName s.keyParamLabel 0
  keyQuery t (k.predicate t label) (k.bind t label .empty) 1 d

theorem bound_bind {label : String} {ps : Params} (hps : ∀ name, label.toList <+: name.toList →
    ps.find? name = (k.bind t (Key.parameterName label 0) .empty).find? name) :
    k.Bound t (Key.parameterName label 0) ps := by
  have hfirst : (k, 0) ∈ [k].zipIdx := List.mem_cons_self
  have hbound : k.Bound t (Key.parameterName label 0) (k.bind t (Key.parameterName label 0) .empty) :=
    bound_keyBindings hfirst
  exact hbound.congr hps

/-- A lookup that comes to a result finds the first row that the key selects, and has found every
other row to differ from it. -/
theorem rootRows_lookup (h : rs.Reachable) (ht : t ∈ rs.db.tables) (hs : s.NamesApart) {rows : List Row}
    (hrows : s.rootRows rs.scan t (lookup s t k d) = .ok rows) :
    rows = (rs.selected t k).take 1 ∧ ∀ r ∈ rs.stored t, k.selects t r = true ∨ k.Differs t r := by
  obtain ⟨ps, hps, hiff⟩ := RowStore.rootRows_keyQuery h ht hs
    (k.predicate t (Key.parameterName s.keyParamLabel 0))
    (k.bind t (Key.parameterName s.keyParamLabel 0) .empty) (n := 1) (by decide) d
  obtain ⟨kept, hkept, rfl⟩ := (hiff rows).1 hrows
  have hverdict : ∀ r ∈ rs.stored t, ∀ b, keeps (.ofParams ps) t.name
      (some (k.predicate t (Key.parameterName s.keyParamLabel 0))) r = .ok b →
      b = true ∧ k.selects t r = true ∨ b = false ∧ k.Differs t r := by
    intro r hr b hb
    have hcolumns : ∀ c ∈ t.keyColumns, c ∈ r.columns := by
      rw [(RowStore.columns_of_mem_stored h ht hr).1]
      exact (h.wellFormed.tables t ht).key_columns
    exact keeps_of_verdict (Key.verdict_predicate (bound_bind hps) hcolumns) hb
  have hkeeps := keeps_of_keepWhere hkept
  have hfilter : keepWhere (.ofParams ps) t.name
      (some (k.predicate t (Key.parameterName s.keyParamLabel 0))) (rs.stored t) =
        .ok ((rs.stored t).filter (k.selects t)) := by
    refine keepWhere_eq_filter fun r hr => ?_
    obtain ⟨b, hb⟩ := hkeeps r hr
    rw [hb]
    rcases hverdict r hr b hb with ⟨rfl, hselects⟩ | ⟨rfl, hdiffers⟩
    · rw [hselects]
    · rw [hdiffers.not_selects]
  refine ⟨by rw [Except.ok.inj (hkept.symm.trans hfilter), RowStore.selected], fun r hr => ?_⟩
  obtain ⟨b, hb⟩ := hkeeps r hr
  exact (hverdict r hr b hb).imp And.right And.right

/-- The answer of a lookup that has come to at most one row. -/
def found (t : Table) (k : Key) : Option RowTree → Except Error RowTree
  | some tree => .ok tree
  | none => .error (.notFound t.name k)

theorem found_eq_ok {tree : Option RowTree} {tree' : RowTree} :
    found t k tree = .ok tree' ↔ tree = some tree' := by
  cases tree <;> simp [found]

theorem found_eq_notFound {tree : Option RowTree} {table : String} {l : Key} :
    found t k tree = .error (.notFound table l) ↔ tree = none ∧ table = t.name ∧ l = k := by
  cases tree <;> simp [found, eq_comm]

theorem run_get_empty (h : rs.Reachable) (ht : t ∈ rs.db.tables) (hd : d.isEmpty = true) :
    (get ⟨rs.db, rs.backend, s⟩ t.name k d).run.run st =
      (if st.cancelled then .error (.backend .cancelled) else
        rs.read t.name (.single k) t.columnNames >>= fun rows =>
          found t k (rows.head?.map (RowTree.leaf t.name)), st) := by
  rw [get, ReadM.run_ofExcept_bind_ok (h.wellFormed.getTable_of_mem ht)]
  dsimp only
  rw [if_pos hd]
  cases hst : st.cancelled with
  | true => exact ReadM.run_bind_error (rs.run_backend_readRow_error hst t.name k t.columnNames)
  | false =>
      have hread := rs.run_backend_readRow hst t.name k t.columnNames
      rw [if_neg Bool.false_ne_true]
      cases hrows : rs.read t.name (.single k) t.columnNames with
      | error e =>
          rw [hrows] at hread
          rw [ReadM.run_bind_error hread, Except.error_bind]
      | ok rows =>
          rw [hrows] at hread
          refine (ReadM.run_bind_ok hread).trans ?_
          rw [Except.ok_bind]
          cases rows.head? <;> rfl

theorem run_get_descendants (h : rs.Reachable) (ht : t ∈ rs.db.tables) (hd : d.isEmpty = false) :
    (get ⟨rs.db, rs.backend, s⟩ t.name k d).run.run st =
      match (list ⟨rs.db, rs.backend, s⟩ (lookup s t k d)).run.run st with
      | (.ok trees, st') => (found t k trees.head?, st')
      | (.error e, st') => (.error e, st') := by
  rw [get, ReadM.run_ofExcept_bind_ok (h.wellFormed.getTable_of_mem ht)]
  dsimp only
  rw [if_neg (by simp [hd])]
  obtain ⟨⟨res, st'⟩, hlist⟩ :
      ∃ res, (list ⟨rs.db, rs.backend, s⟩ (lookup s t k d)).run.run st = res := ⟨_, rfl⟩
  rw [hlist]
  cases res with
  | error e => exact ReadM.run_bind_error hlist
  | ok trees =>
      refine (ReadM.run_bind_ok hlist).trans ?_
      dsimp only
      cases trees.head? <;> rfl

theorem roots_of_lookup (h : rs.Reachable) (hs : s.NamesApart)
    (hplan : rs.db.plan plan.table.name d = .ok plan) {trees : List RowTree}
    (hlist : (list ⟨rs.db, rs.backend, s⟩ (lookup s plan.table k d)).run.run st = (.ok trees, st')) :
    trees.map RowTree.row = ((rs.selected plan.table k).take 1).map
        (fun r => if s.strategy = .nested then plan.emptied r else r) ∧
      ∀ r ∈ rs.stored plan.table, k.selects plan.table r = true ∨ k.Differs plan.table r := by
  obtain ⟨-, -, plan', rows, hplan', hrows, htrees, -⟩ := roots_of_run_list h hlist
  obtain rfl : plan = plan' := Except.ok.inj (hplan.symm.trans hplan')
  obtain ⟨hfits, -, -⟩ := h.wellFormed.plan_eq_ok hplan
  obtain ⟨rfl, hall⟩ := rootRows_lookup h hfits.mem_tables hs hrows
  refine ⟨htrees.trans ?_, hall⟩
  have hnested : (lookup s plan.table k d).isNested s = decide (s.strategy = .nested) := rfl
  rw [hnested]
  by_cases hstrategy : s.strategy = .nested <;> simp [hstrategy]

/-- A row that is got without descendants has the key. With them it is the first one that the key
selects, and may have lost columns that are named like a table below. -/
theorem row_of_run_get (h : rs.Reachable) (hs : s.NamesApart) (hplan : rs.db.plan name d = .ok plan)
    {tree : RowTree} (hget : (get ⟨rs.db, rs.backend, s⟩ name k d).run.run st = (.ok tree, st')) :
    ∃ r ∈ rs.stored plan.table, tree.row = (if s.strategy = .nested then plan.emptied r else r) ∧
      (d.isEmpty = true → Key.ofRow plan.table r = k) ∧
      (d.isEmpty = false → (rs.selected plan.table k).head? = some r) := by
  obtain ⟨hfits, rfl, -⟩ := h.wellFormed.plan_eq_ok hplan
  have ht := hfits.mem_tables
  cases hd : d.isEmpty with
  | true =>
      rw [run_get_empty h ht hd] at hget
      obtain ⟨hget, -⟩ := Prod.mk.inj hget
      split at hget
      · cases hget
      · obtain ⟨rows, hrows, hfound⟩ := Except.bind_eq_ok.1 hget
        obtain ⟨-, rfl⟩ := (RowStore.read_single h ht).1 hrows
        obtain ⟨r, hhead, rfl⟩ := Option.map_eq_some_iff.1 (found_eq_ok.1 hfound)
        obtain ⟨hr, hkey⟩ := List.mem_filter.1 (List.mem_of_head? hhead)
        have hself : plan.emptied r = r := by
          rw [Level.emptied_eq_self_iff (RowStore.columns_of_mem_stored h ht hr).1,
            Database.children_eq_nil hplan hd]
          simp
        refine ⟨r, hr, ?_, fun _ => of_decide_eq_true hkey, nofun⟩
        rw [hself, ite_self]
        rfl
  | false =>
      rw [run_get_descendants h ht hd] at hget
      split at hget
      · next trees _ hlist =>
        obtain ⟨hroots, -⟩ := roots_of_lookup h hs hplan hlist
        have hhead := congrArg List.head? hroots
        rw [List.head?_map, List.head?_map, List.head?_take, if_neg (by decide),
          found_eq_ok.1 (Prod.mk.inj hget).1, Option.map_some, eq_comm, Option.map_eq_some_iff] at hhead
        obtain ⟨r, hr, hrow⟩ := hhead
        exact ⟨r, (RowStore.mem_selected.1 (List.mem_of_head? hr)).1, hrow.symm, nofun, fun _ => hr⟩
      · cases hget

theorem absent_of_run_get (h : rs.Reachable) (hs : s.NamesApart) (hplan : rs.db.plan name d = .ok plan)
    {table : String} {l : Key}
    (hget : (get ⟨rs.db, rs.backend, s⟩ name k d).run.run st = (.error (.notFound table l), st')) :
    table = name ∧ l = k ∧ ∀ r ∈ rs.stored plan.table, Key.ofRow plan.table r ≠ k := by
  obtain ⟨hfits, rfl, -⟩ := h.wellFormed.plan_eq_ok hplan
  have ht := hfits.mem_tables
  cases hd : d.isEmpty with
  | true =>
      rw [run_get_empty h ht hd] at hget
      obtain ⟨hget, -⟩ := Prod.mk.inj hget
      split at hget
      · cases hget
      · cases hrows : rs.read plan.table.name (.single k) plan.table.columnNames with
        | error e =>
            rw [hrows] at hget
            cases hget
            exact absurd (rs.failsWith_read _ _ _ _ hrows) id
        | ok rows =>
            rw [hrows, Except.ok_bind] at hget
            obtain ⟨-, rfl⟩ := (RowStore.read_single h ht).1 hrows
            obtain ⟨hnone, rfl, rfl⟩ := found_eq_notFound.1 hget
            refine ⟨rfl, rfl, fun r hr hkey => ?_⟩
            have hempty := List.head?_eq_none_iff.1 (Option.map_eq_none_iff.1 hnone)
            exact List.filter_eq_nil_iff.1 hempty r hr (decide_eq_true hkey)
  | false =>
      rw [run_get_descendants h ht hd] at hget
      split at hget
      · next trees _ hlist =>
        obtain ⟨hroots, hall⟩ := roots_of_lookup h hs hplan hlist
        obtain ⟨hnone, rfl, rfl⟩ := found_eq_notFound.1 (Prod.mk.inj hget).1
        refine ⟨rfl, rfl, ?_⟩
        rintro r hr rfl
        -- the row does not differ from its own key, so it is selected
        have hselects := (hall r hr).resolve_right (Key.not_differs_ofRow plan.table r)
        rw [List.head?_eq_none_iff.1 hnone, List.map_nil, eq_comm, List.map_eq_nil_iff,
          List.take_eq_nil_iff] at hroots
        have hempty := hroots.resolve_left (by decide)
        exact List.not_mem_nil (hempty ▸ RowStore.mem_selected.2 ⟨hr, hselects⟩)
      · next e _ hlist =>
        obtain ⟨⟨⟩, -⟩ := Prod.mk.inj hget
        exact absurd (failsWith_list rs s _ _ _ _ hlist) id

theorem run_get_plain (h : rs.Reachable) (hs : s.NamesApart) (hplan : rs.db.plan name d = .ok plan)
    (hplain : rs.Plain plan) (hexact : plan.table.ExactKeys) (hk : plan.table.Admits k)
    (hst : st.cancelled = false) : (get ⟨rs.db, rs.backend, s⟩ name k d).run.run st =
      (found plan.table k (((rs.stored plan.table).filter
        (fun r => Key.ofRow plan.table r = k)).head?.map (rs.tree s true plan)), st) := by
  obtain ⟨hfits, rfl, -⟩ := h.wellFormed.plan_eq_ok hplan
  have ht := hfits.mem_tables
  have hwf := h.wellFormed.tables _ ht
  cases hd : d.isEmpty with
  | true =>
      have hvalid : k.length = plan.table.primaryKey.length ∧ ∀ v ∈ k.values, v.Scalar :=
        ⟨hk.length_eq, hk.scalar hwf hexact⟩
      rw [run_get_empty h ht hd, hst, if_neg Bool.false_ne_true,
        (RowStore.read_single h ht).2 ⟨hvalid, rfl⟩, Except.ok_bind, RowStore.leaf_eq_tree hplan hd true]
  | false =>
      have hrows : s.rootRows rs.scan plan.table (lookup s plan.table k d) =
          .ok ((rs.stored plan.table).filter (fun r => Key.ofRow plan.table r ∈ [k])) := by
        refine RowStore.rootRows_of_decides h ht hs hexact (by decide) le_rfl fun ps hps r hr => ?_
        rw [List.mem_singleton]
        exact Key.decides_predicate hwf hexact hk (RowStore.holds_of_mem_stored h ht hr) (bound_bind hps)
      simp only [List.mem_singleton] at hrows
      have hlist := run_list_plain (q := lookup s plan.table k d) h hplan hst hplain hrows
      rw [run_get_descendants h ht hd, hlist]
      dsimp only
      rw [List.head?_map]
      rfl

/-- Looking up a row gives one whose values compare as equal with the parts of the key, as far as
there are any, and the answer that there is no row is right. Where values are equal only to
themselves, a full key of values of the columns' types gives the row with that key or none, and it
gives that row, with descendants too, where all ways of reading agree. -/
theorem get_row (h : rs.Reachable) (hs : s.NamesApart) (hplan : rs.db.plan name d = .ok plan) (k : Key)
    (st : ReadState) :
    (∀ tree st', (get ⟨rs.db, rs.backend, s⟩ name k d).run.run st = (.ok tree, st') →
      ∃ r ∈ rs.stored plan.table, tree.row = (if s.strategy = .nested then plan.emptied r else r) ∧
        (d.isEmpty = true → Key.ofRow plan.table r = k) ∧
        (d.isEmpty = false → (rs.selected plan.table k).head? = some r) ∧
        (plan.table.ExactKeys → plan.table.Admits k → Key.ofRow plan.table r = k)) ∧
    (∀ table l st', (get ⟨rs.db, rs.backend, s⟩ name k d).run.run st = (.error (.notFound table l), st') →
      table = name ∧ l = k ∧ ∀ r ∈ rs.stored plan.table, Key.ofRow plan.table r ≠ k) ∧
    (rs.Plain plan → plan.table.ExactKeys → plan.table.Admits k → st.cancelled = false →
      (∀ r ∈ rs.stored plan.table, Key.ofRow plan.table r = k →
        (get ⟨rs.db, rs.backend, s⟩ name k d).run.run st = (.ok (rs.tree s true plan r), st)) ∧
      ((∀ r ∈ rs.stored plan.table, Key.ofRow plan.table r ≠ k) →
        (get ⟨rs.db, rs.backend, s⟩ name k d).run.run st = (.error (.notFound name k), st))) := by
  obtain ⟨hfits, hname, -⟩ := h.wellFormed.plan_eq_ok hplan
  have ht := hfits.mem_tables
  refine ⟨fun tree st' hget => ?_, fun table l st' hget => absent_of_run_get h hs hplan hget,
    fun hplain hexact hk hst => ?_⟩
  · obtain ⟨r, hr, hrow, hempty, hfirst⟩ := row_of_run_get h hs hplan hget
    refine ⟨r, hr, hrow, hempty, hfirst, fun hexact hk => ?_⟩
    cases hd : d.isEmpty with
    | true => exact hempty hd
    | false =>
        have hselects := (RowStore.mem_selected.1 (List.mem_of_head? (hfirst hd))).2
        exact (Key.selects_iff (h.wellFormed.tables _ ht) hexact hk
          (RowStore.holds_of_mem_stored h ht hr)).1 hselects
  · rw [run_get_plain h hs hplan hplain hexact hk hst]
    refine ⟨fun r hr hkey => ?_, fun hnone => ?_⟩
    · rw [← hkey, RowStore.head?_filter_key h ht hr]
      rfl
    · rw [List.filter_eq_nil_iff.2 fun r hr => by simpa using hnone r hr, ← hname]
      rfl

end Transaction

theorem Transaction.get_row_sample :
    Sample.store.Reachable ∧ ReadSettings.NamesApart {} ∧ Sample.store.Plain Sample.plan ∧
      Sample.singers.ExactKeys ∧ Sample.singers.Admits ⟨[.int64 2]⟩ ∧
      (get ⟨Sample.store.db, Sample.store.backend, {}⟩ "Singer" ⟨[.int64 2]⟩ (.ofList ["Album"])).run.run
        ⟨false, []⟩ = (.ok (Sample.store.tree {} true Sample.plan Sample.ella), ⟨false, []⟩) := by
  have hplan : Sample.store.db.plan "Singer" (.ofList ["Album"]) = .ok Sample.plan := by cbv
  have hexact : Sample.singers.ExactKeys := by decide
  have hk : Sample.singers.Admits ⟨[.int64 2]⟩ := by decide
  refine ⟨Sample.store_reachable, ReadSettings.namesApart_default, Sample.store_plain, hexact, hk, ?_⟩
  exact ((get_row Sample.store_reachable ReadSettings.namesApart_default hplan _ _).2.2
    Sample.store_plain hexact hk rfl).1 Sample.ella Sample.ella_stored rfl

namespace Partial

def albums : Table where
  name := "Album"
  columns := [⟨"id", .scalar .int64, true, none, none, false⟩, ⟨"no", .scalar .int64, true, none, none, false⟩]
  primaryKey := [⟨"id", false⟩, ⟨"no", false⟩]

def tracks : Table where
  name := "Track"
  columns := [⟨"id", .scalar .int64, true, none, none, false⟩, ⟨"no", .scalar .int64, true, none, none, false⟩,
    ⟨"nr", .scalar .int64, true, none, none, false⟩]
  primaryKey := [⟨"id", false⟩, ⟨"no", false⟩, ⟨"nr", false⟩]
  interleave := some ⟨"Album", .cascade⟩

def db : Database := Database.empty.run [.createTable albums, .createTable tracks]

def album : Row := .ofFields [("id", .int64 1), ("no", .int64 2)]

def store : RowStore :=
  ((RowStore.ofDatabase db).apply [.insert "Album" album]).toOption.getD (.ofDatabase db)

theorem store_reachable : store.Reachable :=
  RowStore.reachable_getD ⟨[.createTable albums, .createTable tracks], rfl⟩ _

end Partial

/-- With only the first part of its key, an album is found if its tracks are asked for too, and
without them the key is refused. -/
theorem Transaction.get_row_partial : Partial.store.Reachable ∧
    (get ⟨Partial.store.db, Partial.store.backend, {}⟩ "Album" ⟨[.int64 1]⟩ (.ofList ["Track"])).run.run
      ⟨false, []⟩ = (.ok (.node "Album" Partial.album [("Track", [])]), ⟨false, []⟩) ∧
    Key.ofRow Partial.albums Partial.album ≠ ⟨[.int64 1]⟩ ∧
    (get ⟨Partial.store.db, Partial.store.backend, {}⟩ "Album" ⟨[.int64 1]⟩ .empty).run.run ⟨false, []⟩ =
      (.error (.keyLength "Album" ⟨[.int64 1]⟩), ⟨false, []⟩) :=
  ⟨Partial.store_reachable, by cbv, by decide, by cbv⟩

end RowForest
