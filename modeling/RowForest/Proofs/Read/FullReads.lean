import RowForest.Proofs.Read.Lookups

namespace RowForest

open Eval

namespace RowStore

variable {rs : RowStore} {s : ReadSettings} {t : Table} {q : Listing}

theorem read_all (h : rs.Reachable) (ht : t ∈ rs.db.tables) :
    rs.read t.name .all t.columnNames = .ok (rs.stored t) := by
  have hall : ∀ r ∈ rs.stored t, (KeySet.all.cut t).contains (Key.ofRow t r) = true := by
    intro r _
    simp [KeySet.all, KeySet.cut, KeySet.contains, Key.startsWith, Key.leading, Key.length, Key.equal,
      Value.equalItems]
  refine (read_whole h ht hall).2 ⟨by simp [KeySet.all, KeySet.Valid], ?_⟩
  rw [List.filter_true]

theorem decides_rootFilter (h : rs.Reachable) (ht : t ∈ rs.db.tables) (hq : q.predicate = none)
    {sc : Scope} {r : Row} (hr : r ∈ rs.stored t) :
    Decides (sc.push t.name r) (s.rootFilter t q) (s.shows q.showDeleted t r = true) := by
  have halways : Decides (sc.push t.name r) .always True := ⟨some true, rfl, by simp⟩
  rw [ReadSettings.rootFilter, ReadSettings.shows, ReadSettings.visible?, hq, Option.getD_none]
  cases q.showDeleted with
  | true => simpa using halways
  | false =>
      cases hdelete : t.softDelete? s.softDeleteColumn with
      | none => simpa using halways
      | some column =>
          have hcolumn : column.name ∈ r.columns :=
            (holds_of_mem_stored h ht hr).columns ▸ ReadSettings.softDelete_mem hdelete
          have hvisible := decides_bool (ReadSettings.eval_visible sc t.name hcolumn)
          simpa using decides_and (decides_paren halways) hvisible

/-- The rows of a listing of a whole table are those it shows, in the order they are stored in. -/
theorem rootRows_whole (h : rs.Reachable) (ht : t ∈ rs.db.tables) (hexact : t.ExactKeys)
    (hpredicate : q.predicate = none) (horder : q.order = []) (hpaged : q.isPaged = false)
    {ps : Params} (hps : s.statementParams q = .ok ps) :
    s.rootRows rs.scan t q = .ok (rs.visible s q.showDeleted t) := by
  have hkept : keepWhere (.ofParams ps) t.name (some (s.rootFilter t q)) (rs.stored t) =
      .ok (rs.visible s q.showDeleted t) := by
    rw [keepWhere_of_decides fun r hr => decides_rootFilter h ht hpredicate hr, visible]
    simp
  refine (rootRows_eq_ok h ht hpaged).2 ⟨ps, _, hps, hkept, ?_⟩
  have hcolumns : ∀ r ∈ rs.visible s q.showDeleted t, ∀ c ∈ t.keyColumns, c ∈ r.columns := by
    intro r hr
    rw [(columns_of_mem_stored h ht ((visible_sublist t).subset hr)).1]
    exact (h.wellFormed.tables t ht).key_columns
  have hordered := stored_ordered h ht (regular_of_exact h ht hexact)
  rw [horder, List.isEmpty_nil, if_pos rfl, sortRows_order hcolumns,
    List.mergeSort_of_pairwise (hordered.sublist (visible_sublist t))]

end RowStore

namespace Transaction

variable {rs : RowStore} {s : ReadSettings} {st : ReadState} {name : String} {d : TableNames}
  {showDeleted : Bool} {plan : Level}

theorem run_readTrees_all (h : rs.Reachable) (hplan : rs.db.plan name d = .ok plan)
    (hst : st.cancelled = false) :
    (readTrees ⟨rs.db, rs.backend, s⟩ name .all d showDeleted).run.run st =
      (.ok ((rs.visible s showDeleted plan.table).map (rs.tree s showDeleted plan)), st) := by
  have ht := (h.wellFormed.plan_eq_ok hplan).1.mem_tables
  have hread := rs.run_backend_read hst plan.table.name .all plan.table.columnNames
  rw [RowStore.read_all h ht] at hread
  rw [readTrees, ReadM.run_ofExcept_bind_ok hplan]
  refine (ReadM.run_bind_ok hread).trans ?_
  dsimp only
  rw [s.filter_shows, ← RowStore.visible]
  exact Levelwise.run_read h hplan (fun r hr => (RowStore.visible_sublist _).subset hr)
    (RowStore.visible_keys_nodup h ht) hst

theorem run_readTrees_cancelled (hplan : rs.db.plan name d = .ok plan) (hst : st.cancelled = true)
    (keys : KeySet) : (readTrees ⟨rs.db, rs.backend, s⟩ name keys d showDeleted).run.run st =
      (.error (.backend .cancelled), st) := by
  rw [readTrees, ReadM.run_ofExcept_bind_ok hplan]
  exact ReadM.run_bind_error (rs.run_backend_read_error hst _ keys _)

def whole (name : String) (d : TableNames) (showDeleted : Bool) : Listing :=
  { table := name, showDeleted, descendants := d, strategy := some .levelwise }

/-- If values of the key columns are equal only to themselves, a table is listed as it is scanned:
each row that is shown, with what is below it, in the strict order of the keys. -/
theorem readTrees_all (h : rs.Reachable) (s : ReadSettings) (name : String) (d : TableNames)
    (showDeleted : Bool) (hexact : ∀ t ∈ rs.db.tables, t.name = name → t.ExactKeys) (st : ReadState) :
    (readTrees ⟨rs.db, rs.backend, s⟩ name .all d showDeleted).run.run st =
        (list ⟨rs.db, rs.backend, s⟩ (whole name d showDeleted)).run.run st ∧
      ∀ plan, rs.db.plan name d = .ok plan → st.cancelled = false →
        (list ⟨rs.db, rs.backend, s⟩ (whole name d showDeleted)).run.run st =
          (.ok ((rs.visible s showDeleted plan.table).map (rs.tree s showDeleted plan)), st) ∧
        (rs.visible s showDeleted plan.table).Pairwise (fun a b => compareKeys (Key.order plan.table)
          (Key.ofRow plan.table a).values (Key.ofRow plan.table b).values = .lt) := by
  cases hplan : rs.db.plan name d with
  | error e =>
      refine ⟨?_, nofun⟩
      rw [readTrees, ReadM.run_ofExcept_bind_error hplan, run_list_of_plan_error hplan]
  | ok plan =>
      obtain ⟨hfits, hname, -⟩ := h.wellFormed.plan_eq_ok hplan
      have ht := hfits.mem_tables
      have hkeys := hexact plan.table ht hname
      have hps : s.statementParams (whole name d showDeleted) = .ok .empty := rfl
      have hlist (hst : st.cancelled = false) := run_list_levelwise (q := whole name d showDeleted) h hplan
        hst rfl (RowStore.rootRows_whole h ht hkeys rfl rfl rfl hps)
      refine ⟨?_, ?_⟩
      · cases hst : st.cancelled with
        | true => rw [run_readTrees_cancelled hplan hst, run_list_cancelled_of_params hst hplan hps]
        | false => rw [run_readTrees_all h hplan hst, hlist hst, whole]
      · rintro _ ⟨⟩ hst
        have hascending := RowStore.stored_ascending h ht (RowStore.regular_of_exact h ht hkeys)
        exact ⟨hlist hst, hascending.sublist (RowStore.visible_sublist plan.table)⟩

end Transaction

namespace Concert

def concerts : Table where
  name := "Concert"
  columns := [⟨"hall", .scalar .string, true, none, none, false⟩, ⟨"year", .scalar .int64, false, none, none, false⟩,
    ⟨"delete_time", .scalar .timestamp, false, none, none, false⟩]
  primaryKey := [⟨"hall", false⟩, ⟨"year", true⟩]

def songs : Table where
  name := "Song"
  columns := [⟨"hall", .scalar .string, true, none, none, false⟩, ⟨"year", .scalar .int64, false, none, none, false⟩,
    ⟨"no", .scalar .int64, true, none, none, false⟩]
  primaryKey := [⟨"hall", false⟩, ⟨"year", true⟩, ⟨"no", false⟩]
  interleave := some ⟨"Concert", .cascade⟩

def db : Database := Database.empty.run [.createTable concerts, .createTable songs]

def concert (year : Value) : Row :=
  .ofFields [("hall", .string "Opera"), ("year", year), ("delete_time", .null)]

def song (year : Value) : Row := .ofFields [("hall", .string "Opera"), ("year", year), ("no", .int64 1)]

def writes : List Mutation := [
  .insert "Concert" (concert .null),
  .insert "Concert" (concert (.int64 1958)),
  .insert "Concert" (concert (.int64 1961)),
  .insert "Concert" (.ofFields [("hall", .string "Opera"), ("year", .int64 1960),
    ("delete_time", .timestamp { seconds := -290000000, nanos := 0 })]),
  .insert "Song" (song .null),
  .insert "Song" (song (.int64 1958))]

def store : RowStore := ((RowStore.ofDatabase db).apply writes).toOption.getD (.ofDatabase db)

theorem store_reachable : store.Reachable :=
  RowStore.reachable_getD ⟨[.createTable concerts, .createTable songs], rfl⟩ _

def trees : List RowTree := [
  .node "Concert" (concert (.int64 1961)) [("Song", [])],
  .node "Concert" (concert (.int64 1958)) [("Song", [.leaf "Song" (song (.int64 1958))])],
  .node "Concert" (concert .null) [("Song", [.leaf "Song" (song .null)])]]

end Concert

theorem Transaction.readTrees_all_sample :
    Concert.store.Reachable ∧
      (∀ t ∈ Concert.store.db.tables, t.name = "Concert" → t.ExactKeys) ∧
      (readTrees ⟨Concert.store.db, Concert.store.backend, {}⟩ "Concert" .all (.ofList ["Song"])
        false).run.run ⟨false, []⟩ = (.ok Concert.trees, ⟨false, []⟩) ∧
      (list ⟨Concert.store.db, Concert.store.backend, {}⟩
        (whole "Concert" (.ofList ["Song"]) false)).run.run ⟨false, []⟩ =
          (.ok Concert.trees, ⟨false, []⟩) := by
  have htables : Concert.store.db.tables = [Concert.concerts, Concert.songs] := by cbv
  have hexact : ∀ t ∈ Concert.store.db.tables, t.name = "Concert" → t.ExactKeys := by
    rw [htables]
    decide
  have hread : (readTrees ⟨Concert.store.db, Concert.store.backend, {}⟩ "Concert" .all (.ofList ["Song"])
      false).run.run ⟨false, []⟩ = (.ok Concert.trees, ⟨false, []⟩) := by cbv
  refine ⟨Concert.store_reachable, hexact, hread, ?_⟩
  rw [← (readTrees_all Concert.store_reachable {} "Concert" _ false hexact ⟨false, []⟩).1, hread]

end RowForest
