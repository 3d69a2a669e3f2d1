import RowForest.Error
import RowForest.Proofs.Schema.WellFormed

namespace RowForest

/-- Every parent stands before its children, and their keys begin with its key. -/
def Layered (ts : List Table) : Prop :=
  ∀ (i : Nat) (t : Table), ts[i]? = some t → ∀ p ∈ t.parentName?, ∃ j < i, ∃ parent,
    ts[j]? = some parent ∧ parent.name = p ∧ parent.keyColumns <+: t.keyColumns

theorem Layered.append {ts : List Table} {t : Table} (h : Layered ts)
    (ht : ∀ p ∈ t.parentName?, ∃ parent ∈ ts, parent.name = p ∧ parent.keyColumns <+: t.keyColumns) :
    Layered (ts ++ [t]) := by
  intro i u hu p hp
  have lift {j : Nat} {v : Table} (hv : ts[j]? = some v) : (ts ++ [t])[j]? = some v := by
    rw [List.getElem?_append_left (List.getElem?_eq_some_iff.1 hv).1]
    exact hv
  by_cases hi : i < ts.length
  · rw [List.getElem?_append_left hi] at hu
    obtain ⟨j, hj, parent, hparent, hname, hkey⟩ := h i u hu p hp
    exact ⟨j, hj, parent, lift hparent, hname, hkey⟩
  · have hlt := (List.getElem?_eq_some_iff.1 hu).1
    have hi' : i = ts.length := by simp at hlt; omega
    subst hi'
    rw [List.getElem?_concat_length] at hu
    cases hu
    obtain ⟨parent, hmem, hname, hkey⟩ := ht p hp
    obtain ⟨j, hj⟩ := List.getElem?_of_mem hmem
    exact ⟨j, (List.getElem?_eq_some_iff.1 hj).1, parent, lift hj, hname, hkey⟩

theorem keyColumns_congr {t u : Table} (h : u.primaryKey = t.primaryKey) :
    u.keyColumns = t.keyColumns := by
  simp [Table.keyColumns, h]

theorem Layered.set {ts : List Table} {i : Nat} {t u : Table} {a : Alteration} (h : Layered ts)
    (ht : ts[i]? = some t) (hu : Table.Keeps a t u) : Layered (ts.set i u) := by
  -- what any position holds afterwards is as it was in all that the property speaks of
  have back {j : Nat} {v : Table} (hv : (ts.set i u)[j]? = some v) : ∃ w, ts[j]? = some w ∧
      v.name = w.name ∧ v.keyColumns = w.keyColumns ∧ v.parentName? = w.parentName? := by
    by_cases hj : i = j
    · subst hj
      rw [List.getElem?_set_self (List.getElem?_eq_some_iff.1 ht).1] at hv
      cases hv
      exact ⟨t, ht, hu.name, keyColumns_congr hu.primaryKey, hu.parentName⟩
    · rw [List.getElem?_set_ne hj] at hv
      exact ⟨v, hv, rfl, rfl, rfl⟩
  have forth {j : Nat} {w : Table} (hw : ts[j]? = some w) : ∃ v, (ts.set i u)[j]? = some v ∧
      v.name = w.name ∧ v.keyColumns = w.keyColumns := by
    by_cases hj : i = j
    · subst hj
      rw [ht] at hw
      cases hw
      exact ⟨u, List.getElem?_set_self (List.getElem?_eq_some_iff.1 ht).1, hu.name,
        keyColumns_congr hu.primaryKey⟩
    · exact ⟨w, by rw [List.getElem?_set_ne hj]; exact hw, rfl, rfl⟩
  intro k v hv p hp
  obtain ⟨w, hw, -, hkey, hparent⟩ := back hv
  obtain ⟨j, hj, parent, hpar, hname, hpre⟩ := h k w hw p (hparent ▸ hp)
  obtain ⟨parent', hpar', hname', hkey'⟩ := forth hpar
  exact ⟨j, hj, parent', hpar', hname'.trans hname, by rw [hkey, hkey']; exact hpre⟩

theorem Layered.eraseIdx {ts : List Table} {i : Nat} {t : Table} (h : Layered ts)
    (ht : ts[i]? = some t) (hchildless : ∀ u ∈ ts, u.parentName? ≠ some t.name) :
    Layered (ts.eraseIdx i) := by
  intro k u hu p hp
  rw [List.getElem?_eraseIdx] at hu
  have hmem : u ∈ ts := by split at hu <;> exact List.mem_of_getElem? hu
  -- the parent is not the erased table, so it is still there, perhaps one place earlier
  have settle {j : Nat} {parent : Table} (hpar : ts[j]? = some parent) (hname : parent.name = p) :
      j ≠ i := by
    rintro rfl
    rw [ht] at hpar
    cases hpar
    exact hchildless u hmem (by rw [← hname] at hp; exact hp)
  split at hu
  · next hki =>
    obtain ⟨j, hj, parent, hpar, hname, hpre⟩ := h k u hu p hp
    exact ⟨j, hj, parent, by rw [List.getElem?_eraseIdx, if_pos (by omega)]; exact hpar, hname, hpre⟩
  · next hki =>
    obtain ⟨j, hj, parent, hpar, hname, hpre⟩ := h (k + 1) u hu p hp
    have hji := settle hpar hname
    by_cases hlt : j < i
    · exact ⟨j, by omega, parent, by rw [List.getElem?_eraseIdx, if_pos hlt]; exact hpar, hname, hpre⟩
    · refine ⟨j - 1, by omega, parent, ?_, hname, hpre⟩
      rw [List.getElem?_eraseIdx, if_neg (by omega), Nat.sub_add_cancel (by omega)]
      exact hpar

namespace Database

/-- What every statement keeps true of a schema. -/
structure WellFormed (db : Database) : Prop where
  tables_nodup : (db.tables.map Table.name).Nodup
  indexes_nodup : (db.indexes.map Index.name).Nodup
  tables : ∀ t ∈ db.tables, t.WellFormed
  indexes : ∀ i ∈ db.indexes, ∃ t ∈ db.tables, t.name = i.table ∧
    ∀ c ∈ i.columns.map KeyPart.column ++ i.storing, c ∈ t.columnNames
  layered : Layered db.tables

theorem empty_wellFormed : empty.WellFormed where
  tables_nodup := .nil
  indexes_nodup := .nil
  tables := by simp [empty]
  indexes := by simp [empty]
  layered := by simp [Layered, empty]

theorem mem_of_table? {db : Database} {name : String} {t : Table} (h : db.table? name = some t) :
    t ∈ db.tables ∧ t.name = name :=
  ⟨List.mem_of_find?_eq_some h, by simpa using List.find?_some h⟩

theorem WellFormed.eq_of_name {db : Database} (h : db.WellFormed) {t u : Table} (ht : t ∈ db.tables)
    (hu : u ∈ db.tables) (hname : t.name = u.name) : t = u :=
  List.inj_on_of_nodup_map h.tables_nodup ht hu hname

theorem WellFormed.table?_eq_some {db : Database} (h : db.WellFormed) {name : String} {t : Table} :
    db.table? name = some t ↔ t ∈ db.tables ∧ t.name = name := by
  refine ⟨mem_of_table?, ?_⟩
  rintro ⟨hmem, rfl⟩
  cases hfind : db.table? t.name with
  | none => exact absurd (List.find?_eq_none.1 hfind t hmem) (by simp)
  | some u =>
      obtain ⟨hu, hname⟩ := mem_of_table? hfind
      rw [h.eq_of_name hu hmem hname]

theorem table?_isSome_iff {db : Database} {name : String} :
    (db.table? name).isSome = true ↔ name ∈ db.tables.map Table.name := by
  simp [table?, List.find?_isSome]

theorem getTable_eq_ok {db : Database} {name : String} {t : Table} :
    db.getTable name = .ok t ↔ db.table? name = some t := by
  unfold getTable
  cases db.table? name <;> simp

theorem WellFormed.getTable_of_mem {db : Database} (h : db.WellFormed) {t : Table}
    (ht : t ∈ db.tables) : db.getTable t.name = .ok t :=
  getTable_eq_ok.2 (h.table?_eq_some.2 ⟨ht, rfl⟩)

theorem checkInterleave_eq_ok {db : Database} {t : Table} (h : db.checkInterleave t = .ok ()) :
    ∀ p ∈ t.parentName?, ∃ parent ∈ db.tables, parent.name = p ∧
      parent.keyColumns <+: t.keyColumns := by
  intro p hp
  unfold checkInterleave at h
  rw [Option.mem_def.1 hp] at h
  simp only at h
  split at h
  · cases h
  · next parent hparent =>
    split at h
    · next hkey =>
      obtain ⟨hmem, hname⟩ := mem_of_table? hparent
      exact ⟨parent, hmem, hname, List.isPrefixOf_iff_prefix.1 hkey⟩
    · cases h

theorem createTable_eq_ok {db db' : Database} {t : Table} (h : db.createTable t = .ok db') :
    t.name ∉ db.tables.map Table.name ∧ t.WellFormed ∧
      (∀ p ∈ t.parentName?, ∃ parent ∈ db.tables, parent.name = p ∧
        parent.keyColumns <+: t.keyColumns) ∧
      (∀ c ∈ t.constraints, db.checkReference t.name c = .ok ()) ∧
      db' = { db with tables := db.tables ++ [t] } := by
  unfold createTable at h
  split at h
  · cases h
  · next hfresh =>
    simp only [Except.pure_ok, Except.unit_bind_eq_ok] at h
    obtain ⟨hcheck, hparent, hrefs, hdb⟩ := h
    exact ⟨fun hm => hfresh (table?_isSome_iff.2 hm), (Table.check_eq_ok t).1 hcheck,
      checkInterleave_eq_ok hparent, Except.forM_eq_ok.1 hrefs, (Except.ok.inj hdb).symm⟩

theorem alterTable_eq_ok {db db' : Database} {name : String} {a : Alteration}
    (h : db.alterTable name a = .ok db') :
    ∃ i t u, db.tables[i]? = some t ∧ t.name = name ∧ db.checkAlteration name a = .ok () ∧
      t.change a = .ok u ∧ u.WellFormed ∧ db' = { db with tables := db.tables.set i u } := by
  unfold alterTable at h
  split at h
  · next i t hi ht =>
    rw [Except.unit_bind_eq_ok, Except.bind_eq_ok] at h
    obtain ⟨hcheck, u, hu, hdb⟩ := h
    obtain ⟨hchange, hwf⟩ := Table.alter_eq_ok.1 hu
    obtain ⟨hlt, hname, hfirst⟩ := List.findIdx?_eq_some_iff_getElem.1 hi
    have hget : db.tables[i]? = some t := by
      rw [← ht, table?, List.getElem?_eq_getElem hlt, eq_comm, List.find?_eq_some_iff_getElem]
      exact ⟨hname, i, hlt, rfl, by simpa using hfirst⟩
    exact ⟨i, t, u, hget, (mem_of_table? ht).2, hcheck, hchange, hwf, (Except.ok.inj hdb).symm⟩
  · cases h

theorem dropTable_eq_ok {db db' : Database} {name : String} (h : db.dropTable name = .ok db') :
    ∃ i t, db.tables[i]? = some t ∧ t.name = name ∧ db.children name = [] ∧
      db' = ⟨db.tables.eraseIdx i, db.indexes.filter (·.table != name)⟩ := by
  unfold dropTable at h
  split at h
  · cases h
  · next i hi =>
    obtain ⟨hlt, hname, -⟩ := List.findIdx?_eq_some_iff_getElem.1 hi
    split at h
    · next hchildren =>
      exact ⟨i, db.tables[i], List.getElem?_eq_getElem hlt, by simpa using hname, hchildren,
        (Except.ok.inj h).symm⟩
    · cases h

theorem createIndex_eq_ok {db db' : Database} {index : Index} (h : db.createIndex index = .ok db') :
    index.name ∉ db.indexes.map Index.name ∧
      (∃ t, db.table? index.table = some t ∧
        ∀ c ∈ index.columns.map KeyPart.column ++ index.storing, c ∈ t.columnNames) ∧
      (∀ p ∈ index.interleave, (db.table? p).isSome = true) ∧
      db' = { db with indexes := db.indexes ++ [index] } := by
  unfold createIndex at h
  by_cases hfresh : (db.index? index.name).isSome = true
  · simp [hfresh] at h
  · cases ht : db.table? index.table with
    | none => simp [hfresh, ht] at h
    | some t =>
        simp only [hfresh, ht, Bool.false_eq_true, if_false, Except.unit_bind_eq_ok,
          Table.checkNamed_eq_ok] at h
        obtain ⟨hcolumns, h⟩ := h
        cases hmissing : index.interleave.filter (fun p => (db.table? p).isNone) with
        | some p => simp [hmissing] at h
        | none =>
            rw [hmissing] at h
            refine ⟨?_, ⟨t, rfl, hcolumns⟩, ?_, (Except.ok.inj h).symm⟩
            · simpa [index?, List.find?_isSome] using hfresh
            · intro p hp
              rw [Option.mem_def.1 hp] at hmissing
              simpa [Option.filter, Option.isSome_iff_ne_none] using hmissing

theorem dropIndex_eq_ok {db db' : Database} {name : String} (h : db.dropIndex name = .ok db') :
    ∃ i, db' = { db with indexes := db.indexes.eraseIdx i } := by
  unfold dropIndex at h
  split at h
  · next i hi => exact ⟨i, (Except.ok.inj h).symm⟩
  · cases h

theorem WellFormed.createTable {db db' : Database} {t : Table} (hdb : db.WellFormed)
    (h : db.createTable t = .ok db') : db'.WellFormed := by
  obtain ⟨hfresh, ht, hparent, -, rfl⟩ := createTable_eq_ok h
  refine ⟨?_, hdb.indexes_nodup, ?_, ?_, hdb.layered.append hparent⟩
  · rw [List.map_append, List.nodup_append_comm]
    exact List.nodup_cons.2 ⟨hfresh, hdb.tables_nodup⟩
  · simp only [List.mem_append, List.mem_singleton]
    rintro u (hu | rfl)
    · exact hdb.tables u hu
    · exact ht
  · intro i hi
    obtain ⟨u, hu, hname, hcolumns⟩ := hdb.indexes i hi
    exact ⟨u, List.mem_append_left _ hu, hname, hcolumns⟩

theorem not_mentions_of_checkAlteration {db : Database} {name : String} {a : Alteration} {i : Index}
    {c : String} (h : db.checkAlteration name a = .ok ()) (hi : i ∈ db.indexes)
    (htable : i.table = name) (hc : c ∈ i.columns.map KeyPart.column ++ i.storing) :
    a ≠ .dropColumn c := by
  rintro rfl
  simp only [checkAlteration] at h
  split at h
  · cases h
  · next hnone =>
    have hmem : i ∈ db.indexesOf name := List.mem_filter.2 ⟨hi, by simp [htable]⟩
    have hnot := List.find?_eq_none.1 hnone i hmem
    simp only [Index.mentions, Bool.or_eq_true, List.any_eq_true, not_or] at hnot
    rcases List.mem_append.1 hc with hkey | hstored
    · obtain ⟨part, hpart, rfl⟩ := List.mem_map.1 hkey
      exact hnot.1 ⟨part, hpart, by simp⟩
    · exact hnot.2 ⟨c, hstored, by simp⟩

theorem names_set {ts : List Table} {k : Nat} {t u : Table} (ht : ts[k]? = some t)
    (hname : u.name = t.name) : (ts.set k u).map Table.name = ts.map Table.name := by
  have hself : (ts.map Table.name)[k]? = some t.name := by simp [ht]
  obtain ⟨hk, hget⟩ := List.getElem?_eq_some_iff.1 hself
  rw [List.map_set, hname, ← hget, List.set_getElem_self]

theorem WellFormed.alterTable {db db' : Database} {name : String} {a : Alteration}
    (hdb : db.WellFormed) (h : db.alterTable name a = .ok db') : db'.WellFormed := by
  obtain ⟨k, t, u, ht, rfl, hcheck, hchange, hu, rfl⟩ := alterTable_eq_ok h
  have hkeeps := Table.change_keeps hchange
  have hlt := (List.getElem?_eq_some_iff.1 ht).1
  refine ⟨?_, hdb.indexes_nodup, ?_, ?_, hdb.layered.set ht hkeeps⟩
  · rw [names_set ht hkeeps.name]
    exact hdb.tables_nodup
  · intro v hv
    rcases List.mem_or_eq_of_mem_set hv with hv | rfl
    · exact hdb.tables v hv
    · exact hu
  · intro i hi
    obtain ⟨v, hv, hname, hcolumns⟩ := hdb.indexes i hi
    by_cases hvt : v = t
    · subst hvt
      refine ⟨u, List.mem_set hlt u, hkeeps.name.trans hname, fun c hc => ?_⟩
      exact hkeeps.columns c (hcolumns c hc)
        (not_mentions_of_checkAlteration hcheck hi hname.symm hc)
    · obtain ⟨j, hj⟩ := List.getElem?_of_mem hv
      refine ⟨v, List.mem_of_getElem? (i := j) ?_, hname, hcolumns⟩
      rw [List.getElem?_set_ne]
      · exact hj
      · rintro rfl
        rw [ht] at hj
        exact hvt (Option.some.inj hj).symm

theorem WellFormed.dropTable {db db' : Database} {name : String} (hdb : db.WellFormed)
    (h : db.dropTable name = .ok db') : db'.WellFormed := by
  obtain ⟨k, t, ht, rfl, hchildren, rfl⟩ := dropTable_eq_ok h
  have hchildless : ∀ u ∈ db.tables, u.parentName? ≠ some t.name := by
    intro u hu hparent
    have hmem : u ∈ db.children t.name := List.mem_filter.2 ⟨hu, by simp [hparent]⟩
    simp [hchildren] at hmem
  have hsub := List.eraseIdx_sublist db.tables k
  refine ⟨hdb.tables_nodup.sublist (hsub.map _),
    hdb.indexes_nodup.sublist (List.filter_sublist.map _), fun u hu => hdb.tables u (hsub.subset hu),
    ?_, hdb.layered.eraseIdx ht hchildless⟩
  intro i hi
  obtain ⟨hi, hother⟩ := List.mem_filter.1 hi
  obtain ⟨u, hu, hname, hcolumns⟩ := hdb.indexes i hi
  refine ⟨u, ?_, hname, hcolumns⟩
  obtain ⟨j, hj⟩ := List.getElem?_of_mem hu
  refine List.mem_eraseIdx_iff_getElem?.2 ⟨j, ?_, hj⟩
  rintro rfl
  rw [ht] at hj
  cases hj
  simp [hname] at hother

theorem WellFormed.createIndex {db db' : Database} {index : Index} (hdb : db.WellFormed)
    (h : db.createIndex index = .ok db') : db'.WellFormed := by
  obtain ⟨hfresh, ⟨t, ht, hcolumns⟩, -, rfl⟩ := createIndex_eq_ok h
  refine ⟨hdb.tables_nodup, ?_, hdb.tables, ?_, hdb.layered⟩
  · rw [List.map_append, List.nodup_append_comm]
    exact List.nodup_cons.2 ⟨hfresh, hdb.indexes_nodup⟩
  · intro i hi
    rcases List.mem_append.1 hi with hi | hi
    · exact hdb.indexes i hi
    · obtain ⟨hmem, hname⟩ := mem_of_table? ht
      rw [List.mem_singleton.1 hi]
      exact ⟨t, hmem, hname, hcolumns⟩

theorem WellFormed.dropIndex {db db' : Database} {name : String} (hdb : db.WellFormed)
    (h : db.dropIndex name = .ok db') : db'.WellFormed := by
  obtain ⟨k, rfl⟩ := dropIndex_eq_ok h
  have hsub := List.eraseIdx_sublist db.indexes k
  exact ⟨hdb.tables_nodup, hdb.indexes_nodup.sublist (hsub.map _), hdb.tables,
    fun i hi => hdb.indexes i (hsub.subset hi), hdb.layered⟩

theorem WellFormed.define {db db' : Database} {d : Definition} (hdb : db.WellFormed)
    (h : db.define d = .ok db') : db'.WellFormed := by
  have happly : db.apply d = .ok db' := Except.mapError_eq_ok.1 h
  cases d with
  | createTable t => exact hdb.createTable happly
  | alterTable name a => exact hdb.alterTable happly
  | dropTable name => exact hdb.dropTable happly
  | createIndex index => exact hdb.createIndex happly
  | dropIndex name => exact hdb.dropIndex happly

/-- The schema after a run of statements. A refused one leaves it as it is. -/
def run (db : Database) : List Definition → Database
  | [] => db
  | d :: ds =>
    match db.define d with
    | .ok db' => run db' ds
    | .error _ => run db ds

theorem WellFormed.run {db : Database} (hdb : db.WellFormed) (ds : List Definition) :
    (db.run ds).WellFormed := by
  induction ds generalizing db with
  | nil => exact hdb
  | cons d ds ih =>
      cases h : db.define d with
      | ok db' => simpa only [Database.run, h] using ih (hdb.define h)
      | error e => simpa only [Database.run, h] using ih hdb

end Database

end RowForest
