import RowForest.Proofs.Store.Selection

namespace RowForest

/-- The writes of a single row, by what they ask of the row stored under its key. -/
inductive RowWrite
  | insert
  | update
  | upsert

namespace RowWrite

def mutation : RowWrite → String → Row → Mutation
  | insert => .insert
  | update => .update
  | upsert => .upsert

def Allows : RowWrite → Option Row → Prop
  | insert, stored => stored = none
  | update, stored => stored ≠ none
  | upsert, _ => True

@[simp] theorem table_mutation (w : RowWrite) (table : String) (r : Row) :
    (w.mutation table r).table = table := by
  cases w <;> rfl

end RowWrite

namespace Table

variable {t : Table} {r s : Row}

theorem storedRow_eq_project (ht : t.WellFormed) : t.storedRow r = .ok s ↔
    (∀ c ∈ r.columns, c ∈ t.columnNames) ∧ Takes t.columns r ∧ s = r.project t.columnNames := by
  rw [storedRow_eq_ok ht]
  refine and_congr_right fun _ => and_congr_right fun _ => ?_
  rw [← Row.fields_project ht.columns_nodup]
  exact ⟨Row.ext, congrArg Row.fields⟩

theorem exists_storedKey_ofRow :
    (∃ k, t.storedKey (Key.ofRow t r) = .ok k) ↔ ∀ v ∈ (Key.ofRow t r).values, v.Scalar := by
  have hlength : (Key.ofRow t r).values.length ≤ t.primaryKey.length := by
    simp [Key.ofRow, keyColumns]
  rw [exists_storedKey, List.take_of_length_le hlength]

end Table

namespace Staging

variable {s s' : Staging} {t : Table} {r : Row} {old : Option Row}

theorem applyOne_iff {db : Database} (hdb : db.WellFormed) (ht : t ∈ db.tables)
    (hold : s.Shows t r old) (w : RowWrite) : applyOne db s (w.mutation t.name r) = .ok s' ↔
    ∃ k, t.storedKey (Key.ofRow t r) = .ok k ∧ w.Allows old ∧
      ∃ row, t.storedRow (r.onto old) = .ok row ∧ s.putRow k row = .ok s' := by
  rw [applyOne, w.table_mutation, hdb.getTable_of_mem ht, Except.ok_bind]
  cases w with
  | insert => exact insertRow_iff (hdb.tables t ht) hold
  | update => exact (mergeRow_iff hold).trans (by simp [RowWrite.Allows])
  | upsert => exact (mergeRow_iff hold).trans (by simp [RowWrite.Allows])

end Staging

namespace RowStore

variable {rs rs' : RowStore} {t u : Table} {k : Key} {r : Row}

/-- The row of a table under a key. So a state is a finite map from tables and keys to rows. -/
def row? (rs : RowStore) (t : Table) (k : Key) : Option Row :=
  (rs.stored t).find? (fun r => Key.ofRow t r = k)

theorem row?_eq_some (h : rs.Reachable) (ht : t ∈ rs.db.tables) :
    rs.row? t k = some r ↔ r ∈ rs.stored t ∧ Key.ofRow t r = k := by
  constructor
  · intro hfind
    exact ⟨List.mem_of_find?_eq_some hfind, by simpa using List.find?_some hfind⟩
  · rintro ⟨hr, rfl⟩
    have hsome : (rs.row? t (Key.ofRow t r)).isSome = true := List.find?_isSome.2 ⟨r, hr, by simp⟩
    obtain ⟨s, hfind⟩ := Option.isSome_iff_exists.1 hsome
    have hkey : Key.ofRow t s = Key.ofRow t r := by simpa using List.find?_some hfind
    have hsame := List.inj_on_of_nodup_map (stored_keys_nodup h ht) (List.mem_of_find?_eq_some hfind) hr hkey
    rw [hfind, hsame]

theorem mem_entries_of_row?_eq (h : rs.Reachable) (h' : rs'.Reachable) (hdb : rs.db = rs'.db)
    (hrows : ∀ t ∈ rs.db.tables, ∀ k, rs.row? t k = rs'.row? t k) {e : Bytes × Bytes}
    (he : e ∈ rs.store.entries) : e ∈ rs'.store.entries := by
  obtain ⟨t, ht, r, hholds, hstore, hkey⟩ := h.canonical e he
  have hrow : rs.row? t (Key.ofRow t r) = some r :=
    (row?_eq_some h ht).2 ⟨(mem_stored h ht).2 ⟨e, he, hholds, hstore, hkey⟩, rfl⟩
  rw [hrows t ht, row?_eq_some h' (hdb ▸ ht), mem_stored h' (hdb ▸ ht)] at hrow
  obtain ⟨⟨f, hf, -, hstore', hkey'⟩, -⟩ := hrow
  have hsame : f = e := Prod.ext (Except.ok.inj (hkey'.symm.trans hkey))
    (Except.ok.inj (hstore'.symm.trans hstore))
  exact hsame ▸ hf

/-- The map is all there is to a state. -/
theorem eq_of_row?_eq (h : rs.Reachable) (h' : rs'.Reachable) (hdb : rs.db = rs'.db)
    (hrows : ∀ t ∈ rs.db.tables, ∀ k, rs.row? t k = rs'.row? t k) : rs = rs' := by
  have hback : ∀ t ∈ rs'.db.tables, ∀ k, rs'.row? t k = rs.row? t k :=
    fun t ht k => (hrows t (hdb ▸ ht) k).symm
  have hstore : rs.store = rs'.store := SortedMap.ext_mem fun _ =>
    ⟨mem_entries_of_row?_eq h h' hdb hrows, mem_entries_of_row?_eq h' h hdb.symm hback⟩
  cases rs
  cases rs'
  cases hdb
  cases hstore
  rfl

theorem shows_row? (h : rs.Reachable) (ht : t ∈ rs.db.tables) (r : Row) :
    (Staging.ofStore rs.store).Shows t r (rs.row? t (Key.ofRow t r)) := by
  intro k hk
  rw [← Staging.find?_commit, Staging.commit_ofStore]
  cases hfind : rs.store.find? k with
  | some v =>
      have he := SortedMap.find?_eq_some.1 hfind
      obtain ⟨u, hu, stored, hholds, hstore, hkey⟩ := h.canonical _ he
      obtain ⟨rfl, hsame⟩ := h.wellFormed.storedKey_injective hu ht hkey hk
      have hrow := (row?_eq_some h ht).2 ⟨(mem_stored h ht).2 ⟨_, he, hholds, hstore, hkey⟩, hsame⟩
      rw [hrow, Option.map_some, Option.map_some, decodeRow_of_store hholds hstore]
  | none =>
      cases hrow : rs.row? t (Key.ofRow t r) with
      | none => rfl
      | some stored =>
          obtain ⟨hstored, hsame⟩ := (row?_eq_some h ht).1 hrow
          obtain ⟨e, he, -, -, hkey⟩ := (mem_stored h ht).1 hstored
          rw [hsame, hk] at hkey
          cases hkey
          exact absurd he (SortedMap.find?_eq_none.1 hfind e.2)

section Put

variable {l v : Bytes} (h : rs.Reachable) (h' : rs'.Reachable) (hdb : rs'.db = rs.db)
  (hput : rs'.store = rs.store.insert l v) (ht : t ∈ rs.db.tables) (hholds : t.Holds r)
  (hstore : RowFormat.store r = .ok v) (hkey : t.storedKey (Key.ofRow t r) = .ok l)
include h h' hdb hput ht hholds hstore hkey

theorem mem_stored_put (hu : u ∈ rs.db.tables) {s : Row} : s ∈ rs'.stored u ↔
    u = t ∧ s = r ∨ ¬(u = t ∧ Key.ofRow u s = Key.ofRow t r) ∧ s ∈ rs.stored u := by
  rw [mem_stored h' (hdb.symm ▸ hu), mem_stored h hu, hput]
  constructor
  · rintro ⟨⟨m, w⟩, he, hs, hsstore, hskey⟩
    rcases SortedMap.mem_insert.1 he with ⟨rfl, rfl⟩ | ⟨hne, he⟩
    -- No other table has a row under these bytes, and they read as only one row of this one.
    · obtain ⟨rfl, -⟩ := h.wellFormed.storedKey_injective hu ht hskey hkey
      have hread := decodeRow_of_store hs hsstore
      rw [decodeRow_of_store hholds hstore] at hread
      exact .inl ⟨rfl, (Except.ok.inj hread).symm⟩
    · refine .inr ⟨?_, _, he, hs, hsstore, hskey⟩
      rintro ⟨rfl, hsame⟩
      rw [hsame, hkey] at hskey
      exact hne (Except.ok.inj hskey).symm
  · rintro (⟨rfl, rfl⟩ | ⟨hother, ⟨m, w⟩, he, hs, hsstore, hskey⟩)
    · exact ⟨(l, v), SortedMap.mem_insert.2 (.inl ⟨rfl, rfl⟩), hholds, hstore, hkey⟩
    · refine ⟨(m, w), SortedMap.mem_insert.2 (.inr ⟨?_, he⟩), hs, hsstore, hskey⟩
      rintro rfl
      exact hother (h.wellFormed.storedKey_injective hu ht hskey hkey)

theorem row?_put (hu : u ∈ rs.db.tables) (k : Key) :
    rs'.row? u k = if u = t ∧ k = Key.ofRow t r then some r else rs.row? u k := by
  apply Option.ext
  intro s
  rw [row?_eq_some h' (hdb.symm ▸ hu), mem_stored_put h h' hdb hput ht hholds hstore hkey hu]
  by_cases hplace : u = t ∧ k = Key.ofRow t r
  · obtain ⟨rfl, rfl⟩ := hplace
    rw [if_pos ⟨rfl, rfl⟩, Option.some.injEq]
    constructor
    · rintro ⟨⟨-, rfl⟩ | ⟨hother, -⟩, hsame⟩
      · rfl
      · exact absurd ⟨rfl, hsame⟩ hother
    · rintro rfl
      exact ⟨.inl ⟨rfl, rfl⟩, rfl⟩
  · rw [if_neg hplace, row?_eq_some h hu]
    constructor
    · rintro ⟨⟨rfl, rfl⟩ | ⟨-, hs⟩, rfl⟩
      · exact absurd ⟨rfl, rfl⟩ hplace
      · exact ⟨hs, rfl⟩
    · rintro ⟨hs, rfl⟩
      exact ⟨.inr ⟨hplace, hs⟩, rfl⟩

end Put

/-- The value a column has after a row is written: the one the row gives it, else the one of the row
stored under the same key, else null. -/
def written (rs : RowStore) (t : Table) (r : Row) (column : String) : Value :=
  match r.get? column, rs.row? t (Key.ofRow t r) with
  | some v, _ => v
  | none, some stored => stored.get column
  | none, none => .null

def merged (rs : RowStore) (t : Table) (r : Row) : Row := r.onto (rs.row? t (Key.ofRow t r))

theorem get_merged (rs : RowStore) (t : Table) (r : Row) (column : String) :
    (rs.merged t r).get column = rs.written t r column := by
  rw [merged, written]
  cases rs.row? t (Key.ofRow t r) with
  | none =>
      rw [Row.onto, Row.get]
      cases r.get? column <;> rfl
  | some stored =>
      rw [Row.onto, Row.get, Row.get?_merge]
      cases r.get? column <;> rfl

theorem takes_merged : Table.Takes t.columns (rs.merged t r) ↔ ∀ c ∈ t.columns,
    c.type.accepts (rs.written t r c.name) = true ∧ (c.notNull = true → rs.written t r c.name ≠ .null) := by
  refine forall₂_congr fun c _ => ?_
  rw [get_merged, ne_eq, ← Value.isNull_iff, Bool.not_eq_true]

theorem columns_merged (h : rs.Reachable) (ht : t ∈ rs.db.tables) :
    (∀ c ∈ (rs.merged t r).columns, c ∈ t.columnNames) ↔ ∀ c ∈ r.columns, c ∈ t.columnNames := by
  rw [merged]
  cases hrow : rs.row? t (Key.ofRow t r) with
  | none => rfl
  | some stored =>
      have hcolumns := (holds_of_mem_stored h ht ((row?_eq_some h ht).1 hrow).1).columns
      simp only [Row.onto, Row.mem_columns_merge, hcolumns]
      exact ⟨fun hall c hc => hall c (.inr hc), fun hall c hc => hc.elim id (hall c)⟩

theorem ofRow_merged (h : rs.Reachable) (ht : t ∈ rs.db.tables) (r : Row) :
    Key.ofRow t (rs.merged t r) = Key.ofRow t r :=
  Staging.ofRow_onto fun _ hrow => ((row?_eq_some h ht).1 hrow).2

theorem apply_row_eq_ok (h : rs.Reachable) (ht : t ∈ rs.db.tables) (w : RowWrite) :
    rs.apply [w.mutation t.name r] = .ok rs' ↔ ∃ k, t.storedKey (Key.ofRow t r) = .ok k ∧
      w.Allows (rs.row? t (Key.ofRow t r)) ∧ ∃ row, t.storedRow (rs.merged t r) = .ok row ∧
        ∃ v, RowFormat.store row = .ok v ∧ { rs with store := rs.store.insert k v } = rs' := by
  rw [apply_singleton, Except.bind_eq_ok]
  simp only [Staging.applyOne_iff h.wellFormed ht (shows_row? h ht r), Staging.putRow_eq_ok,
    Except.ok.injEq]
  constructor
  · rintro ⟨_, ⟨k, hk, hallows, row, hrow, v, hv, rfl⟩, rfl⟩
    exact ⟨k, hk, hallows, row, hrow, v, hv, by rw [Staging.commit_put, Staging.commit_ofStore]⟩
  · rintro ⟨k, hk, hallows, row, hrow, v, hv, rfl⟩
    exact ⟨_, ⟨k, hk, hallows, row, hrow, v, hv, rfl⟩, by rw [Staging.commit_put, Staging.commit_ofStore]⟩

/-- A write of a row succeeds exactly if it may find what is stored under the row's key, the row has
no columns but the table's, these take the values they have afterwards, absent ones being null, no part
of the row's key is an array or a struct, and the bytes of what is to be stored can be counted, as those
of anything in memory can. Then the row of these values, with all columns, is under its key, and nothing
else has changed in any table. -/
theorem write_row (h : rs.Reachable) (ht : t ∈ rs.db.tables) (w : RowWrite) (r : Row) :
    ∃ row : Row, row.fields = t.columnNames.map (fun c => (c, rs.written t r c)) ∧
      ((∃ rs', rs.write [w.mutation t.name r] = (rs', .ok ())) ↔
        w.Allows (rs.row? t (Key.ofRow t r)) ∧ (∀ c ∈ r.columns, c ∈ t.columnNames) ∧
        (∀ c ∈ t.columns, c.type.accepts (rs.written t r c.name) = true ∧
          (c.notNull = true → rs.written t r c.name ≠ .null)) ∧
        (∀ v ∈ (Key.ofRow t r).values, v.Scalar) ∧ (RowFormat.encode row).length < 2 ^ 64) ∧
      ∀ rs', rs.write [w.mutation t.name r] = (rs', .ok ()) → rs'.db = rs.db ∧
        ∀ u ∈ rs.db.tables, ∀ k, rs'.row? u k =
          if u = t ∧ k = Key.ofRow t r then some row else rs.row? u k := by
  have htable := h.wellFormed.tables t ht
  refine ⟨(rs.merged t r).project t.columnNames, ?_, ?_, fun rs' hwrite => ?_⟩
  · rw [Row.fields_project htable.columns_nodup]
    exact List.map_congr_left fun c _ => by rw [get_merged]
  · simp only [write_eq_ok, apply_row_eq_ok h ht, Table.storedRow_eq_project htable, columns_merged h ht,
      takes_merged, ← Table.exists_storedKey_ofRow, RowFormat.store_eq_ok]
    constructor
    · rintro ⟨_, k, hk, hallows, _, ⟨hknown, htakes, rfl⟩, v, ⟨-, hsize⟩, -⟩
      exact ⟨hallows, hknown, htakes, ⟨k, hk⟩, hsize⟩
    · rintro ⟨hallows, hknown, htakes, ⟨k, hk⟩, hsize⟩
      exact ⟨_, k, hk, hallows, _, ⟨hknown, htakes, rfl⟩, _, ⟨rfl, hsize⟩, rfl⟩
  · have happly := write_eq_ok.1 hwrite
    obtain ⟨l, hl, -, row, hrow, v, hv, rfl⟩ := (apply_row_eq_ok h ht w).1 happly
    obtain ⟨hholds, hget⟩ := Table.storedRow_holds htable hrow
    have hkey : Key.ofRow t row = Key.ofRow t r := (Table.ofRow_congr htable hget).trans (ofRow_merged h ht r)
    obtain ⟨-, -, rfl⟩ := (Table.storedRow_eq_project htable).1 hrow
    refine ⟨rfl, fun u hu k => ?_⟩
    have hput := row?_put h (h.apply happly) rfl rfl ht hholds hv (hkey.symm ▸ hl) hu k
    rwa [hkey] at hput

end RowStore

namespace Venues

def venues : Table where
  name := "Venue"
  columns := [⟨"id", .scalar .int64, true, none, none, false⟩, ⟨"name", .scalar .string, true, none, none, false⟩,
    ⟨"seats", .scalar .int64, false, none, none, false⟩]
  primaryKey := [⟨"id", false⟩]

def halls : Table where
  name := "Hall"
  columns := [⟨"id", .scalar .int64, true, none, none, false⟩, ⟨"hall", .scalar .int64, true, none, none, false⟩]
  primaryKey := [⟨"id", false⟩, ⟨"hall", false⟩]
  interleave := some ⟨"Venue", .cascade⟩

def tables : List Definition := [.createTable venues, .createTable halls]

def ryman : Row := .ofFields [("id", .int64 1), ("name", .string "Ryman"), ("seats", .int64 2362)]

def writes : List Mutation := [
  .insert "Venue" ryman,
  .insert "Hall" (.ofFields [("id", .int64 1), ("hall", .int64 7)])]

def db : Database := Database.empty.run tables

def store : RowStore := ((RowStore.ofDatabase db).apply writes).toOption.getD (.ofDatabase db)

def rebuilt : Row := .ofFields [("id", .int64 1), ("seats", .int64 2400)]

end Venues

/-- An update keeps the column it does not name, and the rows of other tables. Refused are an insertion
of what is there, an update of what is not, a row without a name, seats that are no number and a column
that no venue has. -/
theorem RowStore.write_row_sample : Venues.store.Reachable ∧
    (∃ rs', Venues.store.write [.update "Venue" Venues.rebuilt] = (rs', .ok ()) ∧
      rs'.row? Venues.venues ⟨[.int64 1]⟩ =
        some (.ofFields [("id", .int64 1), ("name", .string "Ryman"), ("seats", .int64 2400)]) ∧
      rs'.row? Venues.halls ⟨[.int64 1, .int64 7]⟩ = some (.ofFields [("id", .int64 1), ("hall", .int64 7)])) ∧
    ∀ m ∈ [Mutation.insert "Venue" (.ofFields [("id", .int64 1), ("name", .string "Opry")]),
        .update "Venue" (.ofFields [("id", .int64 2), ("name", .string "Opry")]),
        .upsert "Venue" (.ofFields [("id", .int64 2), ("seats", .int64 4400)]),
        .update "Venue" (.ofFields [("id", .int64 1), ("seats", .string "many")]),
        .update "Venue" (.ofFields [("id", .int64 1), ("rooms", .int64 3)])],
      ¬∃ rs', Venues.store.write [m] = (rs', .ok ()) := by
  have hstore : Venues.store.Reachable := reachable_getD ⟨Venues.tables, rfl⟩ _
  have hvenues : Venues.venues ∈ Venues.store.db.tables := .head _
  have hhalls : Venues.halls ∈ Venues.store.db.tables := .tail _ (.head _)
  have hstored : Venues.store.row? Venues.venues ⟨[.int64 1]⟩ = some Venues.ryman := by cbv
  refine ⟨hstore, ?_, ?_⟩
  · obtain ⟨row, hfields, hiff, hmap⟩ := write_row hstore hvenues .update Venues.rebuilt
    have hrow : row = .ofFields [("id", .int64 1), ("name", .string "Ryman"), ("seats", .int64 2400)] :=
      Row.ext (hfields.trans (by cbv))
    have hallows : Venues.store.row? Venues.venues (Key.ofRow Venues.venues Venues.rebuilt) ≠ none := by
      intro hnone
      cases hstored.symm.trans hnone
    have htakes : Venues.venues.columns.all (fun c =>
        c.type.accepts (Venues.store.written Venues.venues Venues.rebuilt c.name) &&
          Venues.store.written Venues.venues Venues.rebuilt c.name != .null) = true := by cbv
    simp only [List.all_eq_true, Bool.and_eq_true, bne_iff_ne] at htakes
    have hkey : (Key.ofRow Venues.venues Venues.rebuilt).values = [.int64 1] := by cbv
    have hscalar : ∀ v ∈ (Key.ofRow Venues.venues Venues.rebuilt).values, v.Scalar := by
      simp [hkey, Value.Scalar, Value.baseType?]
    have hsize : (RowFormat.encode row).length < 2 ^ 64 := by
      rw [hrow]
      cbv
    obtain ⟨rs', hwrite⟩ := hiff.2 ⟨hallows, by decide,
      fun c hc => ⟨(htakes c hc).1, fun _ => (htakes c hc).2⟩, hscalar, hsize⟩
    refine ⟨rs', hwrite, ?_, ?_⟩
    · rw [(hmap rs' hwrite).2 _ hvenues, if_pos ⟨rfl, rfl⟩, hrow]
    · rw [(hmap rs' hwrite).2 _ hhalls, if_neg fun h => absurd h.1 (by decide)]
      cbv
  · simp only [List.forall_mem_cons]
    refine ⟨fun hwrite => ?_, fun hwrite => ?_, fun hwrite => ?_, fun hwrite => ?_, fun hwrite => ?_, by simp⟩
    · obtain ⟨_, -, hiff, -⟩ := write_row hstore hvenues .insert
        (.ofFields [("id", .int64 1), ("name", .string "Opry")])
      cases hstored.symm.trans (hiff.1 hwrite).1
    · obtain ⟨_, -, hiff, -⟩ := write_row hstore hvenues .update
        (.ofFields [("id", .int64 2), ("name", .string "Opry")])
      exact (hiff.1 hwrite).1 (by cbv)
    · obtain ⟨_, -, hiff, -⟩ := write_row hstore hvenues .upsert
        (.ofFields [("id", .int64 2), ("seats", .int64 4400)])
      obtain ⟨-, -, htakes, -⟩ := hiff.1 hwrite
      exact (htakes _ (.tail _ (.head _))).2 rfl (by cbv)
    · obtain ⟨_, -, hiff, -⟩ := write_row hstore hvenues .update
        (.ofFields [("id", .int64 1), ("seats", .string "many")])
      obtain ⟨-, -, htakes, -⟩ := hiff.1 hwrite
      have htype : (ColumnType.scalar .int64).accepts (Venues.store.written Venues.venues
        (.ofFields [("id", .int64 1), ("seats", .string "many")]) "seats") = false := by cbv
      exact Bool.false_ne_true (htype.symm.trans (htakes _ (.tail _ (.tail _ (.head _)))).1)
    · obtain ⟨_, -, hiff, -⟩ := write_row hstore hvenues .update
        (.ofFields [("id", .int64 1), ("rooms", .int64 3)])
      exact absurd ((hiff.1 hwrite).2.1 "rooms" (.tail _ (.head _))) (by decide)

end RowForest
