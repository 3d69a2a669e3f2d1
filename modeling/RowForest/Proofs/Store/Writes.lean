import Mathlib
import RowForest.Proofs.Store.Rows

namespace RowForest

namespace RowStore

theorem write_eq_ok {rs rs' : RowStore} {ms : List Mutation} :
    rs.write ms = (rs', .ok ()) ↔ rs.apply ms = .ok rs' := by
  unfold write
  cases rs.apply ms <;> simp

theorem write_eq_error {rs rs' : RowStore} {ms : List Mutation} {e : Error} :
    rs.write ms = (rs', .error e) ↔ rs.apply ms = .error e ∧ rs' = rs := by
  unfold write
  cases rs.apply ms <;> simp [eq_comm, and_comm]

theorem apply_singleton (rs : RowStore) (m : Mutation) : rs.apply [m] =
    Staging.applyOne rs.db (.ofStore rs.store) m >>= fun s => .ok { rs with store := s.commit } := by
  rw [apply, List.foldlM_cons]
  cases Staging.applyOne rs.db (.ofStore rs.store) m <;> rfl

theorem Reachable.write {rs : RowStore} (h : rs.Reachable) (ms : List Mutation) :
    (rs.write ms).1.Reachable := by
  unfold RowStore.write
  cases happly : rs.apply ms with
  | ok rs' => exact h.apply happly
  | error e => exact h

theorem Reachable.writeAll {rs : RowStore} (h : rs.Reachable) (writes : List (List Mutation)) :
    (rs.writeAll writes).Reachable := by
  induction writes generalizing rs with
  | nil => exact h
  | cons ms writes ih => exact ih (h.write ms)

theorem write_db (rs : RowStore) (ms : List Mutation) : (rs.write ms).1.db = rs.db := by
  unfold write
  cases happly : rs.apply ms with
  | ok rs' =>
      simp only [apply, Except.bind_eq_ok, Except.pure_ok, Except.ok.injEq] at happly
      obtain ⟨s, -, rfl⟩ := happly
      rfl
  | error e => rfl

theorem writeAll_db (rs : RowStore) (writes : List (List Mutation)) : (rs.writeAll writes).db = rs.db := by
  induction writes generalizing rs with
  | nil => rfl
  | cons ms writes ih => exact (ih _).trans (rs.write_db ms)

/-- The row that a write ends with updating or adding is found under the key its own columns
give, which is that of the columns given. -/
theorem find?_of_merged {rs rs' : RowStore} (h : rs.Reachable) {ms : List Mutation} {m : Mutation}
    {t : Table} (ht : t ∈ rs.db.tables) {r : Row} (hm : m = .update t.name r ∨ m = .upsert t.name r)
    (hwrite : rs.write (ms ++ [m]) = (rs', .ok ())) :
    ∃ row k v, rs'.store.find? k = some v ∧ decodeRow v = .ok row ∧
      t.storedKey (Key.ofRow t row) = .ok k ∧ Key.ofRow t row = Key.ofRow t r ∧
      ∀ c ∈ r.columns, row.get c = r.get c := by
  have htable := h.wellFormed.getTable_of_mem ht
  have happly := write_eq_ok.1 hwrite
  simp only [apply, List.foldlM_append, List.foldlM_cons, List.foldlM_nil, Except.bind_eq_ok,
    Except.pure_ok, Except.ok.injEq] at happly
  obtain ⟨_, ⟨s₁, hs₁, s₂, hone, rfl⟩, rfl⟩ := happly
  have hcanonical : rs.db.Canonical s₁.commit :=
    Except.foldlM_keeps (P := fun s : Staging => rs.db.Canonical s.commit)
      (fun m _ s s' hs hone => Staging.applyOne_canonical h.wellFormed hs hone)
      (show rs.db.Canonical (Staging.ofStore rs.store).commit from h.canonical) hs₁
  obtain ⟨mustExist, hmerge⟩ : ∃ mustExist, s₁.mergeRow t mustExist r = .ok s₂ := by
    rcases hm with rfl | rfl
    · refine ⟨true, ?_⟩
      simpa only [Staging.applyOne, Mutation.table, htable, Except.ok_bind] using hone
    · refine ⟨false, ?_⟩
      simpa only [Staging.applyOne, Mutation.table, htable, Except.ok_bind] using hone
  obtain ⟨row, k, v, hrow, hkey, hvalues, hk, hv, hcommit⟩ :=
    Staging.mergeRow_eq_ok h.wellFormed hcanonical ht hmerge
  refine ⟨row, k, v, ?_, decodeRow_of_store hrow hv, hkey ▸ hk, hkey, hvalues⟩
  rw [hcommit, SortedMap.find?_insert, if_pos rfl]

/-- Whatever is written, and whether it fails or not, each entry is of one table, the one its key
names, and reads as a row of that table whose own columns give the key it is under. A row that is
updated or added, with however few columns, is no exception. -/
theorem writeAll_canonical {db : Database} (h : db.Reachable) (writes : List (List Mutation)) :
    (∀ e ∈ ((ofDatabase db).writeAll writes).store.entries, ∃ t ∈ db.tables,
      (∀ u ∈ db.tables, KeyFormat.encodeName u.name <+: e.1 ↔ u = t) ∧
      ∃ r, decodeRow e.2 = .ok r ∧ r.columns = t.columnNames ∧
        (∀ c ∈ t.columns, c.type.accepts (r.get c.name) = true ∧
          (c.notNull = true → (r.get c.name).isNull = false)) ∧
        t.storedKey (Key.ofRow t r) = .ok e.1) ∧
    ∀ (ms : List Mutation) (m : Mutation), ∀ t ∈ db.tables, ∀ (r : Row) (rs : RowStore),
      m = .update t.name r ∨ m = .upsert t.name r →
      ((ofDatabase db).writeAll writes).write (ms ++ [m]) = (rs, .ok ()) →
      ∃ row k v, rs.store.find? k = some v ∧ decodeRow v = .ok row ∧
        t.storedKey (Key.ofRow t row) = .ok k ∧ Key.ofRow t row = Key.ofRow t r ∧
        ∀ c ∈ r.columns, row.get c = r.get c := by
  have hreachable := (Reachable.ofDatabase h).writeAll writes
  have hdb : ((ofDatabase db).writeAll writes).db = db := writeAll_db _ _
  refine ⟨fun e he => ?_, fun ms m t ht r rs hm hwrite => ?_⟩
  · obtain ⟨t, ht, r, hr, hstore, hkey⟩ := hreachable.canonical e he
    rw [hdb] at ht
    refine ⟨t, ht, fun u hu => ?_, r, decodeRow_of_store hr hstore, hr.columns, hr.takes, hkey⟩
    obtain ⟨parts, -, hparts⟩ := KeyFormat.encode_eq_ok.1 (Table.storedKey_eq_ok.1 hkey)
    rw [hparts, KeyFormat.encodeName_prefix_iff]
    exact ⟨fun hname => h.wellFormed.eq_of_name hu ht hname, fun hut => congrArg Table.name hut⟩
  · exact find?_of_merged hreachable (hdb.symm ▸ ht) hm hwrite

end RowStore

namespace Sample

def singers : Table where
  name := "Singer"
  columns := [⟨"id", .scalar .int64, true, none, none, false⟩, ⟨"name", .scalar .string, false, none, none, false⟩]
  primaryKey := [⟨"id", false⟩]

def albums : Table where
  name := "Album"
  columns := [⟨"id", .scalar .int64, true, none, none, false⟩, ⟨"no", .scalar .int64, true, none, none, false⟩,
    ⟨"delete_time", .scalar .timestamp, false, none, none, false⟩]
  primaryKey := [⟨"id", false⟩, ⟨"no", true⟩]
  interleave := some ⟨"Singer", .cascade⟩

def db : Database := Database.empty.run [.createTable singers, .createTable albums]

def writes : List Mutation := [
  .insert "Singer" (.ofFields [("id", .int64 2), ("name", .string "Ella")]),
  .insert "Singer" (.ofFields [("id", .int64 1)]),
  .insert "Album" (.ofFields [("id", .int64 2), ("no", .int64 1)]),
  .insert "Album" (.ofFields [("id", .int64 2), ("no", .int64 5)])]

def store : RowStore := ((RowStore.ofDatabase db).apply writes).toOption.getD (.ofDatabase db)

theorem store_reachable : store.Reachable :=
  RowStore.reachable_getD ⟨[.createTable singers, .createTable albums], rfl⟩ _

def newName : Mutation := .upsert "Singer" (.ofFields [("id", .int64 1), ("name", .string "Billie")])

def renamed : RowStore := ((RowStore.ofDatabase db).writeAll [writes, [.delete "Venue" .all], [newName]])

end Sample

theorem RowStore.writeAll_canonical_sample : Sample.db.Reachable ∧
    (∃ e ∈ Sample.renamed.store.entries, ∃ t ∈ Sample.db.tables, KeyFormat.encodeName t.name <+: e.1 ∧
      ∃ r, decodeRow e.2 = .ok r ∧ r.columns = t.columnNames ∧ t.storedKey (Key.ofRow t r) = .ok e.1) ∧
    ∃ row k v, Sample.renamed.store.find? k = some v ∧ decodeRow v = .ok row ∧
      Sample.singers.storedKey (Key.ofRow Sample.singers row) = .ok k ∧
      row.get "name" = .string "Billie" := by
  have hdb : Sample.db.Reachable := ⟨[.createTable Sample.singers, .createTable Sample.albums], rfl⟩
  have hsingers : Sample.singers ∈ Sample.db.tables := by decide
  refine ⟨hdb, ?_, ?_⟩
  · have hentries : Sample.renamed.store.entries.isEmpty = false := by cbv
    obtain ⟨e, he⟩ := List.isEmpty_eq_false_iff_exists_mem.1 hentries
    obtain ⟨t, ht, hname, r, hr, hcolumns, -, hkey⟩ := (writeAll_canonical hdb _).1 e he
    exact ⟨e, he, t, ht, (hname t ht).2 rfl, r, hr, hcolumns, hkey⟩
  · have hwrite : ((ofDatabase Sample.db).writeAll [Sample.writes, [.delete "Venue" .all]]).write
        ([] ++ [Sample.newName]) = (Sample.renamed, .ok ()) := by cbv
    obtain ⟨row, k, v, hfound, hrow, hkey, -, hvalues⟩ :=
      (writeAll_canonical hdb _).2 [] _ _ hsingers _ _ (.inr rfl) hwrite
    exact ⟨row, k, v, hfound, hrow, hkey, hvalues "name" (by decide)⟩

end RowForest
