import RowForest.Proofs.Key.Order
import RowForest.Proofs.Store.Lookup

namespace RowForest

theorem ColumnType.baseType?_of_accepts {t : ColumnType} {v : Value} (h : t.accepts v = true)
    (hv : v.Scalar) : v.isNull = true ∨ v.baseType? = some t.base := by
  cases v with
  | null => exact .inl rfl
  | array items => simp at hv
  | _ =>
      right
      simpa using (Bool.and_eq_true_iff.1 h).2

theorem Table.Holds.takes_column? {t : Table} {r : Row} (hr : t.Holds r) {c : String} {column : Column}
    (hcolumn : t.column? c = some column) :
    column.type.accepts (r.get c) = true ∧ (column.notNull = true → (r.get c).isNull = false) := by
  have hname : column.name = c := by simpa using List.find?_some hcolumn
  have htakes := hr.takes column (List.mem_of_find?_eq_some hcolumn)
  rwa [hname] at htakes

namespace RowStore

variable {rs : RowStore} {t : Table} {a b : Row} {c : String}

/-- Whether no stored row has a NaN in its key. -/
def NoNaN (rs : RowStore) : Prop :=
  ∀ t ∈ rs.db.tables, ∀ r ∈ rs.stored t, ∀ v ∈ (Key.ofRow t r).values, v.isNaN = false

theorem noNaN_iff : rs.NoNaN ↔ rs.db.tables.all (fun t => (rs.stored t).all
    (fun r => (Key.ofRow t r).values.all (fun v => !v.isNaN))) = true := by
  simp [NoNaN]

theorem accepts_of_mem_stored (h : rs.Reachable) (ht : t ∈ rs.db.tables) (ha : a ∈ rs.stored t)
    {column : Column} (hcolumn : t.column? c = some column) :
    column.type.accepts (a.get c) = true ∧ (column.notNull = true → (a.get c).isNull = false) :=
  (holds_of_mem_stored h ht ha).takes_column? hcolumn

theorem column?_of_mem_keyColumns (h : rs.Reachable) (ht : t ∈ rs.db.tables) (hc : c ∈ t.keyColumns) :
    ∃ column, t.column? c = some column :=
  (h.wellFormed.tables t ht).exists_column? hc

theorem scalar_get (h : rs.Reachable) (ht : t ∈ rs.db.tables) (ha : a ∈ rs.stored t)
    (hc : c ∈ t.keyColumns) : (a.get c).Scalar :=
  scalar_of_mem_stored h ht ha _ (List.mem_map.2 ⟨c, hc, rfl⟩)

theorem alike_of_base {v w : Value} {c d : ColumnType} (hv : v.Scalar) (hw : w.Scalar)
    (hc : c.accepts v = true) (hd : d.accepts w = true) (hbase : c.base = d.base) :
    v.isNull = true ∨ w.isNull = true ∨ v.baseType? = w.baseType? := by
  rcases ColumnType.baseType?_of_accepts hc hv with hnull | hv
  · exact .inl hnull
  · rcases ColumnType.baseType?_of_accepts hd hw with hnull | hw
    · exact .inr (.inl hnull)
    · exact .inr (.inr (hv.trans (hbase ▸ hw.symm)))

theorem comparable_of_isNaN (h : rs.Reachable) (ht : t ∈ rs.db.tables) (ha : a ∈ rs.stored t)
    (hb : b ∈ rs.stored t) (hc : c ∈ t.keyColumns) (hanan : (a.get c).isNaN = false)
    (hbnan : (b.get c).isNaN = false) : (a.get c).Comparable (b.get c) := by
  obtain ⟨column, hcolumn⟩ := column?_of_mem_keyColumns h ht hc
  have ha' := scalar_get h ht ha hc
  have hb' := scalar_get h ht hb hc
  exact ⟨⟨ha', hanan⟩, ⟨hb', hbnan⟩, alike_of_base ha' hb'
    (accepts_of_mem_stored h ht ha hcolumn).1 (accepts_of_mem_stored h ht hb hcolumn).1 rfl⟩

theorem comparable_of_mem_stored (h : rs.Reachable) (ht : t ∈ rs.db.tables)
    (hnan : ∀ r ∈ rs.stored t, ∀ v ∈ (Key.ofRow t r).values, v.isNaN = false)
    (ha : a ∈ rs.stored t) (hb : b ∈ rs.stored t) (hc : c ∈ t.keyColumns) :
    (a.get c).Comparable (b.get c) :=
  comparable_of_isNaN h ht ha hb hc (hnan a ha _ (List.mem_map.2 ⟨c, hc, rfl⟩))
    (hnan b hb _ (List.mem_map.2 ⟨c, hc, rfl⟩))

theorem sorts_of_stored (h : rs.Reachable) (hnan : rs.NoNaN) (ht : t ∈ rs.db.tables) {rows : List Row}
    (hrows : ∀ r ∈ rows, r ∈ rs.stored t) : t.Sorts rows (rows.mergeSort t.keyLE) :=
  Table.mergeSort_sorts fun a ha b hb _ hc =>
    comparable_of_mem_stored h ht (hnan t ht) (hrows a ha) (hrows b hb) hc

/-- Stored rows are in the strict order of their keys, if that order tells all key values apart. -/
theorem stored_ascending (h : rs.Reachable) (ht : t ∈ rs.db.tables)
    (hregular : ∀ r ∈ rs.stored t, ∀ v ∈ (Key.ofRow t r).values, v.Regular) :
    (rs.stored t).Pairwise (fun a b =>
      Eval.compareKeys (Key.order t) (Key.ofRow t a).values (Key.ofRow t b).values = .lt) := by
  refine (stored_sorted h ht).imp_of_mem ?_
  rintro a b ha hb ⟨k, l, hk, hl, hlt⟩
  have hcanonical (r : Row) (hr : r ∈ rs.stored t) :
      ∀ p ∈ t.primaryKey, (r.get p.column).canonical = r.get p.column := by
    intro p hp
    refine (hregular r hr _ (List.mem_map.2 ⟨p.column, ?_, rfl⟩)).canonical
    exact List.mem_map.2 ⟨p, hp, rfl⟩
  obtain ⟨as, has, rfl⟩ := KeyFormat.encode_eq_ok.1 (Table.storedKey_eq_ok.1 hk)
  obtain ⟨bs, hbs, rfl⟩ := KeyFormat.encode_eq_ok.1 (Table.storedKey_eq_ok.1 hl)
  rw [Key.ofRow, Table.keyColumns, List.map_map] at has hbs
  have hself : Bytes.Apart (KeyFormat.encodeName t.name) (KeyFormat.encodeName t.name) := fun _ => rfl
  rw [Bytes.compare_append hself, Std.ReflOrd.compare_self, Ordering.then,
    KeyFormat.compare_encodeParts has hbs (hcanonical a ha) (hcanonical b hb)] at hlt
  rw [Table.compareKeys_ofRow (fun c hc => comparable_of_mem_stored h ht
    (fun r hr v hv => (hregular r hr v hv).number) ha hb hc), hlt]

theorem stored_ordered (h : rs.Reachable) (ht : t ∈ rs.db.tables)
    (hregular : ∀ r ∈ rs.stored t, ∀ v ∈ (Key.ofRow t r).values, v.Regular) :
    (rs.stored t).Pairwise (fun a b => t.keyLE a b = true) := by
  refine (stored_ascending h ht hregular).imp fun hlt => ?_
  rw [Table.keyLE, hlt]
  rfl

end RowStore

end RowForest
