import RowForest.Proofs.Store.Rows

namespace RowForest

/-- The row that an entry holds, if it is one of the table's. -/
def Table.entryRow? (t : Table) (e : Bytes × Bytes) : Option Row :=
  match decodeRow e.2 with
  | .error _ => none
  | .ok r =>
    match t.storedKey (Key.ofRow t r) with
    | .error _ => none
    | .ok k => if k = e.1 then some r else none

/-- The rows that are stored of a table, in ascending order of their encoded keys. -/
def RowStore.stored (rs : RowStore) (t : Table) : List Row :=
  rs.store.entries.filterMap t.entryRow?

namespace RowStore

variable {rs : RowStore} {t u : Table}

theorem entryRow?_eq_some (h : rs.Reachable) (ht : t ∈ rs.db.tables) {e : Bytes × Bytes}
    (he : e ∈ rs.store.entries) {r : Row} : t.entryRow? e = some r ↔
      t.Holds r ∧ RowFormat.store r = .ok e.2 ∧ t.storedKey (Key.ofRow t r) = .ok e.1 := by
  obtain ⟨k, v⟩ := e
  constructor
  · intro hr
    obtain ⟨u, hu, s, hs, hstore, hkey⟩ := h.canonical _ he
    simp only [Table.entryRow?, decodeRow_of_store hs hstore] at hr
    split at hr
    · cases hr
    · next k' hk' =>
      split at hr
      · next heq =>
        cases hr
        rw [heq] at hk'
        obtain ⟨rfl, -⟩ := h.wellFormed.storedKey_injective ht hu hk' hkey
        exact ⟨hs, hstore, hk'⟩
      · cases hr
  · rintro ⟨hs, hstore, hkey⟩
    simp only [Table.entryRow?, decodeRow_of_store hs hstore, hkey, if_true]

theorem mem_stored (h : rs.Reachable) (ht : t ∈ rs.db.tables) {r : Row} : r ∈ rs.stored t ↔
    ∃ e ∈ rs.store.entries, t.Holds r ∧ RowFormat.store r = .ok e.2 ∧
      t.storedKey (Key.ofRow t r) = .ok e.1 := by
  rw [stored, List.mem_filterMap]
  exact exists_congr fun e => and_congr_right fun he => entryRow?_eq_some h ht he

theorem holds_of_mem_stored (h : rs.Reachable) (ht : t ∈ rs.db.tables) {r : Row}
    (hr : r ∈ rs.stored t) : t.Holds r := by
  obtain ⟨e, -, hholds, -⟩ := (mem_stored h ht).1 hr
  exact hholds

theorem columns_of_mem_stored (h : rs.Reachable) (ht : t ∈ rs.db.tables) {r : Row}
    (hr : r ∈ rs.stored t) : r.columns = t.columnNames ∧ t.columnNames.Nodup := by
  have hcolumns := (holds_of_mem_stored h ht hr).columns
  exact ⟨hcolumns, hcolumns ▸ r.nodup_columns⟩

theorem storedKey_of_mem_stored (h : rs.Reachable) (ht : t ∈ rs.db.tables) {r : Row}
    (hr : r ∈ rs.stored t) : ∃ k, t.storedKey (Key.ofRow t r) = .ok k := by
  obtain ⟨e, -, -, -, hkey⟩ := (mem_stored h ht).1 hr
  exact ⟨e.1, hkey⟩

theorem stored_sorted (h : rs.Reachable) (ht : t ∈ rs.db.tables) :
    (rs.stored t).Pairwise (fun r s => ∃ k l, t.storedKey (Key.ofRow t r) = .ok k ∧
      t.storedKey (Key.ofRow t s) = .ok l ∧ compare k l = .lt) := by
  rw [stored, List.pairwise_filterMap]
  refine List.Pairwise.imp_of_mem ?_ rs.store.sorted
  intro e f he hf hlt r hr s hs
  exact ⟨e.1, f.1, ((entryRow?_eq_some h ht he).1 hr).2.2, ((entryRow?_eq_some h ht hf).1 hs).2.2, hlt⟩

theorem stored_keys_nodup (h : rs.Reachable) (ht : t ∈ rs.db.tables) :
    ((rs.stored t).map (Key.ofRow t)).Nodup := by
  refine List.pairwise_map.2 ((stored_sorted h ht).imp ?_)
  rintro r s ⟨k, l, hr, hs, hlt⟩ hkey
  rw [hkey, hs] at hr
  cases hr
  exact SortedMap.ne_of_lt hlt rfl

theorem scalar_of_mem_stored (h : rs.Reachable) (ht : t ∈ rs.db.tables) {r : Row}
    (hr : r ∈ rs.stored t) : ∀ v ∈ (Key.ofRow t r).values, v.Scalar := by
  obtain ⟨k, hk⟩ := storedKey_of_mem_stored h ht hr
  obtain ⟨parts, hparts, -⟩ := KeyFormat.encode_eq_ok.1 (Table.storedKey_eq_ok.1 hk)
  have hscalar := KeyFormat.exists_encodeParts.1 ⟨parts, hparts⟩
  intro v hv
  obtain ⟨i, hi, rfl⟩ := List.mem_iff_getElem.1 hv
  have hi' : i < ((Key.ofRow t r).values.zip (t.primaryKey.map KeyPart.desc)).length := by
    rw [List.length_zip, ← t.length_ofRow r, Nat.min_self]
    exact hi
  have hpart := hscalar _ (List.getElem_mem hi')
  rwa [List.getElem_zip] at hpart

end RowStore

/-- The first parts of a key of the table, as far as they can be parts of one. -/
structure Table.Leads (t : Table) (p : Key) : Prop where
  length_le : p.values.length ≤ (t.primaryKey.map KeyPart.desc).length
  scalar : ∀ v ∈ p.values, v.Scalar

theorem Table.Leads.storedKey {t : Table} {p : Key} (hp : t.Leads p) :
    ∃ k, t.storedKey p = .ok k := by
  obtain ⟨k, hk⟩ := KeyFormat.exists_encode t.name (t.primaryKey.map KeyPart.desc) hp.scalar
  exact ⟨k, Table.storedKey_eq_ok.2 hk⟩

namespace RowStore

variable {rs : RowStore} {t u : Table}

theorem leads_of_child (h : rs.Reachable) {parent child : Table} (hparent : parent ∈ rs.db.tables)
    (hchild : child ∈ rs.db.children parent.name) {r : Row} (hr : r ∈ rs.stored parent) :
    child.Leads (Key.ofRow parent r) where
  length_le := by
    have hstarts := (h.wellFormed.keyColumns_prefix hparent hchild).length_le
    simpa [Key.ofRow, Table.keyColumns] using hstarts
  scalar := scalar_of_mem_stored h hparent hr

/-- The entries in the range of a key's first parts are the table's rows whose keys begin
with them. -/
theorem prefix_iff (h : rs.Reachable) (ht : t ∈ rs.db.tables) {p : Key} (hp : t.Leads p)
    {b : Bytes} (hb : t.storedKey p = .ok b) {e : Bytes × Bytes} (he : e ∈ rs.store.entries) :
    b <+: e.1 ↔ ∃ r, t.entryRow? e = some r ∧ p.values <+: (Key.ofRow t r).values := by
  simp only [entryRow?_eq_some h ht he]
  constructor
  · intro hstarts
    obtain ⟨u, hu, r, hr, hstore, hkey⟩ := h.canonical e he
    obtain rfl := h.wellFormed.eq_of_name ht hu
      (KeyFormat.table_eq_of_prefix (Table.storedKey_eq_ok.1 hb) (Table.storedKey_eq_ok.1 hkey) hstarts)
    have hiff := KeyFormat.encode_prefix_iff (Table.storedKey_eq_ok.1 hb) (Table.storedKey_eq_ok.1 hkey)
      hp.length_le (t.length_ofRow r).le
    exact ⟨r, ⟨hr, hstore, hkey⟩, (hiff.1 hstarts).2⟩
  · rintro ⟨r, ⟨-, -, hkey⟩, hstarts⟩
    exact (KeyFormat.encode_prefix_iff (Table.storedKey_eq_ok.1 hb) (Table.storedKey_eq_ok.1 hkey)
      hp.length_le (t.length_ofRow r).le).2 ⟨rfl, hstarts⟩

theorem mapM_project (h : rs.Reachable) (ht : t ∈ rs.db.tables) {pick : Bytes × Bytes → Bool}
    {keep : Row → Bool} (columns : List String) (hpick : ∀ e ∈ rs.store.entries,
      pick e = true ↔ ∃ r, t.entryRow? e = some r ∧ keep r = true) :
    ((rs.store.entries.filter pick).map Prod.snd).mapM
      (fun v => do return (← decodeRow v).project columns) =
        .ok (((rs.stored t).filter keep).map (·.project columns)) := by
  have hread : ∀ e ∈ rs.store.entries, ∀ r, t.entryRow? e = some r →
      (do return (← decodeRow e.2).project columns : Except Error Row) = .ok (r.project columns) := by
    intro e he r hr
    obtain ⟨hholds, hstore, -⟩ := (entryRow?_eq_some h ht he).1 hr
    rw [decodeRow_of_store hholds hstore, Except.ok_bind]
    rfl
  unfold stored
  generalize rs.store.entries = es at hpick hread
  induction es with
  | nil => rfl
  | cons e es ih =>
      have hpick' := hpick e List.mem_cons_self
      have hread' := hread e List.mem_cons_self
      have ih := ih (fun f hf => hpick f (List.mem_cons_of_mem _ hf))
        (fun f hf => hread f (List.mem_cons_of_mem _ hf))
      cases hrow : t.entryRow? e with
      | none =>
          have hskip : pick e = false := by
            rw [← Bool.not_eq_true, hpick']
            simp [hrow]
          rw [List.filter_cons_of_neg (by simp [hskip]), List.filterMap_cons_none hrow, ih]
      | some r =>
          have hkeep : pick e = keep r := by
            rw [Bool.eq_iff_iff, hpick']
            simp [hrow]
          rw [List.filterMap_cons_some hrow]
          cases hk : keep r with
          | true =>
              rw [List.filter_cons_of_pos (by simp [hkeep, hk]), List.filter_cons_of_pos hk,
                List.map_cons, List.mapM_cons, hread' r hrow, ih]
              rfl
          | false =>
              rw [List.filter_cons_of_neg (by simp [hkeep, hk]),
                List.filter_cons_of_neg (by simp [hk]), ih]

theorem mapM_decodeRow (h : rs.Reachable) (ht : t ∈ rs.db.tables) {pick : Bytes → Bool}
    {keep : Row → Bool} (hpick : ∀ e ∈ rs.store.entries,
      pick e.1 = true ↔ ∃ r, t.entryRow? e = some r ∧ keep r = true) :
    (rs.store.filterKeys pick).values.mapM
      (fun v => do return (← decodeRow v).project t.columnNames) = .ok ((rs.stored t).filter keep) := by
  have hwhole : ∀ r ∈ (rs.stored t).filter keep, r.project t.columnNames = r := by
    intro r hr
    rw [← (holds_of_mem_stored h ht (List.mem_of_mem_filter hr)).columns, r.project_columns]
  refine (mapM_project h ht t.columnNames hpick).trans (congrArg Except.ok ?_)
  exact (List.map_congr_left hwhole).trans (List.map_id _)

def inAny (t : Table) (ps : List Key) (k : Bytes) : Bool :=
  ps.any (fun p =>
    match t.storedKey p with
    | .ok b => b.inRange k
    | .error _ => false)

theorem inAny_cons {p : Key} {ps : List Key} {b k : Bytes} (hb : t.storedKey p = .ok b) :
    inAny t (p :: ps) k = (b.inRange k || inAny t ps k) := by
  simp [inAny, hb]

theorem lookupAll_under (s : Store) {ps : List Key} (hps : ∀ p ∈ ps, t.Leads p) :
    (Staging.ofStore s).lookupAll t (ps.map .under) = .ok (s.filterKeys (inAny t ps)) := by
  induction ps with
  | nil =>
      have hnone : s.filterKeys (inAny t []) = .empty := by
        apply SortedMap.ext_mem
        intro e
        simp [SortedMap.filterKeys, inAny, SortedMap.empty]
      rw [hnone]
      rfl
  | cons p ps ih =>
      obtain ⟨b, hb⟩ := (hps p List.mem_cons_self).storedKey
      have hfound : (Staging.ofStore s).lookup t (.under p) = .ok (s.scan b) := by
        rw [Staging.lookup, hb, Except.ok_bind, Staging.scan_eq, Staging.commit_ofStore]
        rfl
      rw [List.map_cons, Staging.lookupAll, hfound, Except.ok_bind,
        ih (fun q hq => hps q (List.mem_cons_of_mem _ hq)), Except.ok_bind]
      refine congrArg Except.ok (SortedMap.ext_mem ?_)
      rintro ⟨k, v⟩
      have hnodup := (s.filterKeys (inAny t ps)).keys_nodup
      have hrest : k ∈ (s.filterKeys (inAny t ps)).entries.map Prod.fst ↔
          (∃ w, (k, w) ∈ s.entries) ∧ inAny t ps k = true := by
        simp [SortedMap.filterKeys]
      rw [SortedMap.toList, SortedMap.mem_insertAll hnodup, hrest, SortedMap.mem_filterKeys,
        SortedMap.scan, SortedMap.mem_filterKeys, SortedMap.mem_filterKeys, inAny_cons hb,
        Bool.or_eq_true]
      constructor
      · rintro (⟨hs, hrange⟩ | ⟨-, hs, hrange⟩)
        · exact ⟨hs, .inr hrange⟩
        · exact ⟨hs, .inl hrange⟩
      · rintro ⟨hs, hrange⟩
        by_cases hany : inAny t ps k = true
        · exact .inl ⟨hs, hany⟩
        · exact .inr ⟨fun hk => hany hk.2, hs, hrange.resolve_right hany⟩

theorem inAny_iff (h : rs.Reachable) (ht : t ∈ rs.db.tables) {ps : List Key}
    (hps : ∀ p ∈ ps, t.Leads p) {e : Bytes × Bytes} (he : e ∈ rs.store.entries) :
    inAny t ps e.1 = true ↔ ∃ r, t.entryRow? e = some r ∧
      ps.any (fun p => p.values.isPrefixOf (Key.ofRow t r).values) = true := by
  simp only [inAny, List.any_eq_true, List.isPrefixOf_iff_prefix]
  constructor
  · rintro ⟨p, hp, hrange⟩
    obtain ⟨b, hb⟩ := (hps p hp).storedKey
    simp only [hb, Bytes.inRange_iff] at hrange
    obtain ⟨r, hr, hstarts⟩ := (prefix_iff h ht (hps p hp) hb he).1 hrange
    exact ⟨r, hr, p, hp, hstarts⟩
  · rintro ⟨r, hr, p, hp, hstarts⟩
    obtain ⟨b, hb⟩ := (hps p hp).storedKey
    refine ⟨p, hp, ?_⟩
    simp only [hb, Bytes.inRange_iff]
    exact (prefix_iff h ht (hps p hp) hb he).2 ⟨r, hr, hstarts⟩

theorem rowsIn_underAny (h : rs.Reachable) (ht : t ∈ rs.db.tables) {ps : List Key}
    (hps : ∀ p ∈ ps, t.Leads p) : rs.rowsIn t (.underAny ps) t.columnNames =
      .ok ((rs.stored t).filter
        (fun r => ps.any (fun p => p.values.isPrefixOf (Key.ofRow t r).values))) := by
  rw [rowsIn, KeySet.underAny, Staging.lookup, lookupAll_under rs.store hps, Except.ok_bind]
  exact mapM_decodeRow h ht (fun e he => inAny_iff h ht hps he)

theorem leads_nil (t : Table) : t.Leads ⟨[]⟩ := ⟨Nat.zero_le _, by simp⟩

theorem scan_eq_stored (h : rs.Reachable) (ht : t ∈ rs.db.tables) :
    rs.scan t.name = .ok (rs.stored t) := by
  have htable := h.wellFormed.getTable_of_mem ht
  obtain ⟨b, hb⟩ := (leads_nil t).storedKey
  have hpick : ∀ e ∈ rs.store.entries,
      b.inRange e.1 = true ↔ ∃ r, t.entryRow? e = some r ∧ true = true := by
    intro e he
    rw [Bytes.inRange_iff, prefix_iff h ht (leads_nil t) hb he]
    simp
  have hread := mapM_decodeRow h ht hpick
  rw [List.filter_eq_self.2 (fun _ _ => rfl)] at hread
  rw [scan, htable, Except.ok_bind, rowsIn, KeySet.all, Staging.lookup, hb, Except.ok_bind,
    Staging.scan_eq, Staging.commit_ofStore]
  exact hread

end RowStore

end RowForest
