import RowForest.Store.Rows
import RowForest.Proofs.KeyFormat
import RowForest.Proofs.RowFormat
import RowForest.Proofs.Schema.Forest
import RowForest.Proofs.Store.Staging

namespace RowForest

namespace Table

def Takes (cs : List Column) (r : Row) : Prop :=
  ∀ c ∈ cs, c.type.accepts (r.get c.name) = true ∧ (c.notNull = true → (r.get c.name).isNull = false)

/-- Whether a row is one that the table stores: it has the table's columns in their order,
and they take its values. -/
structure Holds (t : Table) (r : Row) : Prop where
  columns : r.columns = t.columnNames
  takes : Takes t.columns r

instance (t : Table) (r : Row) : Decidable (t.Holds r) :=
  decidable_of_iff (r.columns = t.columnNames ∧ ∀ c ∈ t.columns,
      c.type.accepts (r.get c.name) = true ∧ (c.notNull = true → (r.get c.name).isNull = false))
    ⟨fun h => ⟨h.1, h.2⟩, fun h => ⟨h.columns, h.takes⟩⟩

theorem fill_eq_ok {t : Table} {r : Row} {cs : List Column} {out s : Row}
    (hnodup : (out.columns ++ cs.map Column.name).Nodup) : t.fill r cs out = .ok s ↔
      Takes cs r ∧ s.fields = out.fields ++ cs.map (fun c => (c.name, r.get c.name)) := by
  induction cs generalizing out with
  | nil =>
      simp only [fill, Except.ok.injEq, Takes, List.not_mem_nil, List.map_nil, List.append_nil]
      constructor
      · rintro rfl
        exact ⟨by simp, rfl⟩
      · rintro ⟨-, h⟩
        exact (Row.ext h).symm
  | cons c cs ih =>
      have hfresh : c.name ∉ out.columns := by
        rw [List.nodup_append] at hnodup
        exact fun h => hnodup.2.2 _ h _ (by simp) rfl
      have hset := Row.fields_set_of_not_mem (v := r.get c.name) hfresh
      have hstep : t.fill r (c :: cs) out = .ok s ↔
          (c.type.accepts (r.get c.name) = true ∧ (c.notNull = true → (r.get c.name).isNull = false)) ∧
            t.fill r cs (out.set c.name (r.get c.name)) = .ok s := by
        simp only [fill]
        cases hnull : (r.get c.name).isNull <;> cases hneeded : c.notNull <;>
          cases haccepts : c.type.accepts (r.get c.name) <;> simp
      rw [hstep, ih, hset]
      · simp only [Takes, List.mem_cons, forall_eq_or_imp, List.map_cons, List.append_assoc,
          List.singleton_append, and_assoc]
      · simpa [Row.columns, hset] using hnodup

theorem storedRow_eq_ok {t : Table} (ht : t.WellFormed) {r s : Row} :
    t.storedRow r = .ok s ↔ (∀ c ∈ r.columns, c ∈ t.columnNames) ∧ Takes t.columns r ∧
      s.fields = t.columnNames.map (fun c => (c, r.get c)) := by
  unfold storedRow
  cases hfind : r.columns.find? (fun c => !t.hasColumn c) with
  | some c =>
      have hunknown : c ∉ t.columnNames := by
        have hc := List.find?_some hfind
        rw [← hasColumn_iff]
        simpa using hc
      have hmem := List.mem_of_find?_eq_some hfind
      simp only [reduceCtorEq, false_iff, not_and]
      exact fun h => absurd (h c hmem) hunknown
  | none =>
      have hknown : ∀ c ∈ r.columns, c ∈ t.columnNames := by
        intro c hc
        have hnot := List.find?_eq_none.1 hfind c hc
        rw [← hasColumn_iff]
        simpa using hnot
      have hnodup : (Row.empty.columns ++ t.columns.map Column.name).Nodup := ht.columns_nodup
      have hfields : t.columnNames.map (fun c => (c, r.get c)) =
          t.columns.map (fun c => (c.name, r.get c.name)) := List.map_map
      rw [hfields]
      exact (fill_eq_ok hnodup).trans (and_iff_right hknown).symm

theorem storedRow_holds {t : Table} (ht : t.WellFormed) {r s : Row} (h : t.storedRow r = .ok s) :
    t.Holds s ∧ ∀ c ∈ t.columnNames, s.get c = r.get c := by
  obtain ⟨-, htakes, hfields⟩ := (storedRow_eq_ok ht).1 h
  have hget : ∀ c ∈ t.columnNames, s.get c = r.get c := by
    intro c hc
    apply Row.get_of_mem
    rw [hfields]
    exact List.mem_map.2 ⟨c, hc, rfl⟩
  refine ⟨⟨?_, ?_⟩, hget⟩
  · rw [Row.columns, hfields, List.map_map]
    exact List.map_id _
  · intro c hc
    rw [hget c.name (List.mem_map.2 ⟨c, hc, rfl⟩)]
    exact htakes c hc

theorem ofRow_congr {t : Table} (ht : t.WellFormed) {r s : Row}
    (h : ∀ c ∈ t.columnNames, s.get c = r.get c) : Key.ofRow t s = Key.ofRow t r :=
  congrArg Key.mk (List.map_congr_left (fun c hc => h c (ht.key_columns c hc)))

theorem storedKey_eq_ok {t : Table} {k : Key} {bs : Bytes} : t.storedKey k = .ok bs ↔
    KeyFormat.encode t.name (k.values.zip (t.primaryKey.map KeyPart.desc)) = .ok bs :=
  Except.mapError_eq_ok

theorem length_ofRow (t : Table) (r : Row) :
    (Key.ofRow t r).values.length = (t.primaryKey.map KeyPart.desc).length := by
  simp [Key.ofRow, keyColumns]

end Table

theorem ColumnType.distinct_of_accepts {t : ColumnType} {v : Value} (h : t.accepts v = true) :
    v.Distinct := by
  have scalar : ∀ {v : Value}, v.isNull = true ∨ v.baseType? = some t.base → v.Distinct := by
    intro v hv
    cases v with
    | array items => simp [Value.isNull, Value.baseType?] at hv
    | struct fields => simp [Value.isNull, Value.baseType?] at hv
    | _ => trivial
  cases v with
  | array items =>
      simp only [accepts, Bool.and_eq_true, List.all_eq_true, Bool.or_eq_true, decide_eq_true_eq] at h
      obtain ⟨-, hitems⟩ := h
      show Value.ItemsDistinct items
      induction items with
      | nil => trivial
      | cons v vs ih =>
          exact ⟨scalar (hitems v List.mem_cons_self), ih (fun w hw => hitems w (List.mem_cons_of_mem _ hw))⟩
  | struct fields => simp [accepts, Value.baseType?] at h
  | _ => trivial

theorem Table.Holds.distinct {t : Table} {r : Row} (h : t.Holds r) : Value.FieldsDistinct r.fields := by
  have hfields : ∀ f ∈ r.fields, f.2.Distinct := by
    rintro ⟨c, v⟩ hf
    have hc : c ∈ t.columnNames := by
      rw [← h.columns]
      exact List.mem_map.2 ⟨_, hf, rfl⟩
    obtain ⟨col, hcol, rfl⟩ := List.mem_map.1 hc
    have haccepts := (h.takes col hcol).1
    rw [Row.get_of_mem hf] at haccepts
    exact ColumnType.distinct_of_accepts haccepts
  generalize r.fields = fs at hfields
  induction fs with
  | nil => trivial
  | cons f fs ih =>
      exact ⟨hfields f List.mem_cons_self, ih (fun g hg => hfields g (List.mem_cons_of_mem _ hg))⟩

def Row.onto (r : Row) : Option Row → Row
  | some stored => stored.merge r
  | none => r

theorem Row.get?_onto {r : Row} {c : String} (hc : c ∈ r.columns) (old : Option Row) :
    (r.onto old).get? c = some (r.get c) := by
  cases old with
  | none => exact Row.get?_of_mem hc
  | some stored => rw [onto, get?_merge, get?_of_mem hc, Option.some_or]

theorem decodeRow_of_store {t : Table} {r : Row} {v : Bytes} (h : t.Holds r)
    (hstore : RowFormat.store r = .ok v) : decodeRow v = .ok r := by
  obtain ⟨rfl, hlimit⟩ := RowFormat.store_eq_ok.1 hstore
  exact Except.mapError_eq_ok.2 (RowFormat.decode_encode h.distinct hlimit)

def Database.IsEntry (db : Database) (k v : Bytes) : Prop :=
  ∃ t ∈ db.tables, ∃ r, t.Holds r ∧ RowFormat.store r = .ok v ∧ t.storedKey (Key.ofRow t r) = .ok k

/-- Whether a store holds rows of the schema and nothing else. -/
def Database.Canonical (db : Database) (s : Store) : Prop :=
  ∀ e ∈ s.entries, db.IsEntry e.1 e.2

namespace Database

variable {db : Database} {t u : Table}

theorem WellFormed.storedKey_injective (h : db.WellFormed) (ht : t ∈ db.tables) (hu : u ∈ db.tables)
    {r s : Row} {k : Bytes} (hr : t.storedKey (Key.ofRow t r) = .ok k)
    (hs : u.storedKey (Key.ofRow u s) = .ok k) : t = u ∧ Key.ofRow t r = Key.ofRow u s := by
  rw [Table.storedKey_eq_ok] at hr hs
  obtain rfl := h.eq_of_name ht hu (KeyFormat.table_eq_of_prefix hr hs (List.prefix_refl k))
  obtain ⟨-, hvalues⟩ := KeyFormat.encode_injective hr hs (t.length_ofRow r).le (t.length_ofRow s).le
  exact ⟨rfl, congrArg Key.mk hvalues⟩

theorem Canonical.insert {s : Store} {k v : Bytes} (hs : db.Canonical s) (he : db.IsEntry k v) :
    db.Canonical (s.insert k v) := by
  rintro ⟨l, w⟩ hmem
  rcases SortedMap.mem_insert.1 hmem with ⟨rfl, rfl⟩ | ⟨-, hmem⟩
  · exact he
  · exact hs _ hmem

theorem Canonical.erase {s : Store} {k : Bytes} (hs : db.Canonical s) : db.Canonical (s.erase k) := by
  rintro ⟨l, w⟩ hmem
  exact hs _ (SortedMap.mem_erase.1 hmem).2

end Database

namespace Staging

variable {db : Database} {s s' : Staging} {t : Table}

theorem putRow_eq_ok {k : Bytes} {r : Row} :
    s.putRow k r = .ok s' ↔ ∃ v, RowFormat.store r = .ok v ∧ s.put k v = s' := by
  simp only [putRow, Except.bind_eq_ok, Except.mapError_eq_ok, Except.pure_ok, Except.ok.injEq]

theorem putRow_commit {k : Bytes} {r : Row} (h : s.putRow k r = .ok s') :
    ∃ v, RowFormat.store r = .ok v ∧ s'.commit = s.commit.insert k v := by
  obtain ⟨v, hv, rfl⟩ := putRow_eq_ok.1 h
  exact ⟨v, hv, s.commit_put k v⟩

theorem putRow_canonical {k : Bytes} {r : Row} (hs : db.Canonical s.commit) (ht : t ∈ db.tables)
    (hr : t.Holds r) (hk : t.storedKey (Key.ofRow t r) = .ok k) (h : s.putRow k r = .ok s') :
    db.Canonical s'.commit := by
  obtain ⟨v, hv, hcommit⟩ := putRow_commit h
  rw [hcommit]
  exact hs.insert ⟨t, ht, r, hr, hv, hk⟩

theorem ofRow_merge {t : Table} {r stored : Row} (h : Key.ofRow t stored = Key.ofRow t r) :
    Key.ofRow t (stored.merge r) = Key.ofRow t r := by
  have hkey : t.keyColumns.map stored.get = t.keyColumns.map r.get := congrArg Key.values h
  refine congrArg Key.mk (List.map_congr_left fun c hc => ?_)
  have hsame : stored.get c = r.get c := List.map_inj_left.1 hkey c hc
  rw [Row.get, Row.get?_merge]
  cases hr : r.get? c with
  | some v => simp [Row.get, hr]
  | none => simpa [Row.get, hr] using hsame

theorem ofRow_onto {t : Table} {r : Row} {old : Option Row}
    (h : ∀ stored, old = some stored → Key.ofRow t stored = Key.ofRow t r) :
    Key.ofRow t (r.onto old) = Key.ofRow t r := by
  cases old with
  | none => rfl
  | some stored => exact ofRow_merge (h stored rfl)

/-- Whether what is seen under a row's key reads as the given row, or is nothing if there is none. -/
def Shows (s : Staging) (t : Table) (r : Row) (old : Option Row) : Prop :=
  ∀ k, t.storedKey (Key.ofRow t r) = .ok k → (s.get? k).map decodeRow = old.map .ok

theorem exists_shows (hdb : db.WellFormed) (hs : db.Canonical s.commit) (ht : t ∈ db.tables) (r : Row) :
    ∃ old, s.Shows t r old ∧ ∀ stored, old = some stored → Key.ofRow t stored = Key.ofRow t r := by
  cases hkey : t.storedKey (Key.ofRow t r) with
  | error e =>
      refine ⟨none, fun k hk => ?_, by simp⟩
      rw [hkey] at hk
      cases hk
  | ok k =>
      cases hget : s.get? k with
      | none =>
          refine ⟨none, fun l hl => ?_, by simp⟩
          obtain rfl : k = l := Except.ok.inj (hkey.symm.trans hl)
          rw [hget, Option.map_none, Option.map_none]
      | some v =>
          have he : (k, v) ∈ s.commit.entries := by
            rwa [← SortedMap.find?_eq_some, find?_commit]
          obtain ⟨u, hu, stored, hholds, hstore, hstored⟩ := hs _ he
          obtain ⟨rfl, hsame⟩ := hdb.storedKey_injective hu ht hstored hkey
          refine ⟨some stored, fun l hl => ?_, fun _ h => Option.some.inj h ▸ hsame⟩
          obtain rfl : k = l := Except.ok.inj (hkey.symm.trans hl)
          rw [hget, Option.map_some, Option.map_some, decodeRow_of_store hholds hstore]

theorem insertRow_iff {r : Row} {old : Option Row} (ht : t.WellFormed) (hold : s.Shows t r old) :
    s.insertRow t r = .ok s' ↔ ∃ k, t.storedKey (Key.ofRow t r) = .ok k ∧ old = none ∧
      ∃ row, t.storedRow (r.onto old) = .ok row ∧ s.putRow k row = .ok s' := by
  have hkey {row : Row} (hrow : t.storedRow r = .ok row) : Key.ofRow t row = Key.ofRow t r :=
    Table.ofRow_congr ht (Table.storedRow_holds ht hrow).2
  simp only [insertRow, Except.bind_eq_ok]
  constructor
  · rintro ⟨row, hrow, k, hk, h⟩
    rw [hkey hrow] at hk
    have hshows := hold k hk
    cases hget : s.get? k with
    | some v =>
        rw [hget] at h
        cases h
    | none =>
        rw [hget] at h hshows
        obtain rfl : old = none := Option.map_eq_none_iff.1 hshows.symm
        exact ⟨k, hk, rfl, row, hrow, h⟩
  · rintro ⟨k, hk, rfl, row, hrow, h⟩
    have hget : s.get? k = none := Option.map_eq_none_iff.1 (hold k hk)
    refine ⟨row, hrow, k, (hkey hrow).symm ▸ hk, ?_⟩
    rw [hget]
    exact h

theorem insertRow_canonical {r : Row} (hdb : db.WellFormed) (hs : db.Canonical s.commit)
    (ht : t ∈ db.tables) (h : s.insertRow t r = .ok s') : db.Canonical s'.commit := by
  have htable := hdb.tables t ht
  obtain ⟨old, hshows, -⟩ := exists_shows hdb hs ht r
  obtain ⟨k, hk, rfl, row, hrow, hput⟩ := (insertRow_iff htable hshows).1 h
  obtain ⟨hholds, hget⟩ := Table.storedRow_holds htable hrow
  exact putRow_canonical hs ht hholds (Table.ofRow_congr htable hget ▸ hk) hput

theorem mergeRow_iff {mustExist : Bool} {r : Row} {old : Option Row} (hold : s.Shows t r old) :
    s.mergeRow t mustExist r = .ok s' ↔
      ∃ k, t.storedKey (Key.ofRow t r) = .ok k ∧ (mustExist = true → old ≠ none) ∧
        ∃ row, t.storedRow (r.onto old) = .ok row ∧ s.putRow k row = .ok s' := by
  rw [mergeRow, Except.bind_eq_ok]
  refine exists_congr fun k => and_congr_right fun hk => ?_
  have hshows := hold k hk
  cases old with
  | none =>
      rw [Option.map_eq_none_iff.1 hshows]
      cases mustExist <;> simp [Row.onto, Except.bind_eq_ok]
  | some stored =>
      obtain ⟨v, hget, hread⟩ := Option.map_eq_some_iff.1 hshows
      simp [hget, hread, Row.onto, Except.map, Except.bind_eq_ok]

/-- What a merge stores: a row with the given values under the key that these give, whatever
was stored there. -/
theorem mergeRow_eq_ok {mustExist : Bool} {r : Row} (hdb : db.WellFormed)
    (hs : db.Canonical s.commit) (ht : t ∈ db.tables) (h : s.mergeRow t mustExist r = .ok s') :
    ∃ row k v, t.Holds row ∧ Key.ofRow t row = Key.ofRow t r ∧
      (∀ c ∈ r.columns, row.get c = r.get c) ∧ t.storedKey (Key.ofRow t r) = .ok k ∧
      RowFormat.store row = .ok v ∧ s'.commit = s.commit.insert k v := by
  obtain ⟨old, hshows, hsame⟩ := exists_shows hdb hs ht r
  obtain ⟨k, hk, -, row, hrow, hput⟩ := (mergeRow_iff hshows).1 h
  have htable := hdb.tables t ht
  obtain ⟨hholds, hget⟩ := Table.storedRow_holds htable hrow
  obtain ⟨hknown, -⟩ := (Table.storedRow_eq_ok htable).1 hrow
  have hkey : Key.ofRow t row = Key.ofRow t r :=
    (Table.ofRow_congr htable hget).trans (ofRow_onto hsame)
  obtain ⟨v, hv, hcommit⟩ := putRow_commit hput
  refine ⟨row, k, v, hholds, hkey, fun c hc => ?_, hk, hv, hcommit⟩
  have hmerged := Row.get?_onto hc old
  rw [hget c (hknown c (Row.mem_columns_of_get? hmerged)), Row.get, hmerged, Option.getD_some]

theorem mergeRow_canonical {mustExist : Bool} {r : Row} (hdb : db.WellFormed)
    (hs : db.Canonical s.commit) (ht : t ∈ db.tables) (h : s.mergeRow t mustExist r = .ok s') :
    db.Canonical s'.commit := by
  obtain ⟨row, k, v, hrow, hkey, -, hk, hv, hcommit⟩ := mergeRow_eq_ok hdb hs ht h
  rw [hcommit]
  exact hs.insert ⟨t, ht, row, hrow, hv, hkey ▸ hk⟩

def removeBelow (db : Database) (depth : Nat) (t : Table) (k : Key) (s : Staging) (child : Table) :
    Except Error Staging := do
  let found := s.scan (← child.storedKey k)
  if found.isEmpty then return s
  else if child.interleave.any (·.onDelete = .cascade) then
    found.keys.foldlM (fun s bs => removeRow db depth s child bs) s
  else .error (.write (.hasRows t.name k child.name))

theorem removeRow_succ (db : Database) (depth : Nat) (s : Staging) (t : Table) (k : Bytes) :
    removeRow db (depth + 1) s t k =
      match s.get? k with
      | none => .ok s
      | some stored => do
        let r ← decodeRow stored
        let s ← (db.children t.name).foldlM (removeBelow db depth t (Key.ofRow t r)) s
        return s.delete k := rfl

theorem removeBelow_canonical {depth : Nat} {k : Key} {child : Table}
    (hremove : ∀ {s s' : Staging} {l : Bytes}, db.Canonical s.commit →
      removeRow db depth s child l = .ok s' → db.Canonical s'.commit)
    (hs : db.Canonical s.commit) (h : removeBelow db depth t k s child = .ok s') :
    db.Canonical s'.commit := by
  simp only [removeBelow, Except.bind_eq_ok] at h
  obtain ⟨p, -, h⟩ := h
  split at h
  · cases h
    exact hs
  · split at h
    · exact Except.foldlM_keeps (P := fun s : Staging => db.Canonical s.commit)
        (fun l _ s₁ s₂ hs₁ hrow => hremove hs₁ hrow) hs h
    · cases h

theorem removeRow_canonical {depth : Nat} {k : Bytes} (hs : db.Canonical s.commit)
    (h : removeRow db depth s t k = .ok s') : db.Canonical s'.commit := by
  induction depth generalizing s s' t k with
  | zero =>
      cases h
      rw [commit_delete]
      exact hs.erase
  | succ depth ih =>
      rw [removeRow_succ] at h
      split at h
      · cases h
        exact hs
      · simp only [Except.bind_eq_ok] at h
        obtain ⟨row, -, s₁, hchildren, h⟩ := h
        cases h
        rw [commit_delete]
        refine Database.Canonical.erase ?_
        exact Except.foldlM_keeps (P := fun s : Staging => db.Canonical s.commit)
          (fun child _ s₂ s₃ hs₂ hstep => removeBelow_canonical ih hs₂ hstep) hs hchildren

theorem applyOne_canonical {m : Mutation} (hdb : db.WellFormed) (hs : db.Canonical s.commit)
    (h : applyOne db s m = .ok s') : db.Canonical s'.commit := by
  simp only [applyOne, Except.bind_eq_ok] at h
  obtain ⟨t, ht, h⟩ := h
  have hmem : t ∈ db.tables := (Database.mem_of_table? (Database.getTable_eq_ok.1 ht)).1
  cases m with
  | insert table r => exact insertRow_canonical hdb hs hmem h
  | update table r => exact mergeRow_canonical hdb hs hmem h
  | upsert table r => exact mergeRow_canonical hdb hs hmem h
  | delete table keys =>
      simp only [Except.bind_eq_ok] at h
      obtain ⟨found, -, h⟩ := h
      exact Except.foldlM_keeps (P := fun s : Staging => db.Canonical s.commit)
        (fun k _ s₁ s₂ hs₁ hrow => removeRow_canonical hs₁ hrow) hs h

end Staging

namespace RowStore

theorem apply_canonical {rs rs' : RowStore} {ms : List Mutation} (hdb : rs.db.WellFormed)
    (hs : rs.db.Canonical rs.store) (h : rs.apply ms = .ok rs') :
    rs'.db = rs.db ∧ rs'.db.Canonical rs'.store := by
  simp only [apply, Except.bind_eq_ok, Except.pure_ok, Except.ok.injEq] at h
  obtain ⟨s, hs', rfl⟩ := h
  have hs₀ : rs.db.Canonical (Staging.ofStore rs.store).commit := hs
  exact ⟨rfl, Except.foldlM_keeps (P := fun s : Staging => rs.db.Canonical s.commit)
    (fun m _ s₁ s₂ hs₁ hone => Staging.applyOne_canonical hdb hs₁ hone) hs₀ hs'⟩

/-- What writes have made of an empty store over a schema that statements have built. A write
that fails leaves the store as it is. -/
inductive Reachable : RowStore → Prop
  | ofDatabase {db : Database} : db.Reachable → Reachable (.ofDatabase db)
  | apply {rs rs' : RowStore} {ms : List Mutation} :
      Reachable rs → rs.apply ms = .ok rs' → Reachable rs'

theorem Reachable.invariant {rs : RowStore} (h : rs.Reachable) :
    rs.db.WellFormed ∧ rs.db.Canonical rs.store := by
  induction h with
  | ofDatabase hdb => exact ⟨hdb.wellFormed, fun e he => absurd he List.not_mem_nil⟩
  | apply _ happly ih =>
      obtain ⟨hdb, hs⟩ := ih
      obtain ⟨heq, hcanonical⟩ := apply_canonical hdb hs happly
      exact ⟨heq ▸ hdb, hcanonical⟩

theorem Reachable.wellFormed {rs : RowStore} (h : rs.Reachable) : rs.db.WellFormed := h.invariant.1

theorem Reachable.canonical {rs : RowStore} (h : rs.Reachable) : rs.db.Canonical rs.store :=
  h.invariant.2

theorem reachable_getD {db : Database} (h : db.Reachable) (ms : List Mutation) :
    (((ofDatabase db).apply ms).toOption.getD (.ofDatabase db)).Reachable := by
  cases happly : (ofDatabase db).apply ms with
  | error e => exact .ofDatabase h
  | ok rs => exact .apply (.ofDatabase h) happly

end RowStore

end RowForest
