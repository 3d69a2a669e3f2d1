import RowForest.Proofs.Schema.Forest
import RowForest.Proofs.Schema.References

namespace RowForest

def Alteration.undo? : Alteration → Option Alteration
  | .addColumn c => some (.dropColumn c.name)
  | .addConstraint c => c.name.map .dropConstraint
  | .addPolicy _ => some .dropPolicy
  | _ => none

def Definition.undo? : Definition → Option Definition
  | .createTable t => some (.dropTable t.name)
  | .alterTable name a => a.undo?.map (.alterTable name)
  | .createIndex index => some (.dropIndex index.name)
  | .dropTable _ | .dropIndex _ => none

section

variable {α : Type} {p : α → Bool} {as : List α} {a : α}

theorem findIdx?_concat (has : ∀ b ∈ as, p b = false) (ha : p a = true) :
    (as ++ [a]).findIdx? p = some as.length := by
  rw [List.findIdx?_append, List.findIdx?_eq_none_iff.2 has]
  simp [ha]

theorem eraseIdx_concat (as : List α) (a : α) : (as ++ [a]).eraseIdx as.length = as := by
  rw [List.eraseIdx_append_of_length_le (Nat.le_refl _)]
  simp

end

namespace Table

variable {t u : Table} {a b : Alteration}

/-- Keys, policies and token columns name columns that the table has, so none of them needs the new one. -/
theorem WellFormed.dropColumn_concat (ht : t.WellFormed) {c : Column} (hc : c.name ∉ t.columnNames) :
    { t with columns := t.columns ++ [c] }.dropColumn c.name = .ok t := by
  have hindex : (t.columns ++ [c]).findIdx? (·.name = c.name) = some t.columns.length :=
    findIdx?_concat (fun d hd => decide_eq_false fun hname => hc (List.mem_map.2 ⟨d, hd, hname⟩))
      (decide_eq_true rfl)
  have hkey : t.primaryKey.any (·.column = c.name) = false := by
    refine List.any_eq_false.2 fun part hpart hname => hc ?_
    exact ht.key_columns _ (List.mem_map.2 ⟨part, hpart, of_decide_eq_true hname⟩)
  have hpolicy : t.deletionPolicy.any (·.column = c.name) = false := by
    rw [Option.any_eq_false]
    exact fun p hp => decide_eq_false fun hname => hc (hname ▸ ht.policy_column p hp)
  simp [dropColumn, columnIndex?, isKeyColumn, hindex, hkey, hpolicy, eraseIdx_concat]

theorem addConstraint_eq_ok {c : Constraint} {name : String} (hname : c.name = some name)
    (h : t.addConstraint c = .ok u) :
    t.hasConstraint name = false ∧ u = { t with constraints := t.constraints ++ [c] } := by
  simp only [addConstraint, hname] at h
  split at h
  · cases h
  · next hfresh => exact ⟨eq_false_of_ne_true hfresh, (Except.ok.inj h).symm⟩

theorem dropConstraint_concat {c : Constraint} {name : String} (hname : c.name = some name)
    (hfresh : t.hasConstraint name = false) :
    { t with constraints := t.constraints ++ [c] }.dropConstraint name = .ok t := by
  have hindex : (t.constraints ++ [c]).findIdx? (·.name = some name) = some t.constraints.length :=
    findIdx?_concat (fun d hd => by simpa using List.any_eq_false.1 hfresh d hd) (decide_eq_true hname)
  simp [dropConstraint, hindex, eraseIdx_concat]

theorem setPolicy_eq_ok {expected : Bool} {p : Option DeletionPolicy} :
    t.setPolicy expected p = .ok u ↔
      t.deletionPolicy.isSome = expected ∧ u = { t with deletionPolicy := p } := by
  unfold setPolicy
  split <;> simp_all [eq_comm]

theorem WellFormed.change_undo (ht : t.WellFormed) (hundo : a.undo? = some b) (h : t.change a = .ok u) :
    u.change b = .ok t := by
  cases a with
  | addColumn c =>
      cases hundo
      rw [change] at h
      split at h
      · cases h
      · next hfresh =>
        cases h
        exact ht.dropColumn_concat fun hmem => hfresh ((t.hasColumn_iff c.name).2 hmem)
  | addConstraint c =>
      obtain ⟨name, hname, rfl⟩ := Option.map_eq_some_iff.1 hundo
      obtain ⟨hfresh, rfl⟩ := addConstraint_eq_ok hname h
      exact dropConstraint_concat hname hfresh
  | addPolicy p =>
      cases hundo
      obtain ⟨hnone, rfl⟩ := setPolicy_eq_ok.1 h
      refine setPolicy_eq_ok.2 ⟨rfl, ?_⟩
      rw [Option.isSome_eq_false_iff, Option.isNone_iff_eq_none] at hnone
      rw [← hnone]
  | _ => cases hundo

theorem WellFormed.alter_undo (ht : t.WellFormed) (hundo : a.undo? = some b) (h : t.alter a = .ok u) :
    u.alter b = .ok t :=
  alter_eq_ok.2 ⟨ht.change_undo hundo (alter_eq_ok.1 h).1, ht⟩

end Table

namespace Database

variable {db db' : Database} {t : Table} {a b : Alteration} {d u : Definition} {ds us : List Definition}

theorem WellFormed.children_eq_nil_of_not_mem (h : db.WellFormed) {name : String}
    (hname : name ∉ db.tables.map Table.name) : db.children name = [] := by
  rw [List.eq_nil_iff_forall_not_mem]
  intro c hc
  obtain ⟨p, hp, rfl, -⟩ := h.parent?_of_mem_children hc
  exact hname (List.mem_map.2 ⟨p, mem_of_parent? hp, rfl⟩)

theorem WellFormed.table_mem_of_mem_indexes (h : db.WellFormed) {i : Index} (hi : i ∈ db.indexes) :
    i.table ∈ db.tables.map Table.name := by
  obtain ⟨t, ht, hname, -⟩ := h.indexes i hi
  exact List.mem_map.2 ⟨t, ht, hname⟩

theorem WellFormed.bare_of_createTable (h : db.WellFormed) (hcreate : db.createTable t = .ok db') :
    db'.children t.name = [] ∧ db'.indexesOf t.name = [] := by
  obtain ⟨hfresh, -, hparent, -, rfl⟩ := createTable_eq_ok hcreate
  constructor
  · have hself : t.parentName? ≠ some t.name := by
      intro hself
      obtain ⟨p, hp, hname, -⟩ := hparent t.name hself
      exact hfresh (List.mem_map.2 ⟨p, hp, hname⟩)
    have hchildren := h.children_eq_nil_of_not_mem hfresh
    rw [children] at hchildren ⊢
    rw [List.filter_append, hchildren, List.nil_append, List.filter_singleton]
    simp [hself]
  · refine List.filter_eq_nil_iff.2 fun i hi hname => hfresh ?_
    exact of_decide_eq_true hname ▸ h.table_mem_of_mem_indexes hi

theorem WellFormed.createTable_undo (h : db.WellFormed) (hcreate : db.createTable t = .ok db') :
    db'.dropTable t.name = .ok db := by
  obtain ⟨hchildren, hindexes⟩ := h.bare_of_createTable hcreate
  obtain ⟨hfresh, -, -, -, rfl⟩ := createTable_eq_ok hcreate
  have hindex : (db.tables ++ [t]).findIdx? (·.name = t.name) = some db.tables.length :=
    findIdx?_concat (fun u hu => decide_eq_false fun hname => hfresh (List.mem_map.2 ⟨u, hu, hname⟩))
      (decide_eq_true rfl)
  have hkept : db.indexes.filter (·.table != t.name) = db.indexes := by
    refine List.filter_eq_self.2 fun i hi => bne_iff_ne.2 fun hname => hfresh ?_
    exact hname ▸ h.table_mem_of_mem_indexes hi
  simp [Database.dropTable, hindex, hchildren, hkept, eraseIdx_concat]

theorem createIndex_undo {index : Index} (hcreate : db.createIndex index = .ok db') :
    db'.dropIndex index.name = .ok db := by
  obtain ⟨hfresh, -, -, rfl⟩ := createIndex_eq_ok hcreate
  have hindex : (db.indexes ++ [index]).findIdx? (·.name = index.name) = some db.indexes.length :=
    findIdx?_concat (fun i hi => decide_eq_false fun hname => hfresh (List.mem_map.2 ⟨i, hi, hname⟩))
      (decide_eq_true rfl)
  simp [dropIndex, hindex, eraseIdx_concat]

theorem WellFormed.alterTable_eq (h : db.WellFormed) {i : Nat} {u : Table} (ht : db.tables[i]? = some t)
    (hcheck : db.checkAlteration t.name a = .ok ()) (halter : t.alter a = .ok u) :
    db.alterTable t.name a = .ok { db with tables := db.tables.set i u } := by
  have hindex : db.tables.findIdx? (·.name = t.name) = some i :=
    List.findIdx?_eq_some_iff_findIdx_eq.2 ⟨(List.getElem?_eq_some_iff.1 ht).1, h.position_eq ht⟩
  have htable : db.table? t.name = some t := h.table?_eq_some.2 ⟨List.mem_of_getElem? ht, rfl⟩
  rw [Database.alterTable, hindex, htable]
  simp [hcheck, halter]

/-- Indexes are on columns that their table has, so none is on the new column. -/
theorem WellFormed.checkAlteration_undo (h : db.WellFormed) (ht : t ∈ db.tables) {u : Table}
    (hundo : a.undo? = some b) (hchange : t.change a = .ok u) (ts : List Table) :
    { db with tables := ts }.checkAlteration t.name b = .ok () := by
  cases a with
  | addColumn c =>
      cases hundo
      have hfresh : c.name ∉ t.columnNames := by
        intro hmem
        simp [Table.change, (t.hasColumn_iff c.name).2 hmem] at hchange
      have hnone : (indexesOf { db with tables := ts } t.name).find? (·.mentions c.name) = none := by
        refine List.find?_eq_none.2 fun i hi hmentions => hfresh ?_
        obtain ⟨hi, htable⟩ := List.mem_filter.1 hi
        obtain ⟨v, hv, hname, hcolumns⟩ := h.indexes i hi
        obtain rfl := h.eq_of_name hv ht (hname.trans (of_decide_eq_true htable))
        refine hcolumns _ ?_
        simpa [Index.mentions] using hmentions
      rw [checkAlteration, hnone]
  | addConstraint c =>
      obtain ⟨name, -, rfl⟩ := Option.map_eq_some_iff.1 hundo
      rfl
  | addPolicy p =>
      cases hundo
      rfl
  | _ => cases hundo

theorem WellFormed.alterTable_undo (h : db.WellFormed) {name : String} (hundo : a.undo? = some b)
    (halter : db.alterTable name a = .ok db') : db'.alterTable name b = .ok db := by
  have hdb' := h.alterTable halter
  obtain ⟨i, t, u, ht, rfl, -, hchange, hu, rfl⟩ := alterTable_eq_ok halter
  have hmem := List.mem_of_getElem? ht
  have hself : (db.tables.set i u)[i]? = some u :=
    List.getElem?_set_self (List.getElem?_eq_some_iff.1 ht).1
  have hname : u.name = t.name := (Table.change_keeps hchange).name
  have hcheck := h.checkAlteration_undo hmem hundo hchange (db.tables.set i u)
  have hback := (h.tables t hmem).alter_undo hundo (Table.alter_eq_ok.2 ⟨hchange, hu⟩)
  rw [← hname, hdb'.alterTable_eq hself (hname ▸ hcheck) hback, List.set_set]
  obtain ⟨hlt, rfl⟩ := List.getElem?_eq_some_iff.1 ht
  rw [List.set_getElem_self]

theorem WellFormed.define_undo (h : db.WellFormed) (hundo : d.undo? = some u)
    (hdefine : db.define d = .ok db') : db'.define u = .ok db := by
  have happly : db.apply d = .ok db' := Except.mapError_eq_ok.1 hdefine
  refine Except.mapError_eq_ok.2 ?_
  cases d with
  | createTable t =>
      cases hundo
      exact h.createTable_undo happly
  | alterTable name a =>
      obtain ⟨b, hb, rfl⟩ := Option.map_eq_some_iff.1 hundo
      exact h.alterTable_undo hb happly
  | createIndex index =>
      cases hundo
      exact createIndex_undo happly
  | dropTable name | dropIndex name => cases hundo

theorem defineAll_cons_eq_ok : db.defineAll (d :: ds) = (db', .ok ()) ↔
    ∃ mid, db.define d = .ok mid ∧ mid.defineAll ds = (db', .ok ()) := by
  rw [defineAll]
  cases db.define d <;> simp

theorem defineAll_append_eq_ok {es : List Definition} : db.defineAll (ds ++ es) = (db', .ok ()) ↔
    ∃ mid, db.defineAll ds = (mid, .ok ()) ∧ mid.defineAll es = (db', .ok ()) := by
  induction ds generalizing db with
  | nil => simp [defineAll]
  | cons d ds ih =>
      simp only [List.cons_append, defineAll_cons_eq_ok, ih]
      constructor
      · rintro ⟨first, hd, mid, hds, hes⟩
        exact ⟨mid, ⟨first, hd, hds⟩, hes⟩
      · rintro ⟨mid, ⟨first, hd, hds⟩, hes⟩
        exact ⟨first, hd, mid, hds, hes⟩

theorem WellFormed.defineAll_undo (h : db.WellFormed) (hundo : List.Forall₂ (fun d u => d.undo? = some u) ds us)
    (hdefine : db.defineAll ds = (db', .ok ())) : db'.defineAll us.reverse = (db, .ok ()) := by
  induction hundo generalizing db with
  | nil =>
      cases hdefine
      rfl
  | cons hu _ ih =>
      obtain ⟨mid, hd, hds⟩ := defineAll_cons_eq_ok.1 hdefine
      rw [List.reverse_cons, defineAll_append_eq_ok]
      refine ⟨mid, ih (h.define hd) hds, ?_⟩
      exact defineAll_cons_eq_ok.2 ⟨db, h.define_undo hu hd, rfl⟩

/-- Dropping undoes creating, one statement or any number of them. -/
theorem Reachable.undo_define (h : db.Reachable) :
    (∀ d u db', d.undo? = some u → db.define d = .ok db' → db'.define u = .ok db) ∧
      (∀ ds us db', List.Forall₂ (fun d u => d.undo? = some u) ds us →
        db.defineAll ds = (db', .ok ()) → db'.defineAll us.reverse = (db, .ok ())) ∧
      ∀ t db', db.define (.createTable t) = .ok db' →
        db'.children t.name = [] ∧ db'.indexesOf t.name = [] :=
  ⟨fun _ _ _ => h.wellFormed.define_undo, fun _ _ _ => h.wellFormed.defineAll_undo,
    fun _ _ hdefine => h.wellFormed.bare_of_createTable (Except.mapError_eq_ok.1 hdefine)⟩

end Database

namespace Atlas

def emptied : Database :=
  Database.empty.run [.createTable countries, .createTable cities, .createIndex byCountry, .dropTable "City"]

def name : Column := ⟨"name", .scalar .string, false, none, none, false⟩

def nameTokens : Column := ⟨"name_tokens", .scalar .string, false, none, some "name", true⟩

def founded : Column := ⟨"founded", .scalar .timestamp, false, none, none, false⟩

def additions : List Definition := [.createTable cities, .createIndex byCountry,
  .alterTable "City" (.addColumn name), .alterTable "City" (.addColumn nameTokens),
  .alterTable "City" (.addConstraint ⟨some "Named", .check "name != ''"⟩),
  .alterTable "City" (.addColumn founded), .alterTable "City" (.addPolicy ⟨"founded", 30⟩)]

def removals : List Definition := [.dropTable "City", .dropIndex "CityByCountry",
  .alterTable "City" (.dropColumn "name"), .alterTable "City" (.dropColumn "name_tokens"),
  .alterTable "City" (.dropConstraint "Named"), .alterTable "City" (.dropColumn "founded"),
  .alterTable "City" .dropPolicy]

end Atlas

theorem Database.undo_define_sample : Atlas.emptied.Reachable ∧
    ∃ first db, Atlas.emptied.define (.createTable Atlas.cities) = .ok first ∧
      first.define (.dropTable "City") = .ok Atlas.emptied ∧ first.indexesOf "City" = [] ∧
      Atlas.emptied.defineAll Atlas.additions = (db, .ok ()) ∧
      db.defineAll Atlas.removals.reverse = (Atlas.emptied, .ok ()) := by
  have hdb : Atlas.emptied.Reachable := ⟨_, rfl⟩
  obtain ⟨hone, hall, hbare⟩ := Reachable.undo_define hdb
  have hcreate : Atlas.emptied.define (.createTable Atlas.cities) =
      .ok ⟨[Atlas.countries, Atlas.cities], []⟩ := rfl
  have hadd : Atlas.emptied.defineAll Atlas.additions =
      ((Atlas.emptied.defineAll Atlas.additions).1, .ok ()) := rfl
  have hundo : List.Forall₂ (fun d u => d.undo? = some u) Atlas.additions Atlas.removals :=
    .cons rfl (.cons rfl (.cons rfl (.cons rfl (.cons rfl (.cons rfl (.cons rfl .nil))))))
  exact ⟨hdb, _, _, hcreate, hone _ _ _ rfl hcreate, (hbare _ _ hcreate).2, hadd, hall _ _ _ hundo hadd⟩

end RowForest
