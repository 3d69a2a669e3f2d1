import Mathlib.Data.List.Induction
import RowForest.Proofs.Schema.Forest

namespace RowForest

def Constraint.target? (c : Constraint) : Option String :=
  match c.kind with
  | .foreignKey _ table _ => some table
  | .check _ => none

def Table.references (t : Table) : List String := t.constraints.filterMap Constraint.target?

theorem Table.change_references {t u : Table} {a : Alteration} (h : t.change a = .ok u) {name : String}
    (hname : name ∈ u.references) :
    name ∈ t.references ∨ ∃ c, a = .addConstraint c ∧ c.target? = some name := by
  have keep (hconstraints : u.constraints = t.constraints) : name ∈ t.references := by
    rwa [references, hconstraints] at hname
  cases a with
  | addColumn c =>
      simp only [change] at h
      split at h
      · cases h
      · cases h
        exact .inl (keep rfl)
  | setType column type notNull | setOptions column allow =>
      simp only [change, modifyColumn] at h
      split at h
      · cases h
      · cases h
        exact .inl (keep rfl)
  | dropColumn column =>
      simp only [change, dropColumn] at h
      split at h
      · cases h
      · split at h
        · cases h
        · split at h
          · cases h
          · cases h
            exact .inl (keep rfl)
  | setOnDelete action =>
      simp only [change, setOnDelete] at h
      split at h
      · cases h
        exact .inl (keep rfl)
      · cases h
  | addConstraint c =>
      have hadded : u = { t with constraints := t.constraints ++ [c] } := by
        simp only [change, addConstraint] at h
        split at h
        · split at h
          · cases h
          · exact (Except.ok.inj h).symm
        · exact (Except.ok.inj h).symm
      rw [hadded, references, List.filterMap_append, List.mem_append] at hname
      refine hname.imp_right fun hc => ⟨c, rfl, ?_⟩
      obtain ⟨d, hd, htarget⟩ := List.mem_filterMap.1 hc
      rwa [List.mem_singleton.1 hd] at htarget
  | dropConstraint constraint =>
      simp only [change, dropConstraint] at h
      split at h
      · cases h
        exact .inl (((List.eraseIdx_sublist _ _).filterMap _).subset hname)
      · cases h
  | addPolicy p | replacePolicy p | dropPolicy =>
      simp only [change, setPolicy] at h
      split at h
      · cases h
        exact .inl (keep rfl)
      · cases h

namespace Database

variable {db db' : Database} {name : String}

def references (db : Database) : List String :=
  db.tables.flatMap Table.references ++ db.indexes.filterMap Index.interleave

/-- Whether something refers to a table of this name, and there is none. -/
def Dangles (db : Database) (name : String) : Prop :=
  name ∈ db.references ∧ name ∉ db.tables.map Table.name

instance : Decidable (db.Dangles name) := inferInstanceAs (Decidable (_ ∧ _))

theorem mem_references : name ∈ db.references ↔
    (∃ t ∈ db.tables, name ∈ t.references) ∨ ∃ i ∈ db.indexes, i.interleave = some name := by
  rw [references, List.mem_append, List.mem_flatMap, List.mem_filterMap]

theorem target_exists {table : String} {c : Constraint} (h : db.checkReference table c = .ok ())
    (hname : c.target? = some name) : name = table ∨ name ∈ db.tables.map Table.name := by
  unfold checkReference at h
  unfold Constraint.target? at hname
  cases hkind : c.kind with
  | check condition => simp [hkind] at hname
  | foreignKey columns ref refColumns =>
      obtain rfl : ref = name := by simpa [hkind] using hname
      by_cases hself : ref = table
      · exact .inl hself
      · by_cases hsome : (db.table? ref).isSome = true
        · exact .inr (table?_isSome_iff.1 hsome)
        · simp [hkind, hself, hsome] at h

theorem Dangles.of_createTable {t : Table} (h : db.createTable t = .ok db') (hname : db'.Dangles name) :
    db.Dangles name := by
  obtain ⟨-, -, -, hrefs, rfl⟩ := createTable_eq_ok h
  obtain ⟨href, hmissing⟩ := hname
  rw [List.map_append, List.mem_append, not_or] at hmissing
  refine ⟨mem_references.2 ?_, hmissing.1⟩
  refine (mem_references.1 href).imp_left fun ⟨u, hu, hmem⟩ => ?_
  rcases List.mem_append.1 hu with hu | hu
  · exact ⟨u, hu, hmem⟩
  · obtain rfl := List.mem_singleton.1 hu
    obtain ⟨c, hc, htarget⟩ := List.mem_filterMap.1 hmem
    rcases target_exists (hrefs c hc) htarget with rfl | hexists
    · exact absurd (List.mem_singleton.2 rfl) hmissing.2
    · exact absurd hexists hmissing.1

theorem Dangles.of_alterTable {table : String} {a : Alteration} (h : db.alterTable table a = .ok db')
    (hname : db'.Dangles name) : db.Dangles name := by
  obtain ⟨k, t, u, ht, rfl, hcheck, hchange, -, rfl⟩ := alterTable_eq_ok h
  obtain ⟨href, hmissing⟩ := hname
  have hmem : t ∈ db.tables := List.mem_of_getElem? ht
  rw [names_set ht (Table.change_keeps hchange).name] at hmissing
  refine ⟨mem_references.2 ?_, hmissing⟩
  refine (mem_references.1 href).imp_left fun ⟨v, hv, hv'⟩ => ?_
  rcases List.mem_or_eq_of_mem_set hv with hv | rfl
  · exact ⟨v, hv, hv'⟩
  · rcases Table.change_references hchange hv' with ht' | ⟨c, rfl, htarget⟩
    · exact ⟨t, hmem, ht'⟩
    · rcases target_exists hcheck htarget with rfl | hexists
      · exact absurd (List.mem_map.2 ⟨t, hmem, rfl⟩) hmissing
      · exact absurd hexists hmissing

theorem Dangles.of_dropTable {table : String} (h : db.dropTable table = .ok db')
    (hname : db'.Dangles name) : db.Dangles name ∨ name = table := by
  obtain ⟨k, t, ht, rfl, -, rfl⟩ := dropTable_eq_ok h
  obtain ⟨href, hmissing⟩ := hname
  by_cases hdropped : name = t.name
  · exact .inr hdropped
  · refine .inl ⟨mem_references.2 ?_, fun hmem => hmissing ?_⟩
    · rcases mem_references.1 href with ⟨u, hu, hmem⟩ | ⟨i, hi, hmem⟩
      · exact .inl ⟨u, (List.eraseIdx_sublist _ _).subset hu, hmem⟩
      · exact .inr ⟨i, (List.mem_filter.1 hi).1, hmem⟩
    · obtain ⟨u, hu, rfl⟩ := List.mem_map.1 hmem
      obtain ⟨j, hj⟩ := List.getElem?_of_mem hu
      refine List.mem_map.2 ⟨u, List.mem_eraseIdx_iff_getElem?.2 ⟨j, ?_, hj⟩, rfl⟩
      rintro rfl
      rw [ht] at hj
      exact hdropped (congrArg Table.name (Option.some.inj hj)).symm

theorem Dangles.of_createIndex {index : Index} (h : db.createIndex index = .ok db')
    (hname : db'.Dangles name) : db.Dangles name := by
  obtain ⟨-, -, hinterleave, rfl⟩ := createIndex_eq_ok h
  obtain ⟨href, hmissing⟩ := hname
  refine ⟨mem_references.2 ?_, hmissing⟩
  refine (mem_references.1 href).imp_right fun ⟨i, hi, htarget⟩ => ?_
  rcases List.mem_append.1 hi with hi | hi
  · exact ⟨i, hi, htarget⟩
  · obtain rfl := List.mem_singleton.1 hi
    exact absurd (table?_isSome_iff.1 (hinterleave name htarget)) hmissing

theorem Dangles.of_dropIndex {index : String} (h : db.dropIndex index = .ok db')
    (hname : db'.Dangles name) : db.Dangles name := by
  obtain ⟨k, rfl⟩ := dropIndex_eq_ok h
  obtain ⟨href, hmissing⟩ := hname
  refine ⟨mem_references.2 ?_, hmissing⟩
  refine (mem_references.1 href).imp_right fun ⟨i, hi, htarget⟩ => ?_
  exact ⟨i, (List.eraseIdx_sublist _ _).subset hi, htarget⟩

/-- Only dropping its target makes a reference dangle. -/
theorem Dangles.of_define {d : Definition} (h : db.define d = .ok db') (hname : db'.Dangles name) :
    db.Dangles name ∨ d = .dropTable name := by
  have happly : db.apply d = .ok db' := Except.mapError_eq_ok.1 h
  cases d with
  | createTable t => exact .inl (hname.of_createTable happly)
  | alterTable table a => exact .inl (hname.of_alterTable happly)
  | dropTable table => exact (hname.of_dropTable happly).imp_right fun h => by rw [h]
  | createIndex index => exact .inl (hname.of_createIndex happly)
  | dropIndex index => exact .inl (hname.of_dropIndex happly)

theorem run_append (db : Database) (ds es : List Definition) :
    db.run (ds ++ es) = (db.run ds).run es := by
  induction ds generalizing db with
  | nil => rfl
  | cons d ds ih =>
      rw [List.cons_append, run, run]
      cases db.define d with
      | ok db' => exact ih db'
      | error e => exact ih db

/-- Since when a reference dangles: an accepted statement dropped its target, and from then on it
was there and its target was not. -/
def DanglesSince (db : Database) (ds : List Definition) (name : String) : Prop :=
  ∃ (before after : List Definition) (db' : Database), ds = before ++ .dropTable name :: after ∧
    (db.run before).define (.dropTable name) = .ok db' ∧ ∀ mid, mid <+: after → (db'.run mid).Dangles name

theorem DanglesSince.dangles {ds : List Definition} (h : db.DanglesSince ds name) :
    (db.run ds).Dangles name := by
  obtain ⟨before, after, db', rfl, hdrop, hdangles⟩ := h
  rw [run_append, run, hdrop]
  exact hdangles after (List.prefix_refl after)

theorem DanglesSince.append {ds : List Definition} {d : Definition} (h : db.DanglesSince ds name)
    (hname : (db.run (ds ++ [d])).Dangles name) : db.DanglesSince (ds ++ [d]) name := by
  obtain ⟨before, after, db', rfl, hdrop, hdangles⟩ := h
  refine ⟨before, after ++ [d], db', by simp, hdrop, fun mid hmid => ?_⟩
  rcases List.prefix_concat_iff.1 hmid with rfl | hmid
  · rwa [List.append_assoc, List.cons_append, run_append, run, hdrop] at hname
  · exact hdangles mid hmid

theorem danglesSince_of_run (ds : List Definition) (hname : (empty.run ds).Dangles name) :
    empty.DanglesSince ds name := by
  induction ds using List.reverseRecOn with
  | nil => simp [run, empty, Dangles, references] at hname
  | append_singleton ds d ih =>
      have hrun : empty.run (ds ++ [d]) = (empty.run ds).run [d] := run_append empty ds [d]
      cases hdefine : (empty.run ds).define d with
      | error e =>
          have hsame : empty.run (ds ++ [d]) = empty.run ds := by rw [hrun, run, hdefine]; rfl
          exact (ih (hsame ▸ hname)).append hname
      | ok db' =>
          have hnext : empty.run (ds ++ [d]) = db' := by rw [hrun, run, hdefine]; rfl
          rcases Dangles.of_define hdefine (hnext ▸ hname) with hbefore | rfl
          · exact (ih hbefore).append hname
          · refine ⟨ds, [], db', rfl, hdefine, fun mid hmid => ?_⟩
            obtain rfl := List.prefix_nil.1 hmid
            exact hnext ▸ hname

/-- Creating and altering refuse references without a target, so that none dangles but those whose
target has since been dropped. Dropping looks at the tables interleaved in the dropped one and not
at the references to it. -/
theorem run_dangles_iff (ds : List Definition) (name : String) :
    ((empty.run ds).Dangles name ↔ empty.DanglesSince ds name) ∧
      ∀ d db', (empty.run ds).define d = .ok db' → db'.Dangles name →
        (empty.run ds).Dangles name ∨ d = .dropTable name :=
  ⟨⟨danglesSince_of_run ds, DanglesSince.dangles⟩, fun _ _ h hname => hname.of_define h⟩

end Database

namespace Atlas

def countries : Table where
  name := "Country"
  columns := [⟨"id", .scalar .int64, true, none, none, false⟩]
  primaryKey := [⟨"id", false⟩]

def cities : Table where
  name := "City"
  columns := [⟨"id", .scalar .int64, true, none, none, false⟩,
    ⟨"country", .scalar .int64, false, none, none, false⟩]
  primaryKey := [⟨"id", false⟩]
  constraints := [⟨some "FK_Country", .foreignKey ["country"] "Country" ["id"]⟩]

def byCountry : Index where
  name := "CityByCountry"
  table := "City"
  columns := [⟨"country", false⟩]
  interleave := some "Country"

def statements : List Definition :=
  [.createTable countries, .createTable cities, .createIndex byCountry, .dropTable "Country"]

end Atlas

/-- A table can be dropped while a foreign key and an index of another one refer to it. -/
theorem Database.run_dangles_country :
    (empty.defineAll Atlas.statements).1 = ⟨[Atlas.cities], [Atlas.byCountry]⟩ ∧
      empty.run Atlas.statements = ⟨[Atlas.cities], [Atlas.byCountry]⟩ ∧
      (empty.run Atlas.statements).Dangles "Country" := by
  decide

end RowForest
