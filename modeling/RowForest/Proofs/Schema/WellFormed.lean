import RowForest.Schema.Database
import RowForest.Proofs.Outcome

namespace RowForest

namespace Table

/-- What holds of a table on its own: names are distinct, and whatever names a column
names one that the table has. -/
structure WellFormed (t : Table) : Prop where
  columns_nodup : t.columnNames.Nodup
  constraints_nodup : (t.constraints.filterMap Constraint.name).Nodup
  key_columns : ∀ c ∈ t.keyColumns, c ∈ t.columnNames
  policy_column : ∀ p ∈ t.deletionPolicy, p.column ∈ t.columnNames
  token_sources : ∀ c ∈ t.columns, ∀ source ∈ c.tokensOf, source ∈ t.columnNames

theorem hasColumn_iff (t : Table) (name : String) : t.hasColumn name = true ↔ name ∈ t.columnNames := by
  simp [hasColumn, column?, columnNames, List.find?_isSome]

theorem WellFormed.exists_column? {t : Table} (ht : t.WellFormed) {c : String} (hc : c ∈ t.keyColumns) :
    ∃ column, t.column? c = some column :=
  Option.isSome_iff_exists.1 ((t.hasColumn_iff c).2 (ht.key_columns c hc))

theorem checkNamed_eq_ok (t : Table) (names : List String) :
    t.checkNamed names = .ok () ↔ ∀ c ∈ names, c ∈ t.columnNames := by
  induction names with
  | nil => simp [checkNamed]
  | cons c cs ih =>
      by_cases hc : t.hasColumn c = true
      · simp [checkNamed, hc, ih, (t.hasColumn_iff c).1 hc]
      · have hc' : c ∉ t.columnNames := fun h => hc ((t.hasColumn_iff c).2 h)
        simp [checkNamed, hc, hc']

theorem checkColumns_eq_ok (t : Table) (seen : List String) (cs : List Column) :
    t.checkColumns seen cs = .ok () ↔
      (cs.map Column.name).Nodup ∧ (∀ c ∈ cs, c.name ∉ seen) ∧
        ∀ c ∈ cs, ∀ source ∈ c.tokensOf, source ∈ t.columnNames := by
  induction cs generalizing seen with
  | nil => simp [checkColumns]
  | cons c cs ih =>
      by_cases hc : c.name ∈ seen
      · simp [checkColumns, hc]
      · have step : t.checkColumns seen (c :: cs) = .ok () ↔
            (∀ source ∈ c.tokensOf, source ∈ t.columnNames) ∧
              t.checkColumns (c.name :: seen) cs = .ok () := by
          cases hs : c.tokensOf with
          | none => simp [checkColumns, hc, hs]
          | some source =>
              by_cases h : t.hasColumn source = true
              · simp [checkColumns, hc, hs, h, (t.hasColumn_iff source).1 h]
              · have h' : source ∉ t.columnNames := fun hm => h ((t.hasColumn_iff source).2 hm)
                simp [checkColumns, hc, hs, h, h']
        rw [step, ih]
        simp only [List.map_cons, List.nodup_cons, List.mem_map, List.mem_cons, forall_eq_or_imp]
        constructor
        · rintro ⟨hsource, hnodup, hfresh, hsources⟩
          refine ⟨⟨?_, hnodup⟩, ⟨hc, fun d hd hseen => hfresh d hd (.inr hseen)⟩, hsource, hsources⟩
          rintro ⟨d, hd, hname⟩
          exact hfresh d hd (.inl hname)
        · rintro ⟨⟨hne, hnodup⟩, ⟨_, hfresh⟩, hsource, hsources⟩
          refine ⟨hsource, hnodup, fun d hd h => ?_, hsources⟩
          rcases h with h | h
          · exact hne ⟨d, hd, h⟩
          · exact hfresh d hd h

theorem checkConstraints_eq_ok (t : Table) (seen : List String) (cs : List Constraint) :
    t.checkConstraints seen cs = .ok () ↔
      (cs.filterMap Constraint.name).Nodup ∧ ∀ name ∈ cs.filterMap Constraint.name, name ∉ seen := by
  induction cs generalizing seen with
  | nil => simp [checkConstraints]
  | cons c cs ih =>
      cases hname : c.name with
      | none => simp only [checkConstraints, hname, ih, List.filterMap_cons]
      | some name =>
          by_cases hseen : name ∈ seen
          · simp [checkConstraints, hname, hseen]
          · simp only [checkConstraints, hname, hseen, if_false, ih, List.filterMap_cons,
              List.nodup_cons, List.mem_cons, forall_eq_or_imp, not_or]
            constructor
            · rintro ⟨hnodup, hfresh⟩
              exact ⟨⟨fun hm => (hfresh name hm).1 rfl, hnodup⟩, not_false, fun n hn => (hfresh n hn).2⟩
            · rintro ⟨⟨hne, hnodup⟩, _, hfresh⟩
              refine ⟨hnodup, fun n hn => ⟨?_, hfresh n hn⟩⟩
              rintro rfl
              exact hne hn

theorem check_eq_ok (t : Table) : t.check = .ok () ↔ t.WellFormed := by
  simp only [check, Except.unit_bind_eq_ok, checkColumns_eq_ok, checkNamed_eq_ok,
    checkConstraints_eq_ok]
  constructor
  · rintro ⟨⟨hnodup, -, hsources⟩, hkeys, hpolicy, hconstraints, -⟩
    refine ⟨hnodup, hconstraints, hkeys, fun p hp => hpolicy _ ?_, hsources⟩
    rw [Option.mem_def.1 hp]
    simp
  · rintro ⟨hnodup, hconstraints, hkeys, hpolicy, hsources⟩
    refine ⟨⟨hnodup, by simp, hsources⟩, hkeys, ?_, hconstraints, by simp⟩
    intro c hc
    obtain ⟨p, hp, rfl⟩ := Option.map_eq_some_iff.1 (Option.mem_toList.1 hc)
    exact hpolicy p hp

theorem columnNames_modify (t : Table) (i : Nat) (f : Column → Column) (hf : ∀ c, (f c).name = c.name) :
    (t.columns.modify i f).map Column.name = t.columnNames := by
  unfold columnNames
  apply List.ext_getElem?
  intro j
  simp only [List.getElem?_map, List.getElem?_modify]
  by_cases h : i = j
  · simp [h, Function.comp_def, hf]
  · simp [h]

theorem mem_columnNames_eraseIdx {t : Table} {name c : String} {i : Nat}
    (hi : t.columnIndex? name = some i) (hc : c ∈ t.columnNames) (hne : c ≠ name) :
    c ∈ (t.columns.eraseIdx i).map Column.name := by
  obtain ⟨col, hcol, rfl⟩ := List.mem_map.1 hc
  obtain ⟨j, hj⟩ := List.getElem?_of_mem hcol
  refine List.mem_map.2 ⟨col, ?_, rfl⟩
  refine List.mem_eraseIdx_iff_getElem?.2 ⟨j, ?_, hj⟩
  rintro rfl
  obtain ⟨hlt, hname, -⟩ := List.findIdx?_eq_some_iff_getElem.1 hi
  rw [List.getElem?_eq_getElem hlt] at hj
  rw [Option.some.inj hj] at hname
  exact hne (by simpa using hname)

/-- What no alteration touches: the table's name, key and parent, and the columns other
than a dropped one. -/
structure Keeps (a : Alteration) (t u : Table) : Prop where
  name : u.name = t.name
  primaryKey : u.primaryKey = t.primaryKey
  parentName : u.parentName? = t.parentName?
  columns : ∀ c ∈ t.columnNames, a ≠ .dropColumn c → c ∈ u.columnNames

theorem Keeps.of_columnNames {a : Alteration} {t u : Table} (hname : u.name = t.name)
    (hkey : u.primaryKey = t.primaryKey) (hparent : u.parentName? = t.parentName?)
    (hcolumns : u.columnNames = t.columnNames) : Keeps a t u :=
  ⟨hname, hkey, hparent, fun _ hc _ => hcolumns ▸ hc⟩

theorem modifyColumn_keeps {a : Alteration} {t u : Table} {name : String} {f : Column → Column}
    (h : t.modifyColumn name f = .ok u) (hf : ∀ c, (f c).name = c.name) : Keeps a t u := by
  unfold modifyColumn at h
  split at h
  · cases h
  · cases h
    exact .of_columnNames rfl rfl rfl (t.columnNames_modify _ f hf)

theorem dropColumn_keeps {t u : Table} {name : String} (h : t.dropColumn name = .ok u) :
    Keeps (.dropColumn name) t u := by
  unfold dropColumn at h
  split at h
  · cases h
  · next i hi =>
    split at h
    · cases h
    · split at h
      · cases h
      · cases h
        refine ⟨rfl, rfl, rfl, fun c hc hne => mem_columnNames_eraseIdx hi hc ?_⟩
        rintro rfl
        exact hne rfl

theorem setOnDelete_keeps {a : Alteration} {t u : Table} {action : OnDelete}
    (h : t.setOnDelete action = .ok u) : Keeps a t u := by
  unfold setOnDelete at h
  split at h
  · next i hi =>
    cases h
    exact .of_columnNames rfl rfl (by simp [parentName?, hi]) rfl
  · cases h

theorem addConstraint_keeps {a : Alteration} {t u : Table} {c : Constraint}
    (h : t.addConstraint c = .ok u) : Keeps a t u := by
  unfold addConstraint at h
  split at h
  · split at h
    · cases h
    · cases h
      exact .of_columnNames rfl rfl rfl rfl
  · cases h
    exact .of_columnNames rfl rfl rfl rfl

theorem dropConstraint_keeps {a : Alteration} {t u : Table} {name : String}
    (h : t.dropConstraint name = .ok u) : Keeps a t u := by
  unfold dropConstraint at h
  split at h
  · cases h
    exact .of_columnNames rfl rfl rfl rfl
  · cases h

theorem setPolicy_keeps {a : Alteration} {t u : Table} {expected : Bool} {p : Option DeletionPolicy}
    (h : t.setPolicy expected p = .ok u) : Keeps a t u := by
  unfold setPolicy at h
  split at h
  · cases h
    exact .of_columnNames rfl rfl rfl rfl
  · cases h

theorem change_keeps {t u : Table} {a : Alteration} (h : t.change a = .ok u) : Keeps a t u := by
  cases a with
  | addColumn c =>
      simp only [change] at h
      split at h
      · cases h
      · cases h
        exact ⟨rfl, rfl, rfl, fun d hd _ => by simp [columnNames] at hd ⊢; exact .inl hd⟩
  | setType name type notNull => exact modifyColumn_keeps h (fun _ => rfl)
  | setOptions name allow => exact modifyColumn_keeps h (fun _ => rfl)
  | dropColumn name => exact dropColumn_keeps h
  | setOnDelete action => exact setOnDelete_keeps h
  | addConstraint c => exact addConstraint_keeps h
  | dropConstraint name => exact dropConstraint_keeps h
  | addPolicy p => exact setPolicy_keeps h
  | replacePolicy p => exact setPolicy_keeps h
  | dropPolicy => exact setPolicy_keeps h

theorem alter_eq_ok {t u : Table} {a : Alteration} :
    t.alter a = .ok u ↔ t.change a = .ok u ∧ u.WellFormed := by
  simp only [alter, Except.bind_eq_ok, ← check_eq_ok]
  constructor
  · rintro ⟨v, hv, _, hcheck, hu⟩
    cases hu
    exact ⟨hv, hcheck⟩
  · rintro ⟨hu, hcheck⟩
    exact ⟨u, hu, (), hcheck, rfl⟩

end Table

end RowForest
