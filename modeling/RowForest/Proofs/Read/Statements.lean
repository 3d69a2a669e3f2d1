import RowForest.Proofs.Read.BatchLookups
import RowForest.Proofs.Sql.Parameters

namespace RowForest

namespace Sql.Expr

theorem params_foldl (op : Connective) (es : List Expr) (e : Expr) :
    (es.foldl (logical op) e).params = e.params ++ es.flatMap params := by
  induction es generalizing e with
  | nil => rw [List.foldl_nil, List.flatMap_nil, List.append_nil]
  | cons a es ih => rw [List.foldl_cons, ih, params_logical, List.flatMap_cons, List.append_assoc]

theorem params_conjunction (es : List Expr) : (conjunction es).params = es.flatMap params := by
  cases es with
  | nil => rfl
  | cons e es => exact params_foldl .and es e

end Sql.Expr

def Listing.named (q : Listing) : List String :=
  q.predicate.elim [] Sql.Expr.params ++ q.order.flatMap (·.key.params)

namespace Key

variable {k : Key} {t : Table} {label name : String}

theorem params_order (t : Table) : (order t).flatMap (·.key.params) = [] := by
  simp [order]

theorem mem_params_predicate : name ∈ (k.predicate t label).params ↔
    ∃ part ∈ k.parts t, part.1.2.isNull = false ∧ name = parameterName label part.2 := by
  have hcondition (part : (String × Value) × Nat) : name ∈ (condition label part).params ↔
      part.1.2.isNull = false ∧ name = parameterName label part.2 := by
    unfold condition Sql.Expr.equals
    cases part.1.2.isNull <;> simp
  rw [predicate, Sql.Expr.params_paren, Sql.Expr.params_conjunction, conditions_eq, List.flatMap_map, List.mem_flatMap]
  simp only [hcondition]
  rfl

end Key

namespace ReadSettings

variable {s : ReadSettings} {t : Table} {q : Listing} {plan : Level} {nested : Bool} {ps : Params}

theorem params_correlation (parent child : Table) : (correlation parent child).params = [] := by
  have htie : ∀ c ∈ parent.keyColumns, (tie parent child c).params = [] := by
    intro c _
    unfold tie Sql.Expr.equals Sql.Expr.and Sql.Expr.or
    split <;> simp
  rw [correlation, Sql.Expr.params_conjunction, List.flatMap_map, List.flatMap_eq_nil_iff]
  exact htie

theorem params_of_visible {e : Sql.Expr} (h : s.visible? t = some e) : e.params = [] := by
  obtain ⟨c, -, rfl⟩ := Option.map_eq_some_iff.1 h
  rw [Sql.Expr.params_isNull, Sql.Expr.params_column]

theorem params_rootFilter : (s.rootFilter t q).params = q.predicate.elim [] Sql.Expr.params := by
  have hpredicate : (q.predicate.getD .always).params = q.predicate.elim [] Sql.Expr.params := by
    cases q.predicate <;> rfl
  unfold rootFilter
  split_ifs
  · exact hpredicate
  · split
    · next e he => simp [Sql.Expr.and, params_of_visible he, hpredicate]
    · exact hpredicate

theorem params_childFilter (showDeleted : Bool) (parent child : Table) :
    (s.childFilter showDeleted parent child).params = [] := by
  unfold childFilter
  split_ifs
  · exact params_correlation parent child
  · split
    · next e he => simp [Sql.Expr.and, params_of_visible he, params_correlation]
    · exact params_correlation parent child

theorem itemParams_columns (t : Table) (items : List Sql.Item) :
    Sql.itemParams (columnItems t ++ items) = Sql.itemParams items := by
  rw [columnItems]
  induction t.columnNames with
  | nil => rfl
  | cons c cs ih => exact ih

mutual

theorem params_childArray (showDeleted : Bool) (parent : Table) :
    ∀ l : Level, (s.childArray showDeleted parent l).params = []
  | ⟨t, _, children⟩ => by
    simp [childArray, Sql.Item.params, Sql.Query.params, itemParams_columns, params_childFilter, Key.params_order,
      params_childArrays showDeleted t children]

theorem params_childArrays (showDeleted : Bool) (parent : Table) :
    ∀ ls : List Level, Sql.itemParams (s.childArrays showDeleted parent ls) = []
  | [] => rfl
  | l :: ls => by
    rw [childArrays, Sql.itemParams, params_childArray showDeleted parent l, params_childArrays showDeleted parent ls,
      List.append_nil]

end

/-- What a statement for a listing binds: all that it names, the caller's parameters as the caller has
them, and the bounds of a page if it asks for one. -/
structure Binds (s : ReadSettings) (q : Listing) (st : Sql.Statement) : Prop where
  closed : ∀ name ∈ st.query.params, name ∈ st.params.keys
  caller : ∀ name ∈ q.params.keys, st.params.find? name = q.params.find? name
  limit : q.isPaged = true → st.params.find? s.limitParam = some (.int64 (q.limit.getD Int64.maxValue))
  offset : q.isPaged = true → st.params.find? s.offsetParam = some (.int64 q.offset)

theorem mem_params_query {name : String} {st : Sql.Statement} (h : s.statementParams q = .ok ps)
    (hst : s.statement plan q nested = .ok st) (hname : name ∈ st.query.params) :
    name ∈ q.named ∨ q.isPaged = true ∧ (name = s.limitParam ∨ name = s.offsetParam) := by
  rw [statement, h] at hst
  cases hst
  have horder : name ∈ (if q.order.isEmpty then Key.order plan.table else q.order).flatMap (·.key.params) →
      name ∈ q.order.flatMap (·.key.params) := by
    split_ifs
    · rw [Key.params_order]
      exact fun hname => absurd hname List.not_mem_nil
    · exact id
  have hpage (param : String) : name ∈ (if q.isPaged then some (Sql.Expr.param param) else none).elim []
      Sql.Expr.params → q.isPaged = true ∧ name = param := by
    split_ifs with hpaged
    · exact fun hname => ⟨hpaged, List.mem_singleton.1 hname⟩
    · exact fun hname => absurd hname List.not_mem_nil
  simp only [Sql.Query.params, itemParams_columns, params_childArrays, params_rootFilter, Option.elim_some,
    List.nil_append, List.mem_append] at hname
  rw [Listing.named, List.mem_append]
  rcases hname with ((hname | hname) | hname) | hname
  · exact .inl (.inl hname)
  · exact .inl (.inr (horder hname))
  · exact .inr ((hpage s.limitParam hname).imp_right .inl)
  · exact .inr ((hpage s.offsetParam hname).imp_right .inr)

theorem statementParams_refused : (∃ name, s.statementParams q = .error (.parameterCollision name)) ↔
    ∃ name ∈ q.params.keys, s.isReserved name = true := by
  unfold statementParams
  cases hfind : q.params.keys.find? s.isReserved with
  | none =>
      rw [List.find?_eq_none] at hfind
      exact iff_of_false nofun fun ⟨name, hname, hreserved⟩ => hfind name hname hreserved
  | some name =>
      exact iff_of_true ⟨name, rfl⟩ ⟨name, List.mem_of_find?_eq_some hfind, List.find?_some hfind⟩

theorem find?_caller (h : s.statementParams q = .ok ps)
    (hkeys : ∀ name ∈ q.keyParams.keys, s.keyParamLabel.toList <+: name.toList) {name : String}
    (hname : name ∈ q.params.keys) : ps.find? name = q.params.find? name := by
  have hfree := mt isReserved_iff.2 (Bool.eq_false_iff.1 (isReserved_of_statementParams h name hname))
  rw [not_or, not_or] at hfree
  rw [find?_of_statementParams h, if_neg (fun h => hfree.2.1 h.2), if_neg (fun h => hfree.1 h.2)]
  exact SortedMap.find?_insertAll_of_not_mem fun hkey => hfree.2.2 (hkeys name hkey)

theorem exists_statement (hs : s.NamesApart) (plan : Level) (nested : Bool)
    (hq : ∀ name ∈ q.params.keys, s.isReserved name = false)
    (hkeys : ∀ name ∈ q.keyParams.keys, s.keyParamLabel.toList <+: name.toList)
    (hnamed : ∀ name ∈ q.named, name ∈ q.params.keys ∨ name ∈ q.keyParams.keys) :
    ∃ st, s.statement plan q nested = .ok st ∧ s.statementParams q = .ok st.params ∧ s.Binds q st := by
  obtain ⟨ps, hps⟩ := exists_statementParams hq
  obtain ⟨st, hst, rfl⟩ : ∃ st, s.statement plan q nested = .ok st ∧ st.params = ps := by
    rw [statement, hps]
    exact ⟨_, rfl, rfl⟩
  have hlimit : q.isPaged = true →
      st.params.find? s.limitParam = some (.int64 (q.limit.getD Int64.maxValue)) := by
    intro hpaged
    rw [find?_of_statementParams hps, if_neg (fun h => hs.limit_ne_offset h.2), if_pos ⟨hpaged, rfl⟩]
  have hoffset : q.isPaged = true → st.params.find? s.offsetParam = some (.int64 q.offset) := by
    intro hpaged
    rw [find?_of_statementParams hps, if_pos ⟨hpaged, rfl⟩]
  refine ⟨st, hst, hps, fun name hname => ?_, fun name => find?_caller hps hkeys, hlimit, hoffset⟩
  rw [SortedMap.mem_keys_iff_find?]
  rcases mem_params_query hps hst hname with hname | ⟨hpaged, rfl | rfl⟩
  · rcases hnamed name hname with hname | hname
    · rw [find?_caller hps hkeys hname, ← SortedMap.mem_keys_iff_find?]
      exact hname
    · obtain ⟨v, hv⟩ := SortedMap.mem_keys.1 hname
      rw [find?_of_starts hs hps (hkeys name hname)]
      exact ⟨v, SortedMap.find?_insertAll_of_mem hv fun w hw => SortedMap.value_unique hw hv⟩
  · exact ⟨_, hlimit hpaged⟩
  · exact ⟨_, hoffset hpaged⟩

end ReadSettings

namespace Transaction

variable {s : ReadSettings} {t : Table} {k : Key} {ks : List Key} {d : TableNames}

theorem params_anyOf (es : List Sql.Expr) : (anyOf es).params = es.flatMap Sql.Expr.params := by
  cases es with
  | nil => rfl
  | cons e es =>
      rw [anyOf, Sql.Expr.params_paren]
      exact Sql.Expr.params_foldl .or es e

theorem starts_of_mem_keyBindings {label name : String} (h : name ∈ (keyBindings label t 0 ks .empty).keys) :
    label.toList <+: name.toList := by
  obtain ⟨v, hv⟩ := SortedMap.mem_keys_iff_find?.1 h
  rw [keyBindings_eq] at hv
  by_cases hname : name ∈ ((ks.zipIdx 0).flatMap (fun e =>
      Key.bindings (Key.parameterName label e.2) 0 (t.keyColumns.zip e.1.values))).map Prod.fst
  · obtain ⟨b, hb, rfl⟩ := List.mem_map.1 hname
    obtain ⟨e, -, hb⟩ := List.mem_flatMap.1 hb
    obtain ⟨part, -, -, rfl⟩ := Key.mem_bindings.1 hb
    exact (Key.parameterName_starts label e.2).trans (Key.parameterName_starts _ part.2)
  · rw [SortedMap.find?_insertAll_of_not_mem hname] at hv
    cases hv

theorem exists_statement_keyQuery (hs : s.NamesApart) (plan : Level) (nested : Bool) {e : Sql.Expr}
    (ks : List Key) (n : Nat)
    (he : ∀ name ∈ e.params, ∃ k i, (k, i) ∈ ks.zipIdx ∧
      name ∈ (k.predicate t (Key.parameterName s.keyParamLabel i)).params) :
    let q := keyQuery t e (keyBindings s.keyParamLabel t 0 ks .empty) n d
    ∃ st, s.statement plan q nested = .ok st ∧ s.Binds q st ∧
      ∀ k i, (k, i) ∈ ks.zipIdx → k.Bound t (Key.parameterName s.keyParamLabel i) st.params := by
  intro q
  have hparams : ∀ name ∈ q.params.keys, s.isReserved name = false := nofun
  have hkeys : ∀ name ∈ q.keyParams.keys, s.keyParamLabel.toList <+: name.toList :=
    fun name => starts_of_mem_keyBindings
  have hnamed : ∀ name ∈ q.named, name ∈ q.params.keys ∨ name ∈ q.keyParams.keys := by
    intro name hname
    have hname : name ∈ e.params := by simpa [q, Listing.named, keyQuery] using hname
    obtain ⟨k, i, hk, hname⟩ := he name hname
    obtain ⟨part, hpart, hnull, rfl⟩ := Key.mem_params_predicate.1 hname
    exact .inr (SortedMap.mem_keys_iff_find?.2 ⟨_, bound_keyBindings hk part hpart hnull⟩)
  obtain ⟨st, hst, hps, hbinds⟩ := ReadSettings.exists_statement hs plan nested hparams hkeys hnamed
  have hkeyParams : q.params.insertAll q.keyParams.toList = q.keyParams := SortedMap.insertAll_empty _
  refine ⟨st, hst, hbinds, fun k i hk => ?_⟩
  have hbound : k.Bound t (Key.parameterName s.keyParamLabel i) q.keyParams := bound_keyBindings hk
  exact hbound.congr fun name hname => by rw [ReadSettings.find?_of_starts hs hps hname, hkeyParams]

/-- Every statement is closed, for every plan. A listing is refused if the caller uses a name that is kept
for limit, offset or keys. Otherwise, if it comes from a caller, whose listings have no parameters of keys,
and its predicate and order name only the caller's parameters, all that its statement names is bound as it
is meant. So is all that the statements of lookups name, each key's parts under names of their own. -/
theorem statement_binds (hs : s.NamesApart) (plan : Level) (nested : Bool) :
    (∀ q : Listing, (∃ name, s.statementParams q = .error (.parameterCollision name)) ↔
      ∃ name ∈ q.params.keys, name = s.limitParam ∨ name = s.offsetParam ∨
        s.keyParamLabel.toList <+: name.toList) ∧
    (∀ q : Listing, q.keyParams = .empty → (∀ name, s.statementParams q ≠ .error (.parameterCollision name)) →
      (∀ name ∈ q.named, name ∈ q.params.keys) →
      ∃ st, s.statement plan q nested = .ok st ∧ s.Binds q st) ∧
    (∀ t k d, ∃ st, s.statement plan (lookup s t k d) nested = .ok st ∧ s.Binds (lookup s t k d) st ∧
      k.Bound t (Key.parameterName s.keyParamLabel 0) st.params) ∧
    (∀ t ks d, ∃ st, s.statement plan (batch s t ks d) nested = .ok st ∧ s.Binds (batch s t ks d) st ∧
      ∀ k i, (k, i) ∈ ks.zipIdx → k.Bound t (Key.parameterName s.keyParamLabel i) st.params) ∧
    ∀ i i' j j', Key.parameterName (Key.parameterName s.keyParamLabel i) j =
      Key.parameterName (Key.parameterName s.keyParamLabel i') j' → i = i' ∧ j = j' := by
  have hrefused : ∀ q : Listing, (∃ name, s.statementParams q = .error (.parameterCollision name)) ↔
      ∃ name ∈ q.params.keys, name = s.limitParam ∨ name = s.offsetParam ∨
        s.keyParamLabel.toList <+: name.toList := by
    simp only [← ReadSettings.isReserved_iff]
    exact fun q => ReadSettings.statementParams_refused
  refine ⟨hrefused, fun q hkeys hq hnamed => ?_, fun t k d => ?_, fun t ks d => ?_,
    fun i i' j j' => Key.parameterName_injective⟩
  · have hfree : ∀ name ∈ q.params.keys, s.isReserved name = false := by
      intro name hname
      by_contra hreserved
      obtain ⟨refused, hrefused⟩ := (hrefused q).2
        ⟨name, hname, ReadSettings.isReserved_iff.1 (Bool.eq_true_of_not_eq_false hreserved)⟩
      exact hq refused hrefused
    obtain ⟨st, hst, -, hbinds⟩ := ReadSettings.exists_statement hs plan nested hfree
      (by rw [hkeys]; exact nofun) fun name hname => .inl (hnamed name hname)
    exact ⟨st, hst, hbinds⟩
  · have hk : (k, 0) ∈ [k].zipIdx := List.mem_cons_self
    obtain ⟨st, hst, hbinds, hbound⟩ := exists_statement_keyQuery hs plan nested [k] 1
      fun name hname => ⟨k, 0, hk, hname⟩
    exact ⟨st, hst, hbinds, hbound k 0 hk⟩
  · refine exists_statement_keyQuery hs plan nested ks ks.length fun name hname => ?_
    rw [params_anyOf, keyPredicates_eq, List.flatMap_map, List.mem_flatMap] at hname
    obtain ⟨⟨k, i⟩, hk, hname⟩ := hname
    exact ⟨k, i, hk, hname⟩

end Transaction

namespace Sample

def later : Listing where
  table := "Singer"
  predicate := some (.compare .ge (.column "id") (.param "least"))
  params := .ofList [("least", .int64 7)]
  offset := 5

def unset : Listing where
  table := "Singer"
  order := [⟨.param "first", false⟩]

end Sample

theorem Transaction.statement_binds_sample : ReadSettings.NamesApart {} ∧
    (∃ st, ReadSettings.statement {} Sample.plan Sample.later true = .ok st ∧
      ReadSettings.Binds {} Sample.later st ∧ "__limit" ∈ st.query.params ∧
      st.params.find? "__limit" = some (.int64 Int64.maxValue) ∧ st.params.find? "least" = some (.int64 7)) ∧
    ∃ st, ReadSettings.statement {} Sample.plan (batch {} Sample.singers Sample.wanted .empty) true = .ok st ∧
      st.params.find? "__key_1_0" = some (.int64 3) ∧ st.params.find? "__key_2_0" = some (.int64 1) := by
  obtain ⟨-, hlisting, -, hbatch, -⟩ := statement_binds ReadSettings.namesApart_default Sample.plan true
  obtain ⟨st, hst, hbinds⟩ := hlisting Sample.later rfl nofun (by decide)
  obtain ⟨st', hst', -, hbound⟩ := hbatch Sample.singers Sample.wanted .empty
  have hlimit : "__limit" ∈ st.query.params := by
    cases hst
    decide
  refine ⟨ReadSettings.namesApart_default, ⟨st, hst, hbinds, hlimit, hbinds.limit rfl, ?_⟩, st', hst', ?_, ?_⟩
  · rw [hbinds.caller "least" (by decide)]
    rfl
  · exact hbound ⟨[.int64 3]⟩ 1 (by decide) (("id", .int64 3), 0) (by decide) rfl
  · exact hbound ⟨[.int64 1]⟩ 2 (by decide) (("id", .int64 1), 0) (by decide) rfl

/-- Without a predicate, a parameter of the caller's order may still be left unbound. -/
theorem Transaction.statement_unset : ReadSettings.NamesApart {} ∧ Sample.unset.predicate = none ∧
    ∃ st, ReadSettings.statement {} Sample.plan Sample.unset false = .ok st ∧
      "first" ∈ st.query.params ∧ st.params.find? "first" = none :=
  ⟨ReadSettings.namesApart_default, rfl, _, rfl, by decide, rfl⟩

end RowForest
