import RowForest.Proofs.Plan.Correlation
import RowForest.Proofs.Read.Listing

namespace RowForest

open Eval

namespace RowStore

/-- Whether the two ways of reading find the same rows of a child table below a row, in the
same order, and what a nested statement returns for them can be read. -/
structure Agrees (rs : RowStore) (s : ReadSettings) (showDeleted : Bool) (t child : Table) (r : Row) :
    Prop where
  unnamed : t.hasColumn child.name = true →
    r.get child.name = .array [] ∧ rs.below s showDeleted t child r = []
  decided : rs.Decided s showDeleted t child r
  tied : ∀ c ∈ rs.visible s showDeleted child,
    t.ties child r c = true ↔ (Key.ofRow t r).values <+: (Key.ofRow child c).values
  sorted : (rs.below s showDeleted t child r).mergeSort child.keyLE = rs.below s showDeleted t child r

variable {rs : RowStore} {s : ReadSettings} {showDeleted : Bool} {t child : Table} {r : Row} {l : Level}

theorem filter_ties (h : ∀ c ∈ rs.visible s showDeleted child,
    t.ties child r c = true ↔ (Key.ofRow t r).values <+: (Key.ofRow child c).values) :
    (rs.visible s showDeleted child).filter (t.ties child r) = rs.below s showDeleted t child r := by
  refine List.filter_congr fun c hc => ?_
  rw [Bool.eq_iff_iff, h c hc, List.isPrefixOf_iff_prefix]

theorem Agrees.joined_eq (h : rs.Agrees s showDeleted t child r) :
    rs.joined s showDeleted t child r = rs.below s showDeleted t child r := by
  rw [joined, filter_ties h.tied, h.sorted]

theorem agrees_of_joined_eq (heq : rs.joined s showDeleted t child r = rs.below s showDeleted t child r)
    (hdecided : rs.Decided s showDeleted t child r) (hunnamed : t.hasColumn child.name = true →
      r.get child.name = .array [] ∧ rs.below s showDeleted t child r = []) :
    rs.Agrees s showDeleted t child r := by
  have htied : ∀ c ∈ rs.visible s showDeleted child,
      t.ties child r c = true ↔ (Key.ofRow t r).values <+: (Key.ofRow child c).values := by
    intro c hc
    have hmem : c ∈ rs.joined s showDeleted t child r ↔ c ∈ rs.below s showDeleted t child r := by rw [heq]
    rw [mem_joined, below, List.mem_filter, List.isPrefixOf_iff_prefix] at hmem
    exact (and_congr_right_iff.1 hmem) hc
  rw [joined, filter_ties htied] at heq
  exact ⟨hunnamed, hdecided, htied, heq⟩

theorem ofRow_of_agrees (h : rs.Reachable) (hl : l.Fits rs.db) {r : Row} (hr : r ∈ rs.stored l.table)
    (hagrees : l.Throughout (rs.below s showDeleted) (rs.Agrees s showDeleted) r) :
    RowTree.ofRow l (rs.nestRow s showDeleted l r) = .ok (rs.tree s showDeleted l r) ∧
      l.Throughout (rs.joined s showDeleted) (rs.Decided s showDeleted) r := by
  induction hl generalizing r with
  | @node t depth children ht hnames hchild hfits ih =>
      have hagrees := Level.throughout_iff.1 hagrees
      dsimp only at hr hagrees
      have hbelow : ∀ m ∈ children, ∀ c ∈ rs.joined s showDeleted t m.table r,
          RowTree.ofRow m (rs.nestRow s showDeleted m c) = .ok (rs.tree s showDeleted m c) ∧
            m.Throughout (rs.joined s showDeleted) (rs.Decided s showDeleted) c := by
        intro m hm c hc
        refine ih m hm (stored_of_mem_joined hc) ((hagrees m hm).2 c ?_)
        rwa [← (hagrees m hm).1.joined_eq]
      refine ⟨?_, Level.throughout_iff.2 fun m hm =>
        ⟨(hagrees m hm).1.decided, fun c hc => (hbelow m hm c hc).2⟩⟩
      have hunnamed : ∀ m ∈ children, t.hasColumn m.table.name = true →
          r.get m.table.name = .array [] ∧ rs.joined s showDeleted t m.table r = [] := by
        intro m hm hnamed
        rw [(hagrees m hm).1.joined_eq]
        exact (hagrees m hm).1.unnamed hnamed
      rw [ofRow_nestRow_eq h ht hnames hr (fun m hm c hc => (hbelow m hm c hc).1) hunnamed, tree,
        RowTree.grow_eq]
      refine congrArg Except.ok (congrArg _ (List.map_congr_left fun m hm => ?_))
      rw [(hagrees m hm).1.joined_eq]

theorem eq_nil_of_accepts {type : ColumnType} {rows : List Row}
    (h : type.accepts (.array (rows.map Row.toValue)) = true) : rows = [] := by
  cases rows with
  | nil => rfl
  | cons r rows => simp [ColumnType.accepts, Row.toValue, Value.isNull, Value.baseType?] at h

theorem rows_eq_nil_of_get (h : rs.Reachable) (ht : t ∈ rs.db.tables) (hr : r ∈ rs.stored t) {c : String}
    (hc : t.hasColumn c = true) {rows : List Row} (hget : r.get c = .array (rows.map Row.toValue)) :
    rows = [] := by
  obtain ⟨column, hcolumn⟩ := Option.isSome_iff_exists.1 hc
  exact eq_nil_of_accepts (hget ▸ (accepts_of_mem_stored h ht hr hcolumn).1)

/-- A row can only be read as its own tree, since reading keeps its key. -/
theorem eq_of_ofRow_eq_tree (h : rs.Reachable) (hl : l.Fits rs.db) {r r' : Row}
    (hr : r ∈ rs.stored l.table) (hr' : r' ∈ rs.stored l.table)
    (hread : RowTree.ofRow l (rs.nestRow s showDeleted l r') = .ok (rs.tree s showDeleted l r)) :
    r' = r := by
  cases hl with
  | @node t depth children ht hnames hchild hfits =>
      obtain ⟨hcolumns, hnodup⟩ := columns_of_mem_stored h ht hr'
      rw [nestRow_eq] at hread
      obtain ⟨-, -, htree⟩ := (RowTree.ofRow_withArrays hnames hcolumns).1 hread
      rw [tree, RowTree.grow_eq] at htree
      injection htree with _ hrow _
      have hkey : Key.ofRow t r' = Key.ofRow t r := by
        refine congrArg Key.mk (List.map_congr_left fun c hc => ?_)
        have hmem := (h.wellFormed.tables t ht).key_columns c hc
        have hget : r.get c = _ := (congrArg (Row.get · c) hrow).trans (Row.get_project hnodup _ hmem)
        by_cases hnamed : c ∈ children.map (fun l => l.table.name)
        · obtain ⟨m, hm, rfl⟩ := List.mem_map.1 hnamed
          rw [RowTree.get_withArrays_of_mem hnames hm] at hget
          exact absurd (hget ▸ scalar_get h ht hr hc) (Value.not_scalar_array _)
        · rw [RowTree.get_withArrays_of_not_mem hnames hnamed] at hget
          exact hget.symm
      exact List.inj_on_of_nodup_map (stored_keys_nodup h ht) hr' hr hkey

theorem eq_of_forall₂ {R : Row → Row → Prop} {as bs : List Row} (h : List.Forall₂ R as bs)
    (heq : ∀ a ∈ as, ∀ b ∈ bs, R a b → a = b) : as = bs := by
  induction h with
  | nil => rfl
  | cons hab _ ih =>
      rw [heq _ List.mem_cons_self _ List.mem_cons_self hab,
        ih (fun a ha b hb => heq a (List.mem_cons_of_mem _ ha) b (List.mem_cons_of_mem _ hb))]

theorem joined_eq_of_mapM (h : rs.Reachable) (hl : l.Fits rs.db)
    (hread : ((rs.joined s showDeleted t l.table r).map (rs.nestRow s showDeleted l)).mapM (RowTree.ofRow l) =
      .ok ((rs.below s showDeleted t l.table r).map (rs.tree s showDeleted l))) :
    rs.joined s showDeleted t l.table r = rs.below s showDeleted t l.table r ∧
      ∀ c ∈ rs.below s showDeleted t l.table r,
        RowTree.ofRow l (rs.nestRow s showDeleted l c) = .ok (rs.tree s showDeleted l c) := by
  rw [List.mapM_map, Except.mapM_eq_ok, List.forall₂_map_right_iff] at hread
  have heq : rs.joined s showDeleted t l.table r = rs.below s showDeleted t l.table r := by
    refine eq_of_forall₂ hread fun a ha b hb hab => ?_
    have hstored := (visible_sublist l.table).subset (List.mem_filter.1 hb).1
    exact eq_of_ofRow_eq_tree h hl hstored (stored_of_mem_joined ha) hab
  rw [heq, List.forall₂_same] at hread
  exact ⟨heq, hread⟩

theorem agrees_of_ofRow (h : rs.Reachable) (hl : l.Fits rs.db) {r : Row} (hr : r ∈ rs.stored l.table)
    (hread : RowTree.ofRow l (rs.nestRow s showDeleted l r) = .ok (rs.tree s showDeleted l r))
    (hdecided : l.Throughout (rs.joined s showDeleted) (rs.Decided s showDeleted) r) :
    l.Throughout (rs.below s showDeleted) (rs.Agrees s showDeleted) r := by
  induction hl generalizing r with
  | @node t depth children ht hnames hchild hfits ih =>
      obtain ⟨hcolumns, hnodup⟩ := columns_of_mem_stored h ht hr
      rw [nestRow_eq] at hread
      obtain ⟨-, hreads, htree⟩ := (RowTree.ofRow_withArrays hnames hcolumns).1 hread
      rw [tree, RowTree.grow_eq] at htree
      injection htree with _ hrow htrees
      rw [List.map_inj_left] at htrees
      refine Level.throughout_iff.2 fun m hm => ?_
      obtain ⟨hties, hdeeper⟩ := Level.throughout_iff.1 hdecided m hm
      have hlist := (Prod.mk.inj (htrees m hm)).2
      have hbelow (hjoined : rs.joined s showDeleted t m.table r = rs.below s showDeleted t m.table r)
          (hrows : ∀ c ∈ rs.below s showDeleted t m.table r,
            RowTree.ofRow m (rs.nestRow s showDeleted m c) = .ok (rs.tree s showDeleted m c)) :
          ∀ c ∈ rs.below s showDeleted t m.table r,
            m.Throughout (rs.below s showDeleted) (rs.Agrees s showDeleted) c := by
        intro c hc
        rw [← hjoined] at hc
        exact ih m hm (stored_of_mem_joined hc) (hrows c (hjoined ▸ hc)) (hdeeper c hc)
      cases hnamed : t.hasColumn m.table.name with
      | true =>
          -- the array is read as the value of the column it is named like, so both are empty
          have hmem := (t.hasColumn_iff _).1 hnamed
          have hget : r.get m.table.name = _ :=
            (congrArg (Row.get · m.table.name) hrow).trans (Row.get_project hnodup _ hmem)
          rw [RowTree.get_withArrays_of_mem hnames hm] at hget
          have hnone := List.map_eq_nil_iff.1 (rows_eq_nil_of_get h ht hr hnamed hget)
          rw [hnone] at hget
          rw [hnamed, if_pos rfl, List.map_eq_nil_iff] at hlist
          have hjoined : rs.joined s showDeleted t m.table r = rs.below s showDeleted t m.table r :=
            hnone.trans hlist.symm
          refine ⟨agrees_of_joined_eq hjoined hties fun _ => ⟨hget, hlist⟩, hbelow hjoined ?_⟩
          intro c hc
          rw [hlist] at hc
          cases hc
      | false =>
          obtain ⟨ts, hts⟩ := hreads m hm hnamed
          have hfound := hts
          rw [hnamed, if_neg Bool.false_ne_true, hts] at hlist
          rw [show ts = _ from hlist.symm] at hfound
          obtain ⟨hjoined, hrows⟩ := joined_eq_of_mapM h (hfits m hm) hfound
          refine ⟨agrees_of_joined_eq hjoined hties fun hcolumn => ?_, hbelow hjoined hrows⟩
          rw [hnamed] at hcolumn
          cases hcolumn

theorem throughout_of_walk {P : Table → Table → Row → Prop} (hl : l.Fits rs.db)
    (hP : ∀ m p, (m, some p) ∈ l.walk none → ∀ r ∈ rs.stored p.table, P p.table m.table r)
    {r : Row} (hr : r ∈ rs.stored l.table) : l.Throughout (rs.below s showDeleted) P r := by
  induction hl generalizing r with
  | @node t depth children ht hnames hchild hfits ih =>
      refine Level.throughout_iff.2 fun m hm => ⟨?_, fun c hc => ?_⟩
      · refine hP m ⟨t, depth, children⟩ ?_ r hr
        rw [Level.walk_eq]
        exact List.mem_cons_of_mem _ (List.mem_flatMap.2 ⟨m, hm, Level.self_mem_walk m _⟩)
      · exact ih m hm (fun m' p hm' => hP m' p (Level.mem_walk_of_mem_child hm hm'))
          ((visible_sublist m.table).subset (List.mem_filter.1 hc).1)

/-- Whether keys are such that all ways of comparing them come to the same, and no table is named
like a column of the one above it. -/
structure Plain (rs : RowStore) (plan : Level) : Prop where
  apart : plan.Apart
  types : ∀ m p, (m, some p) ∈ plan.walk none → ∀ c ∈ p.table.keyColumns,
    (m.table.column? c).map (·.type.base) = (p.table.column? c).map (·.type.base)
  regular : ∀ m q, (m, q) ∈ plan.walk none → ∀ r ∈ rs.stored m.table,
    ∀ v ∈ (Key.ofRow m.table r).values, v.Regular

theorem matched_of_plain (h : rs.Reachable) {plan m p : Level} (hfits : plan.Fits rs.db)
    (hplain : rs.Plain plan) (hm : (m, some p) ∈ plan.walk none) {c : Row} (hr : r ∈ rs.stored p.table)
    (hc : c ∈ rs.stored m.table) : ∀ k ∈ p.table.keyColumns, Matched m.table r c k := by
  obtain ⟨-, hmp, q, hp⟩ := Level.depth_of_mem_walk hfits hm
  have hparent := (hfits.of_mem_walk hp).mem_tables
  have hchild := (hfits.of_mem_walk hm).mem_tables
  have hstarts := h.wellFormed.keyColumns_prefix hparent ((hfits.of_mem_walk hp).child hmp).2.1
  intro k hk
  have hk' : k ∈ m.table.keyColumns := hstarts.subset hk
  refine matched_of_settled (h.wellFormed.tables _ hparent) (h.wellFormed.tables _ hchild)
    (holds_of_mem_stored h hparent hr) (holds_of_mem_stored h hchild hc) hk hk' fun hv hw => ?_
  obtain ⟨column, hcolumn⟩ := column?_of_mem_keyColumns h hchild hk'
  obtain ⟨column', hcolumn'⟩ := column?_of_mem_keyColumns h hparent hk
  have hbase : column.type.base = column'.type.base := by
    have htypes := hplain.types m p hm k hk
    rw [hcolumn, hcolumn'] at htypes
    exact Option.some.inj htypes
  have hregular := hplain.regular m _ hm c hc _ (List.mem_map.2 ⟨k, hk', rfl⟩)
  have hregular' := hplain.regular p _ hp r hr _ (List.mem_map.2 ⟨k, hk, rfl⟩)
  have hscalar := scalar_get h hchild hc hk'
  have hscalar' := scalar_get h hparent hr hk
  refine KeyFormat.compare?_of_regular ⟨⟨hscalar, hregular.number⟩, ⟨hscalar', hregular'.number⟩, ?_⟩
    hregular hregular' hv hw
  exact alike_of_base hscalar hscalar' (accepts_of_mem_stored h hchild hc hcolumn).1
    (accepts_of_mem_stored h hparent hr hcolumn').1 hbase

theorem agrees_of_plain (h : rs.Reachable) {plan m p : Level} (hfits : plan.Fits rs.db)
    (hplain : rs.Plain plan) (hm : (m, some p) ∈ plan.walk none) (hr : r ∈ rs.stored p.table) :
    rs.Agrees s showDeleted p.table m.table r := by
  obtain ⟨-, hmp, q, hp⟩ := Level.depth_of_mem_walk hfits hm
  have hparent := (hfits.of_mem_walk hp).mem_tables
  have hchild := (hfits.of_mem_walk hm).mem_tables
  have hbelow := ((hfits.of_mem_walk hp).child hmp).2.1
  have hstarts := h.wellFormed.keyColumns_prefix hparent hbelow
  have hne := h.wellFormed.name_ne_of_child hbelow
  have hties : ∀ c ∈ rs.visible s showDeleted m.table, _ := fun c hc =>
    ties_iff hne (matched_of_plain h hfits hplain hm hr ((visible_sublist m.table).subset hc))
  refine ⟨fun hnamed => ?_, fun c hc => (hties c hc).1, fun c hc => ?_, ?_⟩
  · exact absurd ((p.table.hasColumn_iff _).1 hnamed) (hplain.apart m p hm)
  · rw [(hties c hc).2, ← Levelwise.parentKey_eq_iff, Key.parentKey_ofRow_iff hstarts]
  · have hordered := stored_ordered h hchild (fun c hc => hplain.regular m _ hm c hc)
    exact List.mergeSort_of_pairwise
      (hordered.sublist (List.filter_sublist.trans (visible_sublist m.table)))

theorem mapM_ofRow_iff {plan : Level} {sel : List Row} :
    (sel.map (rs.nestRow s showDeleted plan)).mapM (RowTree.ofRow plan) =
        .ok (sel.map (rs.tree s showDeleted plan)) ↔
      ∀ r ∈ sel, RowTree.ofRow plan (rs.nestRow s showDeleted plan r) = .ok (rs.tree s showDeleted plan r) := by
  rw [List.mapM_map, Except.mapM_eq_ok, List.forall₂_map_right_iff, List.forall₂_same]
  rfl

end RowStore

namespace Transaction

variable {rs : RowStore} {s : ReadSettings} {q : Listing} {plan : Level} {st : ReadState} {sel : List Row}

theorem run_list_levelwise (h : rs.Reachable) (hplan : rs.db.plan q.table q.descendants = .ok plan)
    (hst : st.cancelled = false) (hq : q.isNested s = false)
    (hsel : s.rootRows rs.scan plan.table q = .ok sel) :
    (list ⟨rs.db, rs.backend, s⟩ q).run.run st = (.ok (sel.map (rs.tree s q.showDeleted plan)), st) := by
  obtain ⟨hfits, -, -⟩ := h.wellFormed.plan_eq_ok hplan
  have hstored := (RowStore.subperm_of_rootRows h hfits.mem_tables hsel).subset
  rw [run_list hplan hst rfl, hq, Bool.and_false, RowStore.query_flat h hfits.mem_tables, hsel]
  dsimp only
  obtain ⟨t, depth, children⟩ := plan
  cases children with
  | nil =>
      rw [List.isEmpty_nil, Bool.not_true, Bool.false_and, if_neg Bool.false_ne_true,
        RowStore.mapM_ofRow_leaf h hfits.mem_tables (fun r hr => hstored hr)]
      rfl
  | cons l ls =>
      rw [List.isEmpty_cons, Bool.not_false, Bool.true_and, if_pos rfl]
      exact Levelwise.run_read h hplan (fun r hr => hstored hr)
        (RowStore.nodup_keys_of_rootRows h hfits.mem_tables hsel) hst

theorem run_list_nested (h : rs.Reachable) (hplan : rs.db.plan q.table q.descendants = .ok plan)
    (hst : st.cancelled = false) (hq : q.isNested s = true)
    (hsel : s.rootRows rs.scan plan.table q = .ok sel) :
    (list ⟨rs.db, rs.backend, s⟩ q).run.run st = (.ok (sel.map (rs.tree s q.showDeleted plan)), st) ↔
      ∀ r ∈ sel, plan.Throughout (rs.below s q.showDeleted) (rs.Agrees s q.showDeleted) r := by
  obtain ⟨hfits, -, -⟩ := h.wellFormed.plan_eq_ok hplan
  have hstored := (RowStore.subperm_of_rootRows h hfits.mem_tables hsel).subset
  have hread : ∀ r ∈ sel, plan.Throughout (rs.below s q.showDeleted) (rs.Agrees s q.showDeleted) r → _ :=
    fun r hr => RowStore.ofRow_of_agrees h hfits (hstored hr)
  rw [run_list_of_isNested hplan hst hq, Prod.mk.injEq, Except.bind_eq_ok]
  constructor
  · rintro ⟨⟨rows, hrows, htrees⟩, -⟩ r hr
    obtain ⟨sel', hsel', hdecided, rfl⟩ := (RowStore.query_nested h hfits).1 hrows
    obtain rfl : sel = sel' := Except.ok.inj (hsel.symm.trans hsel')
    exact RowStore.agrees_of_ofRow h hfits (hstored hr) (RowStore.mapM_ofRow_iff.1 htrees r hr)
      (hdecided r hr)
  · intro hagrees
    have hdecided := fun r hr => (hread r hr (hagrees r hr)).2
    exact ⟨⟨_, (RowStore.query_nested h hfits).2 ⟨sel, hsel, hdecided, rfl⟩,
      RowStore.mapM_ofRow_iff.2 fun r hr => (hread r hr (hagrees r hr)).1⟩, rfl⟩

/-- A listing fails in the same way whether it is read with one nested statement or level by level,
or it gives the trees of its rows level by level. Then the nested statement gives the same exactly
if the ways of reading agree all the way down from each row, as they do with plain keys. -/
theorem list_strategies (h : rs.Reachable) (s : ReadSettings) (q : Listing) (st : ReadState) :
    (∃ e, (list ⟨rs.db, rs.backend, s⟩ { q with strategy := some .nested }).run.run st = (.error e, st) ∧
      (list ⟨rs.db, rs.backend, s⟩ { q with strategy := some .levelwise }).run.run st = (.error e, st)) ∨
    ∃ (plan : Level) (rows : List Row), rs.db.plan q.table q.descendants = .ok plan ∧
      (list ⟨rs.db, rs.backend, s⟩ { q with descendants := .empty }).run.run st =
        (.ok (rows.map (RowTree.leaf plan.table.name)), st) ∧
      (list ⟨rs.db, rs.backend, s⟩ { q with strategy := some .levelwise }).run.run st =
        (.ok (rows.map (rs.tree s q.showDeleted plan)), st) ∧
      ((list ⟨rs.db, rs.backend, s⟩ { q with strategy := some .nested }).run.run st =
          (list ⟨rs.db, rs.backend, s⟩ { q with strategy := some .levelwise }).run.run st ↔
        ∀ r ∈ rows, plan.Throughout (rs.below s q.showDeleted) (rs.Agrees s q.showDeleted) r) ∧
      (rs.Plain plan → ∀ r ∈ rows,
        plan.Throughout (rs.below s q.showDeleted) (rs.Agrees s q.showDeleted) r) := by
  cases hst : st.cancelled with
  | true =>
      obtain ⟨e, he⟩ := run_list_cancelled rs s hst q
      exact .inl ⟨e, he _, he _⟩
  | false =>
      cases hplan : rs.db.plan q.table q.descendants with
      | error e => exact .inl ⟨e, run_list_of_plan_error hplan, run_list_of_plan_error hplan⟩
      | ok plan =>
          obtain ⟨hfits, -, -⟩ := h.wellFormed.plan_eq_ok hplan
          cases hsel : s.rootRows rs.scan plan.table q with
          | error e =>
              have hfail (strategy : Option Strategy) : (list ⟨rs.db, rs.backend, s⟩
                  { q with strategy := strategy }).run.run st = (.error e, st) := by
                rw [run_list (q := { q with strategy := strategy }) hplan hst rfl,
                  RowStore.query_of_error (q := { q with strategy := strategy }) hsel]
              exact .inl ⟨e, hfail _, hfail _⟩
          | ok sel =>
              have hstored := (RowStore.subperm_of_rootRows h hfits.mem_tables hsel).subset
              have hlevelwise := run_list_levelwise (q := { q with strategy := some .levelwise }) h hplan
                hst rfl hsel
              refine .inr ⟨plan, sel, rfl, ?_, hlevelwise, ?_, fun hplain r hr => ?_⟩
              · rw [run_list_flat h hplan hst, hsel]
                rfl
              · rw [hlevelwise]
                exact run_list_nested (q := { q with strategy := some .nested }) h hplan hst rfl hsel
              · exact RowStore.throughout_of_walk hfits
                  (fun m p hm r hr => RowStore.agrees_of_plain h hfits hplain hm hr) (hstored hr)

end Transaction

namespace Sample

theorem store_plain : store.Plain plan := by
  refine ⟨plan_apart, fun m p hm c hc => ?_, fun m p hm r hr v hv => ?_⟩
  · obtain ⟨-, ⟨⟩⟩ | ⟨rfl, ⟨⟩⟩ := mem_walk hm
    obtain rfl : c = "id" := by simpa [plan, singers, Table.keyColumns] using hc
    rfl
  · have hall : (plan.walk none).all (fun e => (store.stored e.1.table).all (fun r =>
        (Key.ofRow e.1.table r).values.all (fun v =>
          !v.isNaN && decide (v.canonical = v) && v.baseType? != some .json))) = true := by cbv
    simp only [List.all_eq_true, Bool.and_eq_true, Bool.not_eq_true', decide_eq_true_eq,
      bne_iff_ne] at hall
    obtain ⟨⟨hnumber, hcanonical⟩, hordered⟩ := hall _ hm r hr v hv
    exact ⟨hnumber, hcanonical, hordered⟩

end Sample

theorem Transaction.list_strategies_sample :
    Sample.store.Reachable ∧ Sample.store.Plain Sample.plan ∧
      (list ⟨Sample.store.db, Sample.store.backend, {}⟩
          { Sample.listing with strategy := some .nested }).run.run ⟨false, []⟩ =
        (list ⟨Sample.store.db, Sample.store.backend, {}⟩
          { Sample.listing with strategy := some .levelwise }).run.run ⟨false, []⟩ := by
  refine ⟨Sample.store_reachable, Sample.store_plain, ?_⟩
  have hnested : (list ⟨Sample.store.db, Sample.store.backend, {}⟩
      { Sample.listing with strategy := some .nested }).run.run ⟨false, []⟩ =
        (.ok Sample.trees, ⟨false, []⟩) := by cbv
  rcases list_strategies Sample.store_reachable {} Sample.listing ⟨false, []⟩ with
    ⟨e, he, -⟩ | ⟨plan, rows, hplan, -, -, hiff, hplain⟩
  · rw [hnested] at he
    cases he
  · have hsample : Sample.store.db.plan "Singer" (.ofList ["Album"]) = .ok Sample.plan := by cbv
    obtain rfl : plan = Sample.plan := Except.ok.inj (hplan.symm.trans hsample)
    exact hiff.2 (hplain Sample.store_plain)

namespace Clash

def albums : Table where
  name := "Album"
  columns := [⟨"id", .scalar .int64, true, none, none, false⟩, ⟨"Track", .scalar .int64, false, none, none, false⟩]
  primaryKey := [⟨"id", false⟩]

def tracks : Table where
  name := "Track"
  columns := [⟨"id", .scalar .int64, true, none, none, false⟩, ⟨"no", .scalar .int64, true, none, none, false⟩]
  primaryKey := [⟨"id", false⟩, ⟨"no", false⟩]
  interleave := some ⟨"Album", .cascade⟩

def db : Database := Database.empty.run [.createTable albums, .createTable tracks]

def writes : List Mutation := [
  .insert "Album" (.ofFields [("id", .int64 1), ("Track", .int64 7)]),
  .insert "Track" (.ofFields [("id", .int64 1), ("no", .int64 2)])]

def store : RowStore := ((RowStore.ofDatabase db).apply writes).toOption.getD (.ofDatabase db)

theorem store_reachable : store.Reachable :=
  RowStore.reachable_getD ⟨[.createTable albums, .createTable tracks], rfl⟩ _

def listing (strategy : Strategy) : Listing :=
  { table := "Album", descendants := .ofList ["Track"], strategy := some strategy }

def trees : List RowTree := [
  .node "Album" (.ofFields [("id", .int64 1), ("Track", .int64 7)])
    [("Track", [.leaf "Track" (.ofFields [("id", .int64 1), ("no", .int64 2)])])]]

end Clash

/-- Where a table is named like a column of the one above it, the nested statement's result cannot
be read, and level by level it can. -/
theorem Transaction.list_strategies_clash :
    Clash.store.Reachable ∧
      (list ⟨Clash.store.db, Clash.store.backend, {}⟩ (Clash.listing .levelwise)).run.run ⟨false, []⟩ =
        (.ok Clash.trees, ⟨false, []⟩) ∧
      (list ⟨Clash.store.db, Clash.store.backend, {}⟩ (Clash.listing .nested)).run.run ⟨false, []⟩ =
        (.error (.backend (.shape "Album" "Track" (.type (.scalar .int64)
          (.array [.struct [("id", .int64 1), ("no", .int64 2)]])))), ⟨false, []⟩) :=
  ⟨Clash.store_reachable, by cbv, by cbv⟩

end RowForest
