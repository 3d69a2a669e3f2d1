import RowForest.Proofs.Read.Lookups
import RowForest.Proofs.Read.Visibility

namespace RowForest

open Eval

/-- Whether no table of a plan is named like a column of the one above it, and key columns have types
that tell values apart and are the same in the tables below. -/
structure Level.Exact (plan : Level) : Prop where
  apart : plan.Apart
  keys : ∀ m q, (m, q) ∈ plan.walk none → m.table.ExactKeys
  shared : ∀ m p, (m, some p) ∈ plan.walk none → p.table.SharesKey m.table

namespace RowStore

variable {rs : RowStore} {t : Table} {plan : Level} {ks : List Key} {rows : List Row}

theorem plain_of_exact (h : rs.Reachable) (hfits : plan.Fits rs.db) (hexact : plan.Exact) :
    rs.Plain plan where
  apart := hexact.apart
  types m p hm c hc := by
    have htypes := congrArg (Option.map Prod.fst) (hexact.shared m p hm c hc)
    rwa [Option.map_map, Option.map_map] at htypes
  regular m q hm := regular_of_exact h (hfits.of_mem_walk hm).mem_tables (hexact.keys m q hm)

theorem read_list (h : rs.Reachable) (ht : t ∈ rs.db.tables) :
    rs.read t.name (.list ks) t.columnNames = .ok rows ↔
      (∀ k ∈ ks, k.length = t.primaryKey.length ∧ ∀ v ∈ k.values, v.Scalar) ∧
        rows = (rs.stored t).filter (fun r => Key.ofRow t r ∈ ks) := by
  refine read_whole h ht fun r hr => ?_
  have hequal (k : Key) : k.equal (Key.ofRow t r) = true ↔ k = Key.ofRow t r :=
    Key.equal_iff (.inr (scalar_of_mem_stored h ht hr))
  rw [KeySet.cut, KeySet.contains, Bool.eq_iff_iff, List.any_eq_true, decide_eq_true_eq]
  simp only [hequal, exists_eq_right]

end RowStore

namespace Transaction

variable {rs : RowStore} {s : ReadSettings} {plan : Level} {st : ReadState} {t : Table} {ks : List Key}
  {d : TableNames} {name : String}

theorem byKey_map {rows : List Row} (hkeys : (rows.map (Key.ofRow t)).Nodup) {tree : Row → RowTree}
    (hrow : ∀ r, (tree r).row = r) :
    byKey t (rows.map tree) = rows.map (fun r => (Key.ofRow t r, tree r)) := by
  induction rows with
  | nil => rfl
  | cons r rows ih =>
      rw [List.map_cons, List.nodup_cons] at hkeys
      have hlater : (rows.map (fun r => (Key.ofRow t r, tree r))).any (fun e => e.1 = Key.ofRow t r) =
          false := by
        rw [List.any_eq_false]
        intro e he
        obtain ⟨c, hc, rfl⟩ := List.mem_map.1 he
        exact fun hkey => hkeys.1 (List.mem_map.2 ⟨c, hc, of_decide_eq_true hkey⟩)
      rw [List.map_cons, byKey, ih hkeys.2, hrow, hlater, if_neg Bool.false_ne_true, List.map_cons]

def batch (s : ReadSettings) (t : Table) (ks : List Key) (d : TableNames) : Listing :=
  keyQuery t (anyOf (keyPredicates s.keyParamLabel t 0 ks)) (keyBindings s.keyParamLabel t 0 ks .empty)
    ks.length d

theorem run_getAll_nil (h : rs.Reachable) (ht : t ∈ rs.db.tables) :
    (getAll ⟨rs.db, rs.backend, s⟩ t.name [] d).run.run st = (.ok [], st) := by
  rw [getAll, ReadM.run_ofExcept_bind_ok (h.wellFormed.getTable_of_mem ht)]
  rfl

theorem run_getAll_empty (h : rs.Reachable) (ht : t ∈ rs.db.tables) (hexact : t.ExactKeys)
    (hks : ∀ k ∈ ks, t.Admits k) (hd : d.isEmpty = true) (hst : st.cancelled = false) :
    (getAll ⟨rs.db, rs.backend, s⟩ t.name ks d).run.run st =
      (.ok (((rs.stored t).filter (fun r => Key.ofRow t r ∈ ks)).map
        (fun r => (Key.ofRow t r, RowTree.leaf t.name r))), st) := by
  by_cases hne : ks = []
  · subst hne
    simp [run_getAll_nil h ht]
  · have hvalid : ∀ k ∈ ks, k.length = t.primaryKey.length ∧ ∀ v ∈ k.values, v.Scalar :=
      fun k hk => ⟨(hks k hk).length_eq, (hks k hk).scalar (h.wellFormed.tables t ht) hexact⟩
    have hread := rs.run_backend_read hst t.name (.list ks) t.columnNames
    rw [(RowStore.read_list h ht).2 ⟨hvalid, rfl⟩] at hread
    rw [getAll, ReadM.run_ofExcept_bind_ok (h.wellFormed.getTable_of_mem ht)]
    dsimp only
    rw [if_neg (by simpa using hne), if_pos hd, ← byKey_map (RowStore.filter_keys_nodup h ht ks) fun _ => rfl]
    exact ReadM.run_bind_ok hread

theorem run_getAll_descendants (h : rs.Reachable) (ht : t ∈ rs.db.tables) (hne : ks ≠ [])
    (hd : d.isEmpty = false) {trees : List RowTree}
    (hlist : (list ⟨rs.db, rs.backend, s⟩ (batch s t ks d)).run.run st = (.ok trees, st)) :
    (getAll ⟨rs.db, rs.backend, s⟩ t.name ks d).run.run st = (.ok (byKey t trees), st) := by
  rw [getAll, ReadM.run_ofExcept_bind_ok (h.wellFormed.getTable_of_mem ht)]
  dsimp only
  rw [if_neg (by simpa using hne), if_neg (by simp [hd])]
  exact ReadM.run_bind_ok hlist

theorem decides_keys (ht : t.WellFormed) (hexact : t.ExactKeys) (hne : ks ≠ []) (hks : ∀ k ∈ ks, t.Admits k)
    {label : String} {ps : Params} (hps : ∀ name, label.toList <+: name.toList →
      ps.find? name = (keyBindings label t 0 ks .empty).find? name) {r : Row} (hr : t.Holds r) :
    Decides ((Scope.ofParams ps).push t.name r) (anyOf (keyPredicates label t 0 ks))
      (Key.ofRow t r ∈ ks) := by
  have hmem : Key.ofRow t r ∈ ks ↔ ∃ e ∈ ks.zipIdx, Key.ofRow t r = e.1 := by
    rw [← List.zipIdx_map_fst 0 ks, List.mem_map, List.zipIdx_map_fst]
    exact exists_congr fun e => and_congr_right fun _ => eq_comm
  rw [hmem, keyPredicates_eq]
  refine decides_anyOf (by simpa using hne) fun e he => ?_
  have hk : e.1 ∈ ks := by
    rw [← List.zipIdx_map_fst 0 ks]
    exact List.mem_map.2 ⟨e, he, rfl⟩
  have hbound : e.1.Bound t (Key.parameterName label e.2) ps :=
    (bound_keyBindings he).congr hps
  exact Key.decides_predicate ht hexact (hks _ hk) hr hbound

theorem run_getAll (h : rs.Reachable) (hs : s.NamesApart) (hplan : rs.db.plan plan.table.name d = .ok plan)
    (hexact : plan.Exact) (hks : ∀ k ∈ ks, plan.table.Admits k) (hlength : ks.length < 2 ^ 63)
    (hst : st.cancelled = false) : (getAll ⟨rs.db, rs.backend, s⟩ plan.table.name ks d).run.run st =
      (.ok (((rs.stored plan.table).filter (fun r => Key.ofRow plan.table r ∈ ks)).map
        (fun r => (Key.ofRow plan.table r, rs.tree s true plan r))), st) := by
  obtain ⟨hfits, -, -⟩ := h.wellFormed.plan_eq_ok hplan
  have ht := hfits.mem_tables
  have hkeys := hexact.keys plan none (Level.self_mem_walk plan none)
  cases hd : d.isEmpty with
  | true => rw [run_getAll_empty h ht hkeys hks hd hst, RowStore.leaf_eq_tree hplan hd true]
  | false =>
      by_cases hne : ks = []
      · subst hne
        simp [run_getAll_nil h ht]
      · have hrows : s.rootRows rs.scan plan.table (batch s plan.table ks d) =
            .ok ((rs.stored plan.table).filter (fun r => Key.ofRow plan.table r ∈ ks)) :=
          RowStore.rootRows_of_decides h ht hs hkeys hlength le_rfl fun ps hps r hr =>
            decides_keys (h.wellFormed.tables _ ht) hkeys hne hks hps (RowStore.holds_of_mem_stored h ht hr)
        have hplain := RowStore.plain_of_exact h hfits hexact
        have hrow : ∀ r, (rs.tree s true plan r).row = r := RowTree.grow_row plan
        rw [← byKey_map (RowStore.filter_keys_nodup h ht ks) hrow]
        exact run_getAll_descendants h ht hne hd
          (run_list_plain (q := batch s plan.table ks d) h hplan hst hplain hrows)

/-- Looking up several keys finds those of them that are stored, each once and with the tree of its
row, deleted or not. The rows are those found without descendants. -/
theorem getAll_keys (h : rs.Reachable) (hs : s.NamesApart) (hplan : rs.db.plan name d = .ok plan)
    (hexact : plan.Exact) (hks : ∀ k ∈ ks, plan.table.Admits k) (hlength : ks.length < 2 ^ 63)
    (hst : st.cancelled = false) :
    ∃ result, (getAll ⟨rs.db, rs.backend, s⟩ name ks d).run.run st = (.ok result, st) ∧
      (getAll ⟨rs.db, rs.backend, s⟩ name ks .empty).run.run st =
        (.ok (result.map (fun e => (e.1, RowTree.leaf name e.2.row))), st) ∧
      (result.map Prod.fst).Nodup ∧
      ∀ k tree, (k, tree) ∈ result ↔
        k ∈ ks ∧ ∃ r ∈ rs.stored plan.table, Key.ofRow plan.table r = k ∧ tree = rs.tree s true plan r := by
  obtain ⟨hfits, rfl, -⟩ := h.wellFormed.plan_eq_ok hplan
  have ht := hfits.mem_tables
  have hkeys := hexact.keys plan none (Level.self_mem_walk plan none)
  have hrow : ∀ r, (rs.tree s true plan r).row = r := RowTree.grow_row plan
  refine ⟨_, run_getAll h hs hplan hexact hks hlength hst, ?_, ?_, fun k tree => ?_⟩
  · rw [run_getAll_empty h ht hkeys hks rfl hst, List.map_map]
    simp only [Function.comp_def, hrow]
  · rw [List.map_map]
    exact RowStore.filter_keys_nodup h ht ks
  · rw [List.mem_map]
    constructor
    · rintro ⟨r, hr, hfound⟩
      obtain ⟨rfl, rfl⟩ := Prod.mk.inj hfound
      obtain ⟨hstored, hk⟩ := List.mem_filter.1 hr
      exact ⟨of_decide_eq_true hk, r, hstored, rfl, rfl⟩
    · rintro ⟨hk, r, hr, rfl, rfl⟩
      exact ⟨r, List.mem_filter.2 ⟨hr, decide_eq_true hk⟩, rfl⟩

end Transaction

namespace Sample

theorem plan_exact : plan.Exact := by
  refine ⟨plan_apart, fun m q hm => ?_, fun m p hm => ?_⟩
  · rcases mem_walk hm with ⟨rfl, -⟩ | ⟨rfl, -⟩ <;> decide
  · obtain ⟨-, ⟨⟩⟩ | ⟨rfl, ⟨⟩⟩ := mem_walk hm
    decide

def wanted : List Key := [⟨[.int64 2]⟩, ⟨[.int64 3]⟩, ⟨[.int64 1]⟩, ⟨[.int64 2]⟩]

end Sample

theorem Transaction.getAll_keys_sample :
    Sample.marked.Reachable ∧ ReadSettings.NamesApart {} ∧ Sample.plan.Exact ∧
      (∀ k ∈ Sample.wanted, Sample.singers.Admits k) ∧ ∃ result,
        (getAll ⟨Sample.marked.db, Sample.marked.backend, {}⟩ "Singer" Sample.wanted
          (.ofList ["Album"])).run.run ⟨false, []⟩ = (.ok result, ⟨false, []⟩) ∧
        (⟨[.int64 2]⟩, Sample.marked.tree {} true Sample.plan Sample.ella) ∈ result ∧
        ∀ tree, (⟨[.int64 3]⟩, tree) ∉ result := by
  have hplan : Sample.marked.db.plan "Singer" (.ofList ["Album"]) = .ok Sample.plan := by cbv
  have hks : ∀ k ∈ Sample.wanted, Sample.singers.Admits k := by decide
  have hstored : Sample.marked.stored Sample.singers =
      [.ofFields [("id", .int64 1), ("name", .null)], Sample.ella] := by cbv
  have hella : Sample.ella ∈ Sample.marked.stored Sample.singers := by simp [hstored]
  have hst : (ReadState.mk false []).cancelled = false := rfl
  obtain ⟨result, hresult, -, -, hmem⟩ := getAll_keys Sample.marked_reachable
    ReadSettings.namesApart_default hplan Sample.plan_exact hks (by decide) hst
  refine ⟨Sample.marked_reachable, ReadSettings.namesApart_default, Sample.plan_exact, hks, result,
    hresult, (hmem _ _).2 ⟨by decide, Sample.ella, hella, rfl, rfl⟩, fun tree htree => ?_⟩
  obtain ⟨-, r, hr, hkey, -⟩ := (hmem _ _).1 htree
  rw [show Sample.plan.table = Sample.singers from rfl, hstored] at hr
  revert r
  decide

end RowForest
