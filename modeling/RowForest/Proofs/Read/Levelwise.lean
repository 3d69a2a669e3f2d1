import Mathlib
import RowForest.Read.Levelwise
import RowForest.Proofs.Plan.Contents
import RowForest.Proofs.Read.Backend
import RowForest.Proofs.Store.Writes

namespace RowForest

namespace RowTree

mutual

/-- The tree of a row, by the rows of a child table that belong to a row of its parent. -/
def grow (below : Table → Table → Row → List Row) : Level → Row → RowTree
  | ⟨t, _, children⟩, r => .node t.name r (growAll below t r children)
termination_by structural x => x

def growAll (below : Table → Table → Row → List Row) (t : Table) (r : Row) :
    List Level → List (String × List RowTree)
  | [] => []
  | l :: ls => (l.table.name, (below t l.table r).map (grow below l)) :: growAll below t r ls
termination_by structural x => x

end

variable {below : Table → Table → Row → List Row}

theorem growAll_eq (t : Table) (r : Row) (ls : List Level) : growAll below t r ls =
    ls.map (fun l => (l.table.name, (below t l.table r).map (grow below l))) := by
  induction ls with
  | nil => rfl
  | cons l ls ih => rw [growAll, ih, List.map_cons]

theorem grow_eq (l : Level) (r : Row) : grow below l r =
    .node l.table.name r (l.children.map (fun c =>
      (c.table.name, (below l.table c.table r).map (grow below c)))) := by
  obtain ⟨t, depth, children⟩ := l
  rw [grow, growAll_eq]

theorem grow_row (l : Level) (r : Row) : (grow below l r).row = r := by
  rw [grow_eq]
  rfl

end RowTree

namespace ReadSettings

def shows (s : ReadSettings) (showDeleted : Bool) (t : Table) (r : Row) : Bool :=
  showDeleted ||
    match t.softDelete? s.softDeleteColumn with
    | some c => (r.get c.name).isNull
    | none => true

theorem filter_shows (s : ReadSettings) (showDeleted : Bool) (t : Table) (rows : List Row) :
    (if showDeleted then rows else s.withoutDeleted t rows) = rows.filter (s.shows showDeleted t) := by
  unfold withoutDeleted shows
  cases showDeleted with
  | true => simp
  | false => cases t.softDelete? s.softDeleteColumn <;> simp

end ReadSettings

namespace RowStore

/-- The rows of a table that are shown, in the order of their keys. -/
def visible (rs : RowStore) (s : ReadSettings) (showDeleted : Bool) (t : Table) : List Row :=
  (rs.stored t).filter (s.shows showDeleted t)

/-- The shown rows of a table that are interleaved in a row of its parent: those whose keys
begin with that row's key. -/
def below (rs : RowStore) (s : ReadSettings) (showDeleted : Bool) (parent child : Table) (r : Row) :
    List Row :=
  (rs.visible s showDeleted child).filter
    (fun c => (Key.ofRow parent r).values.isPrefixOf (Key.ofRow child c).values)

/-- A row with everything interleaved in it, as far down as the levels go. -/
def tree (rs : RowStore) (s : ReadSettings) (showDeleted : Bool) : Level → Row → RowTree :=
  RowTree.grow (rs.below s showDeleted)

variable {rs : RowStore} {s : ReadSettings} {showDeleted : Bool}

theorem visible_sublist (t : Table) : (rs.visible s showDeleted t).Sublist (rs.stored t) :=
  List.filter_sublist

theorem visible_keys_nodup (h : rs.Reachable) {t : Table} (ht : t ∈ rs.db.tables) :
    ((rs.visible s showDeleted t).map (Key.ofRow t)).Nodup :=
  (stored_keys_nodup h ht).sublist ((visible_sublist t).map _)

theorem below_sorted (h : rs.Reachable) {child : Table} (hchild : child ∈ rs.db.tables) (t : Table)
    (r : Row) : (rs.below s showDeleted t child r).Pairwise (fun a b => ∃ k l,
      child.storedKey (Key.ofRow child a) = .ok k ∧ child.storedKey (Key.ofRow child b) = .ok l ∧
        compare k l = .lt) :=
  (stored_sorted h hchild).sublist (List.filter_sublist.trans (visible_sublist child))

end RowStore

namespace Fetched

theorem rows_cons_self (name : String) (rows : List Row) (f : Fetched) :
    Fetched.rows ((name, rows) :: f) name = rows := by
  simp [Fetched.rows]

theorem rows_cons_of_ne {name table : String} (h : table ≠ name) (rows : List Row) (f : Fetched) :
    Fetched.rows ((name, rows) :: f) table = f.rows table := by
  rw [Fetched.rows, Fields.lookup_cons_of_ne h, Fetched.rows]

end Fetched

namespace Levelwise

variable {rs : RowStore} {s : ReadSettings} {showDeleted : Bool} {plan : Level}

def fetch (rs : RowStore) (s : ReadSettings) (showDeleted : Bool) (f : Fetched) (e : Level × Level) :
    Fetched :=
  (e.1.table.name, (rs.visible s showDeleted e.1.table).filter (fun c =>
    (f.keys e.2.table).any (fun k => k.values.isPrefixOf (Key.ofRow e.1.table c).values))) :: f

def Sound (rs : RowStore) (f : Fetched) : Prop :=
  ∀ t ∈ rs.db.tables, ∀ r ∈ f.rows t.name, r ∈ rs.stored t

theorem fetch_sound (h : rs.Reachable) {f : Fetched} (hf : Sound rs f) {e : Level × Level}
    (he : e.1.table ∈ rs.db.tables) : Sound rs (fetch rs s showDeleted f e) := by
  intro t ht r hr
  by_cases hname : t.name = e.1.table.name
  · rw [fetch, hname, Fetched.rows_cons_self] at hr
    rw [h.wellFormed.eq_of_name ht he hname]
    exact (RowStore.visible_sublist _).subset (List.mem_filter.1 hr).1
  · rw [fetch, Fetched.rows_cons_of_ne hname] at hr
    exact hf t ht r hr

theorem run_readLevel (h : rs.Reachable) {f : Fetched} (hf : Sound rs f) {l parent : Level}
    (hparent : parent.table ∈ rs.db.tables) (hl : l.table ∈ rs.db.children parent.table.name)
    {st : ReadState} (hst : st.cancelled = false) :
    (readLevel rs.backend s showDeleted f l parent).run.run st =
      (.ok (fetch rs s showDeleted f (l, parent)), st) := by
  have htable : l.table ∈ rs.db.tables := (List.mem_filter.1 hl).1
  have hleads : ∀ k ∈ f.keys parent.table, l.table.Leads k := by
    intro k hk
    obtain ⟨r, hr, rfl⟩ := List.mem_map.1 hk
    exact RowStore.leads_of_child h hparent hl (hf _ hparent r hr)
  have hread : rs.read l.table.name (.underAny (f.keys parent.table)) l.table.columnNames =
      .ok ((rs.stored l.table).filter (fun c => (f.keys parent.table).any
        (fun k => k.values.isPrefixOf (Key.ofRow l.table c).values))) := by
    rw [RowStore.read, h.wellFormed.getTable_of_mem htable]
    exact RowStore.rowsIn_underAny h htable hleads
  rw [readLevel]
  cases hkeys : (f.keys parent.table).isEmpty with
  | true =>
      simp only [fetch, List.isEmpty_iff.1 hkeys, List.any_nil, List.filter_false]
      rfl
  | false =>
      have hrun := rs.run_backend_read hst l.table.name (.underAny (f.keys parent.table))
        l.table.columnNames
      rw [hread] at hrun
      rw [if_neg (by simp), ReadM.run_bind_ok (run_checkCancelled hst), ReadM.run_bind_ok hrun,
        s.filter_shows, List.filter_comm]
      rfl

theorem run_waves (h : rs.Reachable) (hplan : plan.Fits rs.db) {rows : List Row}
    (hrows : ∀ r ∈ rows, r ∈ rs.stored plan.table) {st : ReadState} (hst : st.cancelled = false) :
    (plan.waves.foldlM (readWave rs.backend s showDeleted) [(plan.table.name, rows)]).run.run st =
      (.ok (plan.waves.flatten.foldl (fetch rs s showDeleted) [(plan.table.name, rows)]), st) := by
  have hsound : Sound rs [(plan.table.name, rows)] := by
    intro t ht r hr
    by_cases hname : t.name = plan.table.name
    · rw [hname, Fetched.rows_cons_self] at hr
      rw [h.wellFormed.eq_of_name ht hplan.mem_tables hname]
      exact hrows r hr
    · rw [Fetched.rows_cons_of_ne hname] at hr
      exact absurd hr List.not_mem_nil
  rw [List.foldl_flatten]
  refine (ReadM.run_foldlM (P := Sound rs) ?_ hsound).1
  intro wave hwave f hf
  rw [readWave, ReadM.run_bind_ok (run_checkCancelled hst)]
  refine ReadM.run_foldlM (P := Sound rs) ?_ hf
  rintro ⟨l, parent⟩ he f hf
  have hmem := (Level.mem_waves hplan).1 (List.mem_flatten.2 ⟨wave, hwave, he⟩)
  obtain ⟨-, hchild, q, hparent⟩ := Level.depth_of_mem_walk hplan hmem
  have hfits := hplan.of_mem_walk hparent
  obtain ⟨-, hl, -⟩ := hfits.child hchild
  exact ⟨run_readLevel h hf hfits.mem_tables hl hst, fetch_sound h hf (List.mem_filter.1 hl).1⟩

def gather (answer : Level × Level → List Row → List Row) (f : Fetched) (e : Level × Level) : Fetched :=
  (e.1.table.name, answer e (f.rows e.2.table.name)) :: f

theorem fetch_eq_gather : fetch rs s showDeleted = gather (fun e parents =>
    (rs.visible s showDeleted e.1.table).filter (fun c => (parents.map (Key.ofRow e.2.table)).any
      (fun k => k.values.isPrefixOf (Key.ofRow e.1.table c).values))) := rfl

section

variable {answer : Level × Level → List Row → List Row} {db : Database}

theorem rows_foldl_gather {es : List (Level × Level)} {table : String}
    (h : ∀ e ∈ es, e.1.table.name ≠ table) (f : Fetched) :
    (es.foldl (gather answer) f).rows table = f.rows table := by
  induction es generalizing f with
  | nil => rfl
  | cons e es ih =>
      rw [List.foldl_cons, ih (fun e he => h e (List.mem_cons_of_mem _ he)), gather,
        Fetched.rows_cons_of_ne (h e List.mem_cons_self).symm]

/-- In the end there is for each level what its step added, which no later step has touched. -/
theorem rows_of_mem {es : List (Level × Level)} (hes : es.Pairwise Level.After)
    (hne : ∀ e ∈ es, e.1.table.name ≠ e.2.table.name) (f : Fetched) {e : Level × Level} (he : e ∈ es) :
    (es.foldl (gather answer) f).rows e.1.table.name =
      answer e ((es.foldl (gather answer) f).rows e.2.table.name) := by
  induction hes generalizing f with
  | nil => cases he
  | @cons d es hafter hes ih =>
      rw [List.foldl_cons]
      rcases List.mem_cons.1 he with rfl | he
      · have hself : ∀ d ∈ es, d.1.table.name ≠ e.1.table.name := fun d hd => (hafter d hd).1
        have hparent : ∀ d ∈ es, d.1.table.name ≠ e.2.table.name := fun d hd => (hafter d hd).2
        rw [rows_foldl_gather hself, rows_foldl_gather hparent, gather, Fetched.rows_cons_self,
          Fetched.rows_cons_of_ne (hne e List.mem_cons_self).symm]
      · exact ih (fun d hd => hne d (List.mem_cons_of_mem _ hd)) _ he

theorem rows_gathered (hdb : db.WellFormed) (hplan : plan.Fits db) {rows : List Row} {f : Fetched}
    (hf : plan.waves.flatten.foldl (gather answer) [(plan.table.name, rows)] = f) :
    f.rows plan.table.name = rows ∧ ∀ m p, (m, some p) ∈ plan.walk none →
      f.rows m.table.name = answer (m, p) (f.rows p.table.name) := by
  have hmem {m p : Level} := Level.mem_waves (m := m) (p := p) hplan
  constructor
  · rw [← hf, rows_foldl_gather, Fetched.rows_cons_self]
    exact fun e he => Level.name_ne_root hdb hplan (hmem.1 he)
  · intro m p hm
    have hself : ∀ e ∈ plan.waves.flatten, e.1.table.name ≠ e.2.table.name :=
      fun e he => Level.name_ne_of_mem_walk hdb hplan (hmem.1 he)
    rw [← hf]
    exact rows_of_mem (Level.waves_ordered hdb hplan) hself _ (hmem.2 hm)

end

theorem buildAll_eq (f : Fetched) (ls : List Level) :
    buildAll f ls = ls.map (fun l => (l.table, build f l (f.rows l.table.name))) := by
  induction ls with
  | nil => rfl
  | cons l ls ih => rw [buildAll, ih, List.map_cons]

theorem lookup_places {t : Table} {rows : List Row} (h : (rows.map (Key.ofRow t)).Nodup) {k : Key}
    {i : Nat} : (places t rows).lookup k = some i ↔ (rows[i]?).map (Key.ofRow t) = some k := by
  have hkeys : (places t rows).map Prod.fst = (rows.map (Key.ofRow t)).reverse := by
    conv_rhs => rw [← List.zipIdx_map_fst 0 rows]
    rw [places, List.map_reverse, List.map_map, List.map_map]
    rfl
  rw [Fields.lookup_eq_some (by rw [hkeys]; exact List.nodup_reverse.2 h), places, List.mem_reverse,
    List.mem_map, Option.map_eq_some_iff]
  constructor
  · rintro ⟨⟨r, j⟩, hr, heq⟩
    obtain ⟨rfl, rfl⟩ := Prod.mk.inj heq
    exact ⟨r, List.mem_zipIdx_iff_getElem?.1 hr, rfl⟩
  · rintro ⟨r, hr, rfl⟩
    exact ⟨(r, i), List.mem_zipIdx_iff_getElem?.2 hr, rfl⟩

def hold (t : Table) (rows : List Row) (below : Key → List (String × List RowTree)) : List RowTree :=
  rows.map (fun r => .node t.name r (below (Key.ofRow t r)))

def extend (table : String) (more : List RowTree) (below : List (String × List RowTree)) :
    List (String × List RowTree) :=
  below.map (fun (name, trees) => (name, if name = table then trees ++ more else trees))

def ownedBy (k : Key) (parent child : Table) (trees : List RowTree) : List RowTree :=
  trees.filter (fun tree => (Key.ofRow child tree.row).parentKey parent = k)

variable {t : Table} {rows : List Row}

theorem settle_hold (h : (rows.map (Key.ofRow t)).Nodup) (child : Table) (tree : RowTree)
    (below : Key → List (String × List RowTree)) : settle t (places t rows) child (hold t rows below) tree =
      hold t rows (fun k => if k = (Key.ofRow child tree.row).parentKey t then
        extend child.name [tree] (below k) else below k) := by
  obtain ⟨k, hk⟩ : ∃ k, (Key.ofRow child tree.row).parentKey t = k := ⟨_, rfl⟩
  rw [settle, hk]
  cases hplace : (places t rows).lookup k with
  | none =>
      refine List.map_congr_left fun r hr => ?_
      obtain ⟨i, hi⟩ := List.getElem?_of_mem hr
      have hne : Key.ofRow t r ≠ k := fun hkey => by
        cases hplace.symm.trans ((lookup_places h).2 (by rw [hi, Option.map_some, hkey]))
      dsimp only
      rw [if_neg hne]
  | some i =>
      refine List.ext_getElem? fun j => ?_
      rw [List.getElem?_modify, hold, hold, List.getElem?_map, List.getElem?_map]
      cases hj : rows[j]? with
      | none => rfl
      | some r =>
          have hkey : i = j ↔ Key.ofRow t r = k := by
            have hunique := lookup_places h (k := k) (i := j)
            rw [hplace, hj, Option.map_some, Option.some.injEq, Option.some.injEq] at hunique
            exact hunique
          by_cases hij : i = j
          · simp [if_pos hij, if_pos (hkey.1 hij), hang, extend]
          · simp [if_neg hij, if_neg (mt hkey.2 hij)]

theorem extend_nil (table : String) (below : List (String × List RowTree)) : extend table [] below = below := by
  simp [extend]

theorem extend_append (table : String) (more rest : List RowTree) (below : List (String × List RowTree)) :
    extend table rest (extend table more below) = extend table (more ++ rest) below := by
  rw [extend, extend, List.map_map]
  refine List.map_congr_left fun e _ => ?_
  by_cases h : e.1 = table <;> simp [h]

theorem foldl_settle (h : (rows.map (Key.ofRow t)).Nodup) (child : Table) (trees : List RowTree)
    (below : Key → List (String × List RowTree)) :
    trees.foldl (settle t (places t rows) child) (hold t rows below) =
      hold t rows (fun k => extend child.name (ownedBy k t child trees) (below k)) := by
  induction trees generalizing below with
  | nil => simp [ownedBy, extend_nil]
  | cons tree trees ih =>
      rw [List.foldl_cons, settle_hold h, ih]
      refine congrArg _ (funext fun k => ?_)
      rw [ownedBy, ownedBy, List.filter_cons]
      by_cases hk : k = (Key.ofRow child tree.row).parentKey t
      · simp [hk, extend_append]
      · simp [hk, Ne.symm hk]

theorem foldl_foldl_settle (h : (rows.map (Key.ofRow t)).Nodup) (children : List (Table × List RowTree))
    (below : Key → List (String × List RowTree)) :
    children.foldl (fun out c => c.2.foldl (settle t (places t rows) c.1) out) (hold t rows below) =
      hold t rows (fun k =>
        children.foldl (fun below c => extend c.1.name (ownedBy k t c.1 c.2) below) (below k)) := by
  induction children generalizing below with
  | nil => rfl
  | cons c children ih =>
      rw [List.foldl_cons, foldl_settle h, ih]
      rfl

theorem foldl_extend {α : Type} (name : α → String) (more : α → List RowTree) (as : List α)
    (below : List (String × List RowTree)) :
    as.foldl (fun below a => extend (name a) (more a) below) below = below.map (fun (table, trees) =>
      (table, trees ++ as.flatMap (fun a => if table = name a then more a else []))) := by
  induction as generalizing below with
  | nil => simp
  | cons a as ih =>
      rw [List.foldl_cons, ih, extend, List.map_map]
      refine List.map_congr_left fun e _ => ?_
      by_cases h : e.1 = name a <;> simp [h]

theorem flatMap_of_nodup {α β : Type} {name : α → String} (more : α → List β) {as : List α}
    (h : (as.map name).Nodup) {a : α} (ha : a ∈ as) :
    as.flatMap (fun b => if name a = name b then more b else []) = more a := by
  induction as with
  | nil => cases ha
  | cons b as ih =>
      rw [List.map_cons, List.nodup_cons] at h
      have hne : ∀ c ∈ as, name b ≠ name c := fun c hc heq => h.1 (List.mem_map.2 ⟨c, hc, heq.symm⟩)
      rw [List.flatMap_cons]
      rcases List.mem_cons.1 ha with rfl | ha
      · have hrest : ∀ c ∈ as, (if name a = name c then more c else []) = [] :=
          fun c hc => if_neg (hne c hc)
        rw [if_pos rfl, List.flatMap_eq_nil_iff.2 hrest, List.append_nil]
      · rw [if_neg (hne a ha).symm, List.nil_append, ih h.2 ha]

/-- Each row gets, of every child level, the trees whose keys lead to its own key. -/
theorem attach_eq (h : (rows.map (Key.ofRow t)).Nodup) {children : List (Table × List RowTree)}
    (hnames : (children.map (fun c => c.1.name)).Nodup) : attach t rows children = rows.map (fun r =>
      .node t.name r (children.map (fun c => (c.1.name, ownedBy (Key.ofRow t r) t c.1 c.2)))) := by
  refine (foldl_foldl_settle h children (fun _ => children.map (fun c => (c.1.name, [])))).trans ?_
  refine List.map_congr_left fun r _ => congrArg _ ?_
  refine (foldl_extend (fun c => c.1.name) (fun c => ownedBy (Key.ofRow t r) t c.1 c.2) children _).trans ?_
  rw [List.map_map]
  exact List.map_congr_left fun c hc => Prod.ext rfl (flatMap_of_nodup _ hnames hc)

theorem parentKey_eq_iff {parent : Table} {r c : Row} :
    (Key.ofRow t c).parentKey parent = Key.ofRow parent r ↔
      (Key.ofRow parent r).values <+: (Key.ofRow t c).values := by
  have hlength : (Key.ofRow parent r).values.length = parent.primaryKey.length := by
    simp [Key.ofRow, Table.keyColumns]
  rw [List.prefix_iff_eq_take, hlength, Key.parentKey, Key.leading]
  exact ⟨fun h => (congrArg Key.values h).symm, fun h => congrArg Key.mk h.symm⟩

theorem ownedBy_map (r : Row) (l : Level) (cs : List Row) :
    ownedBy (Key.ofRow t r) t l.table (cs.map (rs.tree s showDeleted l)) =
      (cs.filter (fun c => (Key.ofRow t r).values.isPrefixOf (Key.ofRow l.table c).values)).map
        (rs.tree s showDeleted l) := by
  rw [ownedBy, List.filter_map]
  refine congrArg _ (List.filter_congr fun c _ => ?_)
  rw [Function.comp_apply, RowStore.tree, RowTree.grow_row, Bool.eq_iff_iff, decide_eq_true_eq,
    List.isPrefixOf_iff_prefix, parentKey_eq_iff]

theorem filter_fetched (child : Table) {r : Row} (hr : r ∈ rows) :
    ((rs.visible s showDeleted child).filter (fun c => (rows.map (Key.ofRow t)).any
        (fun k => k.values.isPrefixOf (Key.ofRow child c).values))).filter
      (fun c => (Key.ofRow t r).values.isPrefixOf (Key.ofRow child c).values) =
        rs.below s showDeleted t child r := by
  rw [List.filter_filter, RowStore.below]
  refine List.filter_congr fun c _ => ?_
  rw [Bool.and_eq_left_iff_imp]
  exact fun hprefix => List.any_eq_true.2 ⟨_, List.mem_map.2 ⟨r, hr, rfl⟩, hprefix⟩

/-- Whether there is fetched for each level of a walk what is below the rows of its parent. -/
def Complete (rs : RowStore) (s : ReadSettings) (showDeleted : Bool) (f : Fetched) (l : Level) : Prop :=
  ∀ m q, (m, q) ∈ l.walk none → ∀ c ∈ m.children, f.rows c.table.name =
    (rs.visible s showDeleted c.table).filter (fun r =>
      (f.keys m.table).any (fun k => k.values.isPrefixOf (Key.ofRow c.table r).values))

theorem build_eq (h : rs.Reachable) {f : Fetched} {l : Level} (hl : l.Fits rs.db)
    (hf : Complete rs s showDeleted f l) (hkeys : (f.keys l.table).Nodup) :
    build f l (f.rows l.table.name) = (f.rows l.table.name).map (rs.tree s showDeleted l) := by
  induction hl with
  | @node t depth children ht hnames hchild hfits ih =>
      have hfetched := hf _ _ (Level.self_mem_walk ⟨t, depth, children⟩ none)
      dsimp only at hfetched hkeys ⊢
      rw [build, buildAll_eq, attach_eq hkeys (by rwa [List.map_map])]
      refine List.map_congr_left fun r hr => ?_
      rw [RowStore.tree, RowTree.grow_eq, List.map_map]
      refine congrArg _ (List.map_congr_left fun c hc => ?_)
      have hrows := hfetched c hc
      have hnodup : (f.keys c.table).Nodup := by
        rw [Fetched.keys, hrows]
        exact (RowStore.visible_keys_nodup h (hfits c hc).mem_tables).sublist
          (List.filter_sublist.map _)
      have hbelow : Complete rs s showDeleted f c := by
        intro m q hm
        obtain ⟨q', hm⟩ := Level.exists_mem_walk hm (some ⟨t, depth, children⟩)
        refine hf m q' ?_
        rw [Level.walk_eq]
        exact List.mem_cons_of_mem _ (List.mem_flatMap.2 ⟨c, hc, hm⟩)
      -- a child level is fetched below all rows at once, and each row then takes its own
      have hown := ih c hc hbelow hnodup
      rw [Function.comp_apply, hown, ownedBy_map, hrows, Fetched.keys, filter_fetched c.table hr]
      rfl

theorem run_read (h : rs.Reachable) {root : String} {requested : TableNames}
    (hplan : rs.db.plan root requested = .ok plan) {rows : List Row}
    (hrows : ∀ r ∈ rows, r ∈ rs.stored plan.table) (hkeys : (rows.map (Key.ofRow plan.table)).Nodup)
    {st : ReadState} (hst : st.cancelled = false) :
    (read rs.backend s showDeleted plan rows).run.run st =
      (.ok (rows.map (rs.tree s showDeleted plan)), st) := by
  obtain ⟨hfits, -, -⟩ := h.wellFormed.plan_eq_ok hplan
  rw [read, ReadM.run_bind_ok (run_waves h hfits hrows hst), ReadM.run_pure]
  obtain ⟨f, hf⟩ : ∃ f, plan.waves.flatten.foldl (fetch rs s showDeleted) [(plan.table.name, rows)] = f :=
    ⟨_, rfl⟩
  obtain ⟨hroot, hbelow⟩ := rows_gathered h.wellFormed hfits (fetch_eq_gather ▸ hf)
  have hcomplete : Complete rs s showDeleted f plan :=
    fun m q hm c hc => hbelow c m (Level.mem_walk_of_child hfits hm hc)
  have hbuild := build_eq h hfits hcomplete (by rw [Fetched.keys, hroot]; exact hkeys)
  rw [hroot] at hbuild
  rw [hf, hbuild]

/-- Reading level by level gives the tree of each root row, in the order of the rows. Below each
row of it the rows of a child table stand in the order of their keys. -/
theorem read_eq_tree (h : rs.Reachable) {root : String} {requested : TableNames}
    (hplan : rs.db.plan root requested = .ok plan) {rows : List Row}
    (hrows : ∀ r ∈ rows, r ∈ rs.stored plan.table) (hkeys : (rows.map (Key.ofRow plan.table)).Nodup)
    {st : ReadState} (hst : st.cancelled = false) :
    (read rs.backend s showDeleted plan rows).run.run st =
        (.ok (rows.map (rs.tree s showDeleted plan)), st) ∧
      ∀ m p, (m, some p) ∈ plan.walk none → ∀ r,
        (rs.below s showDeleted p.table m.table r).Pairwise (fun a b => ∃ k l,
          m.table.storedKey (Key.ofRow m.table a) = .ok k ∧
          m.table.storedKey (Key.ofRow m.table b) = .ok l ∧ compare k l = .lt) := by
  obtain ⟨hfits, -, -⟩ := h.wellFormed.plan_eq_ok hplan
  refine ⟨run_read h hplan hrows hkeys hst, fun m p hm r => ?_⟩
  exact RowStore.below_sorted h (hfits.of_mem_walk hm).mem_tables p.table r

end Levelwise

namespace Sample

def plan : Level := ⟨singers, 0, [⟨albums, 1, []⟩]⟩

end Sample

namespace Discography

open Sample (singers albums)

def tracks : Table := Globe.table "Track" ["id", "no", "track"] (some "Album")

def fans : Table := Globe.table "Fan" ["id", "fan"] (some "Singer")

def singer (id : Int64) : Row := .ofFields [("id", .int64 id), ("name", .string "Ella")]

def album (id no : Int64) : Row := .ofFields [("id", .int64 id), ("no", .int64 no), ("delete_time", .null)]

def deletedAlbum : Row := .ofFields [("id", .int64 1), ("no", .int64 4),
  ("delete_time", .timestamp ⟨0, 0, by decide, by decide, by decide⟩)]

def track (id no track : Int64) : Row := .ofFields [("id", .int64 id), ("no", .int64 no), ("track", .int64 track)]

def fan (id fan : Int64) : Row := .ofFields [("id", .int64 id), ("fan", .int64 fan)]

def tables : List Definition := [.createTable singers, .createTable albums, .createTable tracks, .createTable fans]

def writes : List Mutation := [
  .insert "Singer" (singer 2), .insert "Singer" (singer 1),
  .insert "Album" (album 1 3), .insert "Album" deletedAlbum, .insert "Album" (album 2 3), .insert "Album" (album 1 5),
  .insert "Track" (track 1 3 2), .insert "Track" (track 1 3 1), .insert "Track" (track 1 4 1),
  .insert "Track" (track 2 3 1),
  .insert "Fan" (fan 2 8), .insert "Fan" (fan 2 7)]

def db : Database := Database.empty.run tables

def store : RowStore := ((RowStore.ofDatabase db).apply writes).toOption.getD (.ofDatabase db)

def plan : Level := ⟨singers, 0, [⟨albums, 1, [⟨tracks, 2, []⟩]⟩, ⟨fans, 1, []⟩]⟩

def trees : List RowTree := [
  .node "Singer" (singer 2) [
    ("Album", [.node "Album" (album 2 3) [("Track", [.leaf "Track" (track 2 3 1)])]]),
    ("Fan", [.leaf "Fan" (fan 2 7), .leaf "Fan" (fan 2 8)])],
  .node "Singer" (singer 1) [
    ("Album", [.node "Album" (album 1 5) [("Track", [])],
      .node "Album" (album 1 3) [("Track", [.leaf "Track" (track 1 3 1), .leaf "Track" (track 1 3 2)])]]),
    ("Fan", [])]]

end Discography

/-- The deleted album is left out, and its track with it. -/
theorem Levelwise.read_eq_tree_sample :
    Discography.store.Reachable ∧
      Discography.store.db.plan "Singer" (.ofList ["Fan", "Track"]) = .ok Discography.plan ∧
      (∀ r ∈ [Discography.singer 2, Discography.singer 1], r ∈ Discography.store.stored Sample.singers) ∧
      (Levelwise.read Discography.store.backend {} false Discography.plan
        [Discography.singer 2, Discography.singer 1]).run.run ⟨false, []⟩ =
          (.ok Discography.trees, ⟨false, []⟩) := by
  have hstore : Discography.store.Reachable := RowStore.reachable_getD ⟨Discography.tables, rfl⟩ _
  have hplan : Discography.store.db.plan "Singer" (.ofList ["Fan", "Track"]) = .ok Discography.plan := by cbv
  have hstored : Discography.store.stored Sample.singers = [Discography.singer 1, Discography.singer 2] := by cbv
  have hrows : ∀ r ∈ [Discography.singer 2, Discography.singer 1],
      r ∈ Discography.store.stored Sample.singers := by
    rw [hstored]
    simp
  have htrees : [Discography.singer 2, Discography.singer 1].map
      (Discography.store.tree {} false Discography.plan) = Discography.trees := by cbv
  refine ⟨hstore, hplan, hrows, ?_⟩
  rw [← htrees]
  exact (Levelwise.read_eq_tree hstore hplan hrows (by decide) rfl).1

end RowForest
