import RowForest.Read.Transaction
import RowForest.Proofs.Plan.RowTree
import RowForest.Proofs.Plan.Statement

namespace RowForest

open Eval

/-- Whether something holds of each row of a tree and each table right below it. -/
inductive Level.Throughout (below : Table → Table → Row → List Row) (P : Table → Table → Row → Prop) :
    Level → Row → Prop
  | node {l : Level} {r : Row} (here : ∀ m ∈ l.children, P l.table m.table r)
      (further : ∀ m ∈ l.children, ∀ c ∈ below l.table m.table r, Throughout below P m c) :
      Throughout below P l r

theorem Level.throughout_iff {below : Table → Table → Row → List Row} {P : Table → Table → Row → Prop}
    {l : Level} {r : Row} : l.Throughout below P r ↔ ∀ m ∈ l.children, P l.table m.table r ∧
      ∀ c ∈ below l.table m.table r, m.Throughout below P c := by
  constructor
  · rintro ⟨here, further⟩ m hm
    exact ⟨here m hm, further m hm⟩
  · intro h
    exact .node (fun m hm => (h m hm).1) (fun m hm => (h m hm).2)

namespace RowStore

/-- The shown rows of a child table that are tied to a row of its parent, in the order of the
child table's key. -/
def joined (rs : RowStore) (s : ReadSettings) (showDeleted : Bool) (parent child : Table) (r : Row) :
    List Row :=
  ((rs.visible s showDeleted child).filter (parent.ties child r)).mergeSort child.keyLE

def nest (rs : RowStore) (s : ReadSettings) (showDeleted : Bool) : Level → Row → RowTree :=
  RowTree.grow (rs.joined s showDeleted)

mutual

def nestRow (rs : RowStore) (s : ReadSettings) (showDeleted : Bool) : Level → Row → Row
  | ⟨t, _, children⟩, r =>
    (nestArrays rs s showDeleted t r children).foldl (fun r f => r.set f.1 f.2) r
termination_by structural x => x

def nestArrays (rs : RowStore) (s : ReadSettings) (showDeleted : Bool) (t : Table) (r : Row) :
    List Level → List (String × Value)
  | [] => []
  | l :: ls => (l.table.name, .array (((rs.joined s showDeleted t l.table r).map
      (nestRow rs s showDeleted l)).map Row.toValue)) :: nestArrays rs s showDeleted t r ls
termination_by structural x => x

end

/-- Whether the ties of the shown child rows to a row all have a value. -/
def Decided (rs : RowStore) (s : ReadSettings) (showDeleted : Bool) (parent child : Table) (r : Row) :
    Prop :=
  ∀ c ∈ rs.visible s showDeleted child, ∃ v, parent.tie child r c = .ok v

variable {rs : RowStore} {s : ReadSettings} {showDeleted : Bool} {sc : Scope}

theorem nestArrays_eq (t : Table) (r : Row) (ls : List Level) : rs.nestArrays s showDeleted t r ls =
    RowTree.arrays (fun l => (rs.joined s showDeleted t l.table r).map (rs.nestRow s showDeleted l)) ls := by
  induction ls with
  | nil => rfl
  | cons l ls ih =>
      rw [nestArrays, ih]
      rfl

theorem nestRow_eq (l : Level) (r : Row) : rs.nestRow s showDeleted l r = RowTree.withArrays
    (fun m => (rs.joined s showDeleted l.table m.table r).map (rs.nestRow s showDeleted m)) l.children r := by
  obtain ⟨t, depth, children⟩ := l
  rw [nestRow, nestArrays_eq]
  rfl

theorem mem_joined {parent child : Table} {p c : Row} : c ∈ rs.joined s showDeleted parent child p ↔
    c ∈ rs.visible s showDeleted child ∧ parent.ties child p c = true := by
  rw [joined, List.mem_mergeSort, List.mem_filter]

theorem stored_of_mem_joined {parent child : Table} {p c : Row}
    (h : c ∈ rs.joined s showDeleted parent child p) : c ∈ rs.stored child :=
  (visible_sublist child).subset (mem_joined.1 h).1

theorem keepWhere_child (h : rs.Reachable) {parent child : Table} (hchild : child ∈ rs.db.tables)
    (hne : parent.name ≠ child.name) {p : Row} {kept : List Row} :
    keepWhere (sc.push parent.name p) child.name (some (s.childFilter showDeleted parent child))
        (rs.stored child) = .ok kept ↔
      rs.Decided s showDeleted parent child p ∧
        kept = (rs.visible s showDeleted child).filter (parent.ties child p) := by
  have hkeeps : ∀ c ∈ rs.stored child, keeps (sc.push parent.name p) child.name
      (some (s.childFilter showDeleted parent child)) c = if s.shows showDeleted child c then
        ((parent.tie child p c).mapError .eval).map (fun _ => parent.ties child p c) else .ok false :=
    fun c hc => ReadSettings.keeps_childFilter hne (holds_of_mem_stored h hchild hc).columns
  have hfilter (hties : ∀ c ∈ rs.visible s showDeleted child, ∃ v, parent.tie child p c = .ok v) :
      keepWhere (sc.push parent.name p) child.name (some (s.childFilter showDeleted parent child))
        (rs.stored child) = .ok ((rs.visible s showDeleted child).filter (parent.ties child p)) := by
    rw [visible, List.filter_filter]
    refine keepWhere_eq_filter fun c hc => ?_
    rw [hkeeps c hc]
    cases hshows : s.shows showDeleted child c with
    | false => simp
    | true =>
        obtain ⟨v, hv⟩ := hties c (List.mem_filter.2 ⟨hc, hshows⟩)
        simp [hv, Except.mapError, Except.map]
  constructor
  · intro hkept
    have hties : ∀ c ∈ rs.visible s showDeleted child, ∃ v, parent.tie child p c = .ok v := by
      intro c hc
      obtain ⟨hc, hshows⟩ := List.mem_filter.1 hc
      obtain ⟨b, hb⟩ := keeps_of_keepWhere hkept c hc
      rw [hkeeps c hc, if_pos hshows, Except.map_eq_ok] at hb
      obtain ⟨v, hv, -⟩ := hb
      exact ⟨v, Except.mapError_eq_ok.1 hv⟩
    rw [hfilter hties] at hkept
    exact ⟨hties, (Except.ok.inj hkept).symm⟩
  · rintro ⟨hties, rfl⟩
    exact hfilter hties

theorem select_child (h : rs.Reachable) {parent child : Table} (hchild : child ∈ rs.db.tables)
    (hne : parent.name ≠ child.name) {p : Row} {sel : List Row} :
    select rs.scan (sc.push parent.name p) child.name (some (s.childFilter showDeleted parent child))
        (Key.order child) none none = .ok sel ↔
      rs.Decided s showDeleted parent child p ∧
        sel = rs.joined s showDeleted parent child p := by
  have hsort : sortRows (sc.push parent.name p) child.name (Key.order child)
      ((rs.visible s showDeleted child).filter (parent.ties child p)) =
        .ok (rs.joined s showDeleted parent child p) := by
    refine sortRows_order fun c hc column hcolumn => ?_
    have hstored := (visible_sublist child).subset (List.mem_filter.1 hc).1
    rw [(holds_of_mem_stored h hchild hstored).columns]
    exact (h.wellFormed.tables child hchild).key_columns column hcolumn
  simp only [select, optionalCount, scan_eq_stored h hchild, Except.ok_bind, Except.bind_eq_ok,
    keepWhere_child h hchild hne, Option.getD_none, List.drop_zero, Except.pure_ok, Except.ok.injEq]
  constructor
  · rintro ⟨kept, ⟨hties, rfl⟩, sorted, hsorted, rfl⟩
    rw [hsort] at hsorted
    exact ⟨hties, (Except.ok.inj hsorted).symm⟩
  · rintro ⟨hties, rfl⟩
    exact ⟨_, ⟨hties, rfl⟩, _, hsort, rfl⟩

def Computes (rs : RowStore) (s : ReadSettings) (showDeleted : Bool) (parent : Table) (l : Level) :
    Prop :=
  ∀ (sc : Scope) (r : Row) (v : Value),
    itemValue rs.scan (sc.push parent.name r) r (s.childArray showDeleted parent l) = .ok v ↔
      (rs.Decided s showDeleted parent l.table r ∧ ∀ c ∈ rs.joined s showDeleted parent l.table r,
        l.Throughout (rs.joined s showDeleted) (rs.Decided s showDeleted) c) ∧
      v = .array (((rs.joined s showDeleted parent l.table r).map
        (rs.nestRow s showDeleted l)).map Row.toValue)

theorem childArray_name (parent : Table) (l : Level) :
    (s.childArray showDeleted parent l).name = l.table.name := by
  obtain ⟨t, depth, children⟩ := l
  rfl

theorem project_childArrays {t : Table} {r : Row} {ls : List Level}
    (hls : ∀ l ∈ ls, rs.Computes s showDeleted t l) {out res : Row} :
    project rs.scan (sc.push t.name r) r (s.childArrays showDeleted t ls) out = .ok res ↔
      (∀ l ∈ ls, rs.Decided s showDeleted t l.table r ∧ ∀ c ∈ rs.joined s showDeleted t l.table r,
        l.Throughout (rs.joined s showDeleted) (rs.Decided s showDeleted) c) ∧
      res = (rs.nestArrays s showDeleted t r ls).foldl (fun r f => r.set f.1 f.2) out := by
  induction ls generalizing out with
  | nil => simp [ReadSettings.childArrays, project, nestArrays, eq_comm]
  | cons l ls ih =>
      simp only [ReadSettings.childArrays, project, Except.bind_eq_ok, childArray_name,
        hls l List.mem_cons_self sc r, ih (fun l hl => hls l (List.mem_cons_of_mem _ hl)), nestArrays,
        List.foldl_cons, List.forall_mem_cons]
      constructor
      · rintro ⟨_, ⟨hl, rfl⟩, hls, rfl⟩
        exact ⟨⟨hl, hls⟩, rfl⟩
      · rintro ⟨⟨hl, hls⟩, rfl⟩
        exact ⟨_, ⟨hl, rfl⟩, hls, rfl⟩

theorem project_level {l : Level} {r : Row} (hr : l.table.Holds r)
    (hls : ∀ m ∈ l.children, rs.Computes s showDeleted l.table m) {res : Row} :
    project rs.scan (sc.push l.table.name r) r
        (ReadSettings.columnItems l.table ++ s.childArrays showDeleted l.table l.children) .empty =
          .ok res ↔
      l.Throughout (rs.joined s showDeleted) (rs.Decided s showDeleted) r ∧
        res = rs.nestRow s showDeleted l r := by
  obtain ⟨t, depth, children⟩ := l
  have hself : t.columnNames.foldl (fun out c => out.set c (r.get c)) Row.empty = r := by
    rw [← hr.columns]
    exact (List.foldl_map.symm.trans r.project_columns)
  rw [ReadSettings.columnItems, project_columns, hself, project_childArrays hls, Level.throughout_iff,
    nestRow]

/-- A subquery gives the rows tied to the row in scope, if all ties it looks at have a value. -/
theorem computes (h : rs.Reachable) {parent : Table} {l : Level} (hl : l.Fits rs.db)
    (hparent : l.table ∈ rs.db.children parent.name) : rs.Computes s showDeleted parent l := by
  induction hl generalizing parent with
  | @node t depth children ht hnames hchild hfits ih =>
      intro sc r v
      have hne := h.wellFormed.name_ne_of_child hparent
      have hrows : ∀ sel, sel = rs.joined s showDeleted parent t r → ∀ (rows : List Row),
          sel.mapM (fun c => project rs.scan ((sc.push parent.name r).push t.name c) c
            (ReadSettings.columnItems t ++ s.childArrays showDeleted t children) .empty) = .ok rows ↔
          (∀ c ∈ sel, Level.Throughout (rs.joined s showDeleted) (rs.Decided s showDeleted)
            ⟨t, depth, children⟩ c) ∧
            rows = sel.map (rs.nestRow s showDeleted ⟨t, depth, children⟩) := by
        rintro sel rfl rows
        refine Except.mapM_eq_ok_map fun c hc res => ?_
        exact project_level (l := ⟨t, depth, children⟩)
          (holds_of_mem_stored h ht (stored_of_mem_joined hc)) (fun c hc => ih c hc (hchild c hc).1)
      simp only [ReadSettings.childArray, itemValue, run, Except.bind_eq_ok, select_child h ht hne,
        Except.pure_ok, Except.ok.injEq]
      constructor
      · rintro ⟨rows, ⟨sel, ⟨hties, hsel⟩, hrun⟩, rfl⟩
        obtain ⟨hdecided, rfl⟩ := (hrows sel hsel rows).1 hrun
        subst hsel
        exact ⟨⟨hties, hdecided⟩, rfl⟩
      · rintro ⟨⟨hties, hdecided⟩, rfl⟩
        exact ⟨_, ⟨_, ⟨hties, rfl⟩, (hrows _ rfl _).2 ⟨hdecided, rfl⟩⟩, rfl⟩

end RowStore

end RowForest
