import RowForest.Plan.RowTree
import RowForest.Proofs.Outcome
import RowForest.Proofs.Row
import RowForest.Proofs.Schema.WellFormed

namespace RowForest.RowTree

variable {t : Table} {children : List Level}

def readField (t : Table) (children : List Level) (acc : Row × List (String × List RowTree))
    (f : String × Value) : Except Error (Row × List (String × List RowTree)) :=
  match t.column? f.1 with
  | some c =>
    if c.type.accepts f.2 then .ok (acc.1.set f.1 f.2, acc.2)
    else .error (.backend (.shape t.name f.1 (.type c.type f.2)))
  | none => do
    let trees ← ofChildren t.name f.1 f.2 children
    return (acc.1, Fields.put f.1 trees acc.2)

theorem ofRow_eq (depth : Nat) (r : Row) : ofRow ⟨t, depth, children⟩ r = do
    let (out, trees) ← r.fields.foldlM (readField t children)
      (Row.empty, children.map (fun l => (l.table.name, [])))
    return node t.name out trees := by
  rw [ofRow, ofFields]
  rfl

theorem ofChildren_eq {m : Level} (hm : m ∈ children)
    (hnames : (children.map (fun l => l.table.name)).Nodup) (table : String) (rows : List Row) :
    ofChildren table m.table.name (.array (rows.map Row.toValue)) children = rows.mapM (ofRow m) := by
  induction children with
  | nil => cases hm
  | cons l ls ih =>
      rw [List.map_cons, List.nodup_cons] at hnames
      rw [ofChildren]
      by_cases hname : l.table.name = m.table.name
      · have hl : m = l := by
          rcases List.mem_cons.1 hm with hl | hm
          · exact hl
          · exact absurd (List.mem_map.2 ⟨m, hm, hname.symm⟩) hnames.1
        subst hl
        rw [if_pos rfl, structs, Except.ok_bind, List.mapM_map]
        rfl
      · have hl : m ∈ ls := (List.mem_cons.1 hm).resolve_left (fun hl => hname (by rw [hl]))
        rw [if_neg hname, ih hl hnames.2]

theorem readFields_columns {fs : List (String × Value)} (h : ∀ f ∈ fs, t.hasColumn f.1 = true)
    {out : Row} {trees : List (String × List RowTree)} {acc : Row × List (String × List RowTree)} :
    fs.foldlM (readField t children) (out, trees) = .ok acc ↔
      (∀ f ∈ fs, ∀ c, t.column? f.1 = some c → c.type.accepts f.2 = true) ∧
        acc = (fs.foldl (fun r f => r.set f.1 f.2) out, trees) := by
  induction fs generalizing out with
  | nil => simp [eq_comm (a := acc)]
  | cons f fs ih =>
      obtain ⟨c, hc⟩ := Option.isSome_iff_exists.1 (h f List.mem_cons_self)
      have hread : readField t children (out, trees) f = if c.type.accepts f.2 then
          .ok (out.set f.1 f.2, trees) else .error (.backend (.shape t.name f.1 (.type c.type f.2))) := by
        simp only [readField, hc]
      rw [List.foldlM_cons, hread, List.foldl_cons, List.forall_mem_cons, hc]
      by_cases haccepts : c.type.accepts f.2 = true
      · rw [if_pos haccepts, Except.ok_bind, ih (fun f hf => h f (List.mem_cons_of_mem _ hf))]
        simp [haccepts]
      · rw [if_neg haccepts, Except.error_bind]
        simp [haccepts]

theorem readFields_levels {ls : List Level} {v : Level → Value} {res : Level → Except Error (List RowTree)}
    (hres : ∀ l ∈ ls, ofChildren t.name l.table.name (v l) children = res l)
    (h : ∀ l ∈ ls, t.column? l.table.name = none) {out : Row} {trees : List (String × List RowTree)}
    {acc : Row × List (String × List RowTree)} :
    (ls.map (fun l => (l.table.name, v l))).foldlM (readField t children) (out, trees) = .ok acc ↔
      (∀ l ∈ ls, ∃ ts, res l = .ok ts) ∧ acc = (out, ls.foldl (fun trees l =>
        Fields.put l.table.name ((res l).toOption.getD []) trees) trees) := by
  induction ls generalizing trees with
  | nil => simp [eq_comm (a := acc)]
  | cons l ls ih =>
      have hread : readField t children (out, trees) (l.table.name, v l) =
          (res l).map (fun ts => (out, Fields.put l.table.name ts trees)) := by
        simp only [readField, h l List.mem_cons_self, hres l List.mem_cons_self]
        cases res l <;> rfl
      rw [List.map_cons, List.foldlM_cons, hread, List.foldl_cons, List.forall_mem_cons]
      cases hl : res l with
      | error e => simp [Except.map]
      | ok ts =>
          rw [Except.map, Except.ok_bind, ih (fun l hl => hres l (List.mem_cons_of_mem _ hl))
            (fun l hl => h l (List.mem_cons_of_mem _ hl))]
          simp [Except.toOption]

theorem foldl_put_levels {ls : List Level} (hnames : (ls.map (fun l => l.table.name)).Nodup)
    (p : Level → Bool) (g : Level → List RowTree) (fs : List (String × List RowTree))
    (hfs : ∀ l ∈ ls, l.table.name ∉ fs.map Prod.fst) :
    (ls.filter p).foldl (fun trees l => Fields.put l.table.name (g l) trees)
        (fs ++ ls.map (fun l => (l.table.name, []))) =
      fs ++ ls.map (fun l => (l.table.name, if p l then g l else [])) := by
  induction ls generalizing fs with
  | nil => rfl
  | cons l ls ih =>
      rw [List.map_cons, List.nodup_cons] at hnames
      have hlater : ∀ ts : List RowTree, ∀ m ∈ ls,
          m.table.name ∉ (fs ++ [(l.table.name, ts)]).map Prod.fst := by
        intro ts m hm hmem
        rw [List.map_append, List.mem_append] at hmem
        rcases hmem with hmem | hmem
        · exact hfs m (List.mem_cons_of_mem _ hm) hmem
        · have hname : m.table.name = l.table.name := by simpa using hmem
          exact hnames.1 (List.mem_map.2 ⟨m, hm, hname⟩)
      cases hp : p l with
      | true =>
          have hrest := ih hnames.2 _ (hlater (g l))
          rw [List.append_assoc, List.append_assoc] at hrest
          rw [List.filter_cons_of_pos hp, List.foldl_cons, List.map_cons,
            Fields.put_append_of_not_mem (hfs l List.mem_cons_self), List.map_cons, hp, if_pos rfl]
          exact hrest
      | false =>
          have hrest := ih hnames.2 _ (hlater [])
          rw [List.append_assoc, List.append_assoc] at hrest
          rw [List.filter_cons_of_neg (by simp [hp]), List.map_cons, List.map_cons, hp,
            if_neg Bool.false_ne_true]
          exact hrest

def arrays (rows : Level → List Row) (ls : List Level) : List (String × Value) :=
  ls.map (fun l => (l.table.name, .array ((rows l).map Row.toValue)))

def withArrays (rows : Level → List Row) (ls : List Level) (r : Row) : Row :=
  (arrays rows ls).foldl (fun r f => r.set f.1 f.2) r

variable {rows : Level → List Row} {r : Row}

theorem names_arrays (rows : Level → List Row) (ls : List Level) :
    (arrays rows ls).map Prod.fst = ls.map (fun l => l.table.name) := by
  rw [arrays, List.map_map]
  rfl

section

variable (hnames : (children.map (fun l => l.table.name)).Nodup)
include hnames

theorem get?_withArrays (c : String) :
    (withArrays rows children r).get? c = ((arrays rows children).lookup c).or (r.get? c) :=
  Row.get?_foldl_set _ (names_arrays rows children ▸ hnames) r c

theorem get_withArrays_of_mem {m : Level} (hm : m ∈ children) :
    (withArrays rows children r).get m.table.name = .array ((rows m).map Row.toValue) := by
  have hlookup : (arrays rows children).lookup m.table.name =
      some (.array ((rows m).map Row.toValue)) :=
    (Fields.lookup_eq_some (names_arrays rows children ▸ hnames)).2
      (List.mem_map.2 ⟨m, hm, rfl⟩)
  rw [Row.get, get?_withArrays hnames, hlookup]
  rfl

theorem get_withArrays_of_not_mem {c : String} (hc : c ∉ children.map (fun l => l.table.name)) :
    (withArrays rows children r).get c = r.get c := by
  have hlookup : (arrays rows children).lookup c = none :=
    Fields.lookup_eq_none.2 (names_arrays rows children ▸ hc)
  rw [Row.get, get?_withArrays hnames, hlookup, Option.none_or, Row.get]

theorem columns_withArrays : (withArrays rows children r).columns =
    r.columns ++ (children.filter (fun m => m.table.name ∉ r.columns)).map (fun m => m.table.name) := by
  rw [withArrays, Row.columns_foldl_set _ (names_arrays rows children ▸ hnames),
    names_arrays, List.filter_map]
  rfl

theorem fields_withArrays (hr : r.columns = t.columnNames) : (withArrays rows children r).fields =
    t.columnNames.map (fun c => (c, (withArrays rows children r).get c)) ++
      arrays rows (children.filter (fun m => !t.hasColumn m.table.name)) := by
  have hfilter : children.filter (fun m => m.table.name ∉ t.columnNames) =
      children.filter (fun m => !t.hasColumn m.table.name) := by
    refine List.filter_congr fun m _ => ?_
    have hcolumn := t.hasColumn_iff m.table.name
    cases hhas : t.hasColumn m.table.name <;> simp [← hcolumn, hhas]
  rw [Row.fields_eq_map, columns_withArrays hnames, hr, List.map_append, List.map_map, hfilter, arrays]
  refine congrArg _ (List.map_congr_left fun m hm => ?_)
  rw [Function.comp_apply, get_withArrays_of_mem hnames (List.mem_filter.1 hm).1]

/-- A row with arrays is read as the row and the trees of the arrays' rows. The array of a level
that is named like a column is taken for the column's value, and no trees are read from it. -/
theorem ofRow_withArrays {depth : Nat} (hr : r.columns = t.columnNames) {tree : RowTree} :
    ofRow ⟨t, depth, children⟩ (withArrays rows children r) = .ok tree ↔
      (∀ c ∈ t.columnNames, ∀ column, t.column? c = some column →
        column.type.accepts ((withArrays rows children r).get c) = true) ∧
      (∀ m ∈ children, t.hasColumn m.table.name = false → ∃ ts, (rows m).mapM (ofRow m) = .ok ts) ∧
      tree = .node t.name ((withArrays rows children r).project t.columnNames)
        (children.map (fun m => (m.table.name, if t.hasColumn m.table.name then []
          else ((rows m).mapM (ofRow m)).toOption.getD []))) := by
  have hcolumns : ∀ f ∈ t.columnNames.map (fun c => (c, (withArrays rows children r).get c)),
      t.hasColumn f.1 = true := by
    rintro _ hf
    obtain ⟨c, hc, rfl⟩ := List.mem_map.1 hf
    exact (t.hasColumn_iff c).2 hc
  have hlevels : ∀ m ∈ children.filter (fun m => !t.hasColumn m.table.name),
      t.column? m.table.name = none := by
    intro m hm
    have hnot := (List.mem_filter.1 hm).2
    simpa [Table.hasColumn] using hnot
  have hread : ∀ m ∈ children.filter (fun m => !t.hasColumn m.table.name),
      ofChildren t.name m.table.name (.array ((rows m).map Row.toValue)) children =
        (rows m).mapM (ofRow m) :=
    fun m hm => ofChildren_eq (List.mem_filter.1 hm).1 hnames t.name (rows m)
  have hput := foldl_put_levels hnames (fun m => !t.hasColumn m.table.name)
    (fun m => ((rows m).mapM (ofRow m)).toOption.getD []) [] (by simp)
  have htrees : (fun m : Level => (m.table.name, if (!t.hasColumn m.table.name) = true
      then ((rows m).mapM (ofRow m)).toOption.getD [] else [])) = fun m => (m.table.name,
        if t.hasColumn m.table.name then [] else ((rows m).mapM (ofRow m)).toOption.getD []) := by
    funext m
    cases t.hasColumn m.table.name <;> rfl
  rw [List.nil_append, List.nil_append, htrees] at hput
  simp only [ofRow_eq, fields_withArrays hnames hr, List.foldlM_append, Except.bind_eq_ok,
    readFields_columns hcolumns, arrays, readFields_levels hread hlevels, Except.pure_ok,
    Except.ok.injEq, List.forall_mem_map, List.mem_filter, Bool.not_eq_true', and_imp]
  constructor
  · rintro ⟨_, ⟨_, ⟨haccepts, rfl⟩, hreads, rfl⟩, rfl⟩
    rw [hput]
    exact ⟨haccepts, hreads, rfl⟩
  · rintro ⟨haccepts, hreads, rfl⟩
    refine ⟨_, ⟨_, ⟨haccepts, rfl⟩, hreads, rfl⟩, ?_⟩
    rw [hput]
    rfl

end

end RowForest.RowTree
