import RowForest.Proofs.Plan.Level

namespace RowForest

section

variable {db : Database} {requested : TableNames} {root : String} {plan l m p : Level}
  {q q' : Option Level}

def Database.wanted (db : Database) (requested : TableNames) (t : Table) : Bool :=
  requested.contains t.name || (db.descendants t.name).any (fun d => requested.contains d.name)

theorem Database.WellFormed.filter_wanted_eq_nil (h : db.WellFormed) (name : String) :
    (db.descendants name).filter (db.wanted requested) = [] ↔
      (db.descendants name).any (fun d => requested.contains d.name) = false := by
  rw [List.filter_eq_nil_iff, List.any_eq_false]
  constructor
  · intro hnone d hd hrequested
    exact hnone d hd (by rw [wanted, hrequested, Bool.true_or])
  · intro hnone d hd hwanted
    rw [wanted, Bool.or_eq_true, List.any_eq_true] at hwanted
    rcases hwanted with hrequested | ⟨e, he, hrequested⟩
    · exact hnone d hd hrequested
    · have hbelow := h.mem_descendants.1 (List.mem_map.2 ⟨d, hd, rfl⟩)
      have hbelow' := h.mem_descendants.1 (List.mem_map.2 ⟨e, he, rfl⟩)
      obtain ⟨e', he', hname⟩ := List.mem_map.1 (h.mem_descendants.2 (hbelow.trans hbelow'))
      exact hnone e' he' (hname ▸ hrequested)

namespace Level

theorem isEmpty_children (l : Level) (q : Option Level) : l.children.isEmpty = (l.walk q).tail.isEmpty := by
  rw [walk_eq, List.tail_cons]
  cases l.children with
  | nil => rfl
  | cons c cs => rw [List.flatMap_cons, walk_eq]; rfl

theorem flatMap_filter {α β : Type} (keep : α → Bool) (f : α → List β) (as : List α) :
    (as.filter keep).flatMap f = as.flatMap (fun a => if keep a then f a else []) := by
  induction as with
  | nil => rfl
  | cons a as ih =>
      rw [List.flatMap_cons, ← ih, List.filter_cons]
      cases keep a <;> simp

/-- A walk goes through the root and, in the order of the schema, through what is wanted below it. -/
theorem walk_tables (h : db.WellFormed) (depth : Nat) (t : Table) (q : Option Level) :
    ((within db requested db.tables.length depth t).walk q).map (fun e => e.1.table) =
      t :: (db.descendants t.name).filter (db.wanted requested) := by
  obtain ⟨name, hname⟩ : ∃ name, t.name = name := ⟨_, rfl⟩
  induction name using h.forest.down.induction generalizing depth t q with
  | _ name ih =>
      -- a child is kept exactly if it is wanted, and one that is not has nothing wanted below it
      have hchild : ∀ c ∈ db.children t.name, ∀ l q, l = within db requested db.tables.length (depth + 1) c →
          (if !l.children.isEmpty || requested.contains l.table.name then
            (l.walk q).map (fun e => e.1.table) else []) =
              (c :: db.descendants c.name).filter (db.wanted requested) := by
        rintro c hc l q rfl
        have hwalk := ih c.name ⟨c, hname ▸ hc, rfl⟩ (depth + 1) c q rfl
        have hempty : (within db requested db.tables.length (depth + 1) c).children.isEmpty =
            !(db.descendants c.name).any (fun d => requested.contains d.name) := by
          have htail := congrArg (fun ts => ts.tail.isEmpty) hwalk
          rw [← List.map_tail, List.isEmpty_map, ← isEmpty_children] at htail
          rw [htail, Bool.eq_not, ne_eq, Bool.eq_iff_iff, List.tail_cons, List.isEmpty_iff,
            h.filter_wanted_eq_nil]
          cases (db.descendants c.name).any (fun d => requested.contains d.name) <;> simp
        rw [hempty, Bool.not_not, within_table, Bool.or_comm, ← Database.wanted, hwalk]
        cases hwanted : db.wanted requested c with
        | true => rw [if_pos rfl, List.filter_cons_of_pos hwanted]
        | false =>
            rw [if_neg Bool.false_ne_true, List.filter_cons_of_neg (by simp [hwanted]), eq_comm,
              h.filter_wanted_eq_nil]
            rw [Database.wanted, Bool.or_eq_false_iff] at hwanted
            exact hwanted.2
      rw [h.forest.levels_eq, walk_eq, List.map_cons, List.map_flatMap, h.forest.descendants_eq,
        List.filter_flatMap, flatMap_filter, List.flatMap_map]
      exact congrArg _ (List.flatMap_congr fun c hc => hchild c hc _ _ rfl)

theorem parent?_of_child (hdb : db.WellFormed) (h : p.Fits db) (hm : m ∈ p.children) :
    db.parent? m.table.name = some p.table := by
  obtain ⟨-, hmem, -⟩ := h.child hm
  obtain ⟨t, ht, hname, -⟩ := hdb.parent?_of_mem_children hmem
  rw [ht, hdb.eq_of_name (Database.mem_of_parent? ht) h.mem_tables hname]

theorem ancestor_at_depth (hdb : db.WellFormed) (h : l.Fits db) (hdepth : l.depth = 0)
    (hm : (m, q') ∈ l.walk q) : (m.table :: db.ancestors m.table.name)[m.depth]? = some l.table := by
  have hstep : ∀ (p : Level) (q : Option Level) (m : Level), p.Fits db →
      (p.table :: db.ancestors p.table.name)[p.depth]? = some l.table → m ∈ p.children →
      (m.table :: db.ancestors m.table.name)[m.depth]? = some l.table := by
    intro p q m hp hup hm
    rw [(hp.child hm).2.2, List.getElem?_cons_succ, hdb.forest.ancestors_eq, parent?_of_child hdb hp hm]
    exact hup
  exact walk_induction
    (P := fun m _ => (m.table :: db.ancestors m.table.name)[m.depth]? = some l.table) h
    (by rw [hdepth]; rfl) hstep _ hm

theorem exists_of_depth (h : l.Fits db) (hdepth : l.depth = 0) (hm : (m, q) ∈ l.walk none) {k : Nat}
    (hk : k < m.depth) : ∃ n p, (n, some p) ∈ l.walk none ∧ n.depth = k + 1 := by
  obtain ⟨d, hd⟩ : ∃ d, m.depth = d := ⟨_, rfl⟩
  induction d generalizing m q with
  | zero => omega
  | succ d ih =>
      rcases parent_of_mem_walk h hm with ⟨rfl, -⟩ | ⟨p, rfl, -, -⟩
      · omega
      · obtain ⟨hstep, -, q', hp⟩ := depth_of_mem_walk h hm
        rcases Nat.lt_or_ge k p.depth with hlt | hge
        · exact ih hp hlt (by omega)
        · exact ⟨m, p, hm, by omega⟩

theorem wave_sublist (l : Level) (depth : Nat) :
    ((l.wave depth).map (fun e => (e.1, some e.2))).Sublist (l.walk none) := by
  rw [wave, atDepth]
  induction l.walk none with
  | nil => exact List.Sublist.refl _
  | cons e es ih =>
      obtain ⟨m, q⟩ := e
      cases q with
      | none => exact ih.cons _
      | some p =>
          by_cases hm : m.depth = depth
          · simpa [hm] using ih
          · simpa [hm] using ih.cons (m, some p)

/-- What a walk over the levels of a plan visits, in which order, how deep and below what. -/
structure Covers (db : Database) (requested : TableNames) (plan : Level) : Prop where
  tables : (plan.walk none).map (fun e => e.1.table) =
    plan.table :: (db.descendants plan.table.name).filter (db.wanted requested)
  rounds : ∀ out, StackWalk next [(plan, none)] out ↔ out = plan.walk none
  once : ((plan.walk none).map (fun e => e.1.table.name)).Nodup
  depth : ∀ m q, (m, q) ∈ plan.walk none →
    (m.table :: db.ancestors m.table.name)[m.depth]? = some plan.table
  parent : ∀ m q, (m, q) ∈ plan.walk none → m = plan ∧ q = none ∨
    ∃ p, q = some p ∧ db.parent? m.table.name = some p.table ∧ ∃ q', (p, q') ∈ plan.walk none

/-- The waves hold every level below the root, by depth and in the order of the walk. -/
structure Grouped (plan : Level) : Prop where
  members : ∀ i m p, (∃ w, plan.waves[i]? = some w ∧ (m, p) ∈ w) ↔
    (m, some p) ∈ plan.walk none ∧ m.depth = i + 1
  ordered : ∀ w ∈ plan.waves, (w.map (fun e => (e.1, some e.2))).Sublist (plan.walk none)
  nonempty : ∀ w ∈ plan.waves, w ≠ []
  parent : ∀ i w, plan.waves[i]? = some w → ∀ m p, (m, p) ∈ w →
    i = 0 ∧ p = plan ∨ ∃ j w' g, i = j + 1 ∧ plan.waves[j]? = some w' ∧ (p, g) ∈ w'

theorem within_covers (hdb : db.WellFormed) {t : Table} (ht : t ∈ db.tables) :
    (within db requested db.tables.length 0 t).Covers db requested := by
  have hfits : (within db requested db.tables.length 0 t).Fits db := within_fits hdb ht
  refine ⟨?_, fun _ => stackWalk_iff, walk_names_nodup hdb hfits none,
    fun m q hm => ancestor_at_depth hdb hfits (within_depth _ _ _) hm, ?_⟩
  · rw [within_table]
    exact walk_tables hdb 0 t none
  · intro m q hm
    refine (parent_of_mem_walk hfits hm).imp_right ?_
    rintro ⟨p, rfl, hchild, q', hp⟩
    exact ⟨p, rfl, parent?_of_child hdb (hfits.of_mem_walk hp) hchild, q', hp⟩

theorem Fits.grouped (h : l.Fits db) (hdepth : l.depth = 0) : l.Grouped := by
  refine ⟨mem_waves_at h, fun w hw => ?_, fun w hw => ?_, ?_⟩
  · obtain ⟨i, hi⟩ := List.getElem?_of_mem hw
    obtain ⟨-, rfl⟩ := (getElem?_waves h).1 hi
    exact wave_sublist l (i + 1)
  · obtain ⟨i, hi⟩ := List.getElem?_of_mem hw
    obtain ⟨⟨m, p, hm, hlt⟩, rfl⟩ := (getElem?_waves h).1 hi
    obtain ⟨n, p', hn, hlevel⟩ := exists_of_depth h hdepth hm hlt
    exact List.ne_nil_of_mem (mem_wave.2 ⟨hn, hlevel⟩)
  · intro i w hw m p hm
    obtain ⟨hwalk, hi⟩ := (mem_waves_at h i m p).1 ⟨w, hw, hm⟩
    obtain ⟨hstep, -, q, hp⟩ := depth_of_mem_walk h hwalk
    rcases parent_of_mem_walk h hp with ⟨rfl, -⟩ | ⟨g, rfl, -, -⟩
    · exact .inl ⟨by omega, rfl⟩
    · obtain ⟨hup, -, -⟩ := depth_of_mem_walk h hp
      obtain ⟨w', hw', hmem⟩ := (mem_waves_at h (i - 1) p g).2 ⟨hp, by omega⟩
      exact .inr ⟨i - 1, w', g, by omega, hw', hmem⟩

end Level

theorem Database.WellFormed.plan_eq_ok_iff (h : db.WellFormed) :
    db.plan root requested = .ok plan ↔ (∃ t ∈ db.tables, t.name = root ∧
      plan = Level.within db requested db.tables.length 0 t) ∧
        ∀ name ∈ requested.keys, db.IsAncestor root name := by
  simp only [Database.plan, Except.bind_eq_ok, getTable_eq_ok, h.table?_eq_some]
  have hfind : requested.keys.find? (fun n => n ∉ (db.descendants root).map Table.name) = none ↔
      ∀ name ∈ requested.keys, db.IsAncestor root name := by
    simp only [List.find?_eq_none, decide_not, Bool.not_eq_true', decide_eq_false_iff_not, not_not,
      h.mem_descendants]
  rw [← hfind]
  cases requested.keys.find? (fun n => n ∉ (db.descendants root).map Table.name) with
  | none => simp [and_assoc, eq_comm]
  | some name => simp

/-- A plan can be made exactly of a table there is and of tables below it. It holds the table, what
is requested and what connects them, and nothing else. -/
theorem Database.plan_contents (h : db.Reachable) (root : String) (requested : TableNames) :
    ((∃ plan, db.plan root requested = .ok plan) ↔
      (∃ t ∈ db.tables, t.name = root) ∧ ∀ name ∈ requested.keys, db.IsAncestor root name) ∧
    ∀ plan, db.plan root requested = .ok plan →
      plan.table.name = root ∧ plan.Covers db requested ∧ plan.Grouped := by
  constructor
  · simp only [h.wellFormed.plan_eq_ok_iff, exists_and_right]
    refine and_congr_left fun _ => ⟨?_, ?_⟩
    · rintro ⟨_, t, ht, hname, -⟩
      exact ⟨t, ht, hname⟩
    · rintro ⟨t, ht, hname⟩
      exact ⟨_, t, ht, hname, rfl⟩
  · intro plan hplan
    obtain ⟨hfits, hname, hdepth⟩ := h.wellFormed.plan_eq_ok hplan
    obtain ⟨⟨t, ht, -, rfl⟩, -⟩ := h.wellFormed.plan_eq_ok_iff.1 hplan
    exact ⟨hname, Level.within_covers h.wellFormed ht, hfits.grouped hdepth⟩

end

namespace Globe

def table (name : String) (key : List String) (parent : Option String) : Table where
  name := name
  columns := key.map (fun c => ⟨c, .scalar .int64, true, none, none, false⟩)
  primaryKey := key.map (fun c => ⟨c, false⟩)
  interleave := parent.map (fun p => ⟨p, .cascade⟩)

def regions : Table := table "Region" ["region"] none

def countries : Table := table "Country" ["region", "country"] (some "Region")

def cities : Table := table "City" ["region", "country", "city"] (some "Country")

def seas : Table := table "Sea" ["region", "sea"] (some "Region")

def db : Database :=
  Database.empty.run [.createTable regions, .createTable seas, .createTable countries, .createTable cities]

/-- The cities of a region are under its countries, and its seas are not asked for. -/
def plan : Level := ⟨regions, 0, [⟨countries, 1, [⟨cities, 2, []⟩]⟩]⟩

end Globe

theorem Database.plan_contents_sample : Globe.db.Reachable ∧
    Globe.db.plan "Region" (.ofList ["City"]) = .ok Globe.plan ∧
      Globe.plan.Covers Globe.db (.ofList ["City"]) ∧ Globe.plan.Grouped := by
  have hdb : Globe.db.Reachable := ⟨_, rfl⟩
  have hplan : Globe.db.plan "Region" (.ofList ["City"]) = .ok Globe.plan := rfl
  obtain ⟨-, hcovers, hgrouped⟩ := (plan_contents hdb "Region" (.ofList ["City"])).2 _ hplan
  exact ⟨hdb, hplan, hcovers, hgrouped⟩

end RowForest
