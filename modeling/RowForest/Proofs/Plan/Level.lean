import RowForest.Proofs.Schema.Forest

namespace RowForest

namespace Database

variable {db : Database} {name : String} {c : Table}

def above (db : Database) : Nat → String → Option String
  | 0, name => some name
  | k + 1, name => (db.above k name).bind (fun n => (db.parent? n).map Table.name)

theorem WellFormed.above_child (h : db.WellFormed) (hc : c ∈ db.children name) {k : Nat} {n : String}
    (hk : db.above k n = some c.name) : db.above (k + 1) n = some name := by
  obtain ⟨p, hp, hname, -⟩ := h.parent?_of_mem_children hc
  simp [above, hk, hp, hname]

theorem WellFormed.length_ancestors_child (h : db.WellFormed) (hc : c ∈ db.children name) :
    (db.ancestors c.name).length = (db.ancestors name).length + 1 := by
  obtain ⟨p, hp, rfl, -⟩ := h.parent?_of_mem_children hc
  rw [h.forest.ancestors_eq c.name, hp, List.length_cons]

end Database

namespace Level

/-- Whether a level lies over the schema: below it are tables interleaved in its own, each
at most once. -/
inductive Fits (db : Database) : Level → Prop
  | node {t : Table} {depth : Nat} {children : List Level} (ht : t ∈ db.tables)
      (hnames : (children.map (fun l => l.table.name)).Nodup)
      (hchild : ∀ l ∈ children, l.table ∈ db.children t.name ∧ l.depth = depth + 1)
      (hfits : ∀ l ∈ children, Fits db l) : Fits db ⟨t, depth, children⟩

variable {db : Database} {requested : TableNames} {l m p : Level} {q q' : Option Level}

theorem Fits.mem_tables (h : l.Fits db) : l.table ∈ db.tables := by
  cases h with
  | node ht => exact ht

theorem Fits.child (h : p.Fits db) (hm : m ∈ p.children) :
    m.Fits db ∧ m.table ∈ db.children p.table.name ∧ m.depth = p.depth + 1 := by
  cases h with
  | node _ _ hchild hfits => exact ⟨hfits m hm, hchild m hm⟩

@[simp] theorem within_table (n depth : Nat) (t : Table) :
    (within db requested n depth t).table = t := by
  cases n <;> rfl

@[simp] theorem within_depth (n depth : Nat) (t : Table) :
    (within db requested n depth t).depth = depth := by
  cases n <;> rfl

theorem within_fits (h : db.WellFormed) {n depth : Nat} {t : Table} (ht : t ∈ db.tables) :
    (within db requested n depth t).Fits db := by
  induction n generalizing depth t with
  | zero => exact .node ht .nil (by simp) (by simp)
  | succ n ih =>
      have hchild : ∀ l ∈ (db.children t.name).map (within db requested n (depth + 1)),
          ∃ c ∈ db.children t.name, within db requested n (depth + 1) c = l :=
        fun l hl => List.mem_map.1 hl
      refine .node ht ?_ (fun l hl => ?_) (fun l hl => ?_)
      · have hnodup : (((db.children t.name).map (within db requested n (depth + 1))).map
            (fun l => l.table.name)).Nodup := by
          rw [List.map_map]
          have hnames : (db.children t.name).map
              ((fun l => l.table.name) ∘ within db requested n (depth + 1)) =
              (db.children t.name).map Table.name := List.map_congr_left (fun c _ => by simp)
          rw [hnames]
          exact h.tables_nodup.sublist (List.filter_sublist.map _)
        exact hnodup.sublist (List.filter_sublist.map _)
      · obtain ⟨c, hc, rfl⟩ := hchild l (List.mem_filter.1 hl).1
        exact ⟨by simpa using hc, by simp⟩
      · obtain ⟨c, hc, rfl⟩ := hchild l (List.mem_filter.1 hl).1
        exact ih (List.mem_filter.1 hc).1

theorem within_empty (n depth : Nat) (t : Table) : within db .empty n depth t = ⟨t, depth, []⟩ := by
  induction n generalizing depth t with
  | zero => rfl
  | succ n ih =>
      rw [within]
      refine congrArg _ (List.filter_eq_nil_iff.2 fun l hl => ?_)
      obtain ⟨c, -, rfl⟩ := List.mem_map.1 hl
      rw [ih]
      exact Bool.false_ne_true

theorem walkAll_eq (q : Option Level) (ls : List Level) : walkAll q ls = ls.flatMap (walk q) := by
  induction ls with
  | nil => rfl
  | cons l ls ih => rw [walkAll, ih, List.flatMap_cons]

theorem walk_eq (q : Option Level) (l : Level) :
    l.walk q = (l, q) :: l.children.flatMap (walk (some l)) := by
  obtain ⟨t, depth, children⟩ := l
  rw [walk, walkAll_eq]

theorem self_mem_walk (l : Level) (q : Option Level) : (l, q) ∈ l.walk q := by
  rw [walk_eq]
  exact List.mem_cons_self

theorem exists_mem_walk (hm : (m, q') ∈ l.walk q) (p : Option Level) : ∃ q'', (m, q'') ∈ l.walk p := by
  rw [walk_eq, List.mem_cons] at hm
  rw [walk_eq]
  rcases hm with heq | hm
  · cases heq
    exact ⟨p, List.mem_cons_self⟩
  · exact ⟨q', List.mem_cons_of_mem _ hm⟩

/-- What holds of a level and passes from each level to the ones below it holds all over a walk. -/
theorem walk_induction {P : Level → Option Level → Prop} (h : l.Fits db) (hroot : P l q)
    (hstep : ∀ p q m, p.Fits db → P p q → m ∈ p.children → P m (some p)) :
    ∀ e ∈ l.walk q, P e.1 e.2 := by
  induction h generalizing q with
  | @node t depth children ht hnames hchild hfits ih =>
      intro e he
      rw [walk_eq, List.mem_cons, List.mem_flatMap] at he
      rcases he with rfl | ⟨m, hm, he⟩
      · exact hroot
      · exact ih m hm (hstep _ q m (.node ht hnames hchild hfits) hroot hm) e he

theorem Fits.of_mem_walk (h : l.Fits db) (hm : (m, q') ∈ l.walk q) : m.Fits db :=
  walk_induction (P := fun m _ => m.Fits db) h h (fun _ _ _ hp _ hm => (hp.child hm).1) _ hm

theorem parent_of_mem_walk (h : l.Fits db) (hm : (m, q') ∈ l.walk q) :
    m = l ∧ q' = q ∨ ∃ p, q' = some p ∧ m ∈ p.children ∧ ∃ q'', (p, q'') ∈ l.walk q := by
  induction h generalizing q with
  | @node t depth children ht hnames hchild hfits ih =>
      rw [walk_eq, List.mem_cons, List.mem_flatMap] at hm
      rcases hm with heq | ⟨c, hc, hm⟩
      · cases heq
        exact .inl ⟨rfl, rfl⟩
      · right
        rcases ih c hc hm with ⟨rfl, rfl⟩ | ⟨p, rfl, hmp, q'', hp⟩
        · exact ⟨_, rfl, hc, q, self_mem_walk _ q⟩
        · refine ⟨p, rfl, hmp, q'', ?_⟩
          rw [walk_eq]
          exact List.mem_cons_of_mem _ (List.mem_flatMap.2 ⟨c, hc, hp⟩)

theorem mem_walk_of_child (h : l.Fits db) (hp : (p, q') ∈ l.walk q) (hm : m ∈ p.children) :
    (m, some p) ∈ l.walk q := by
  induction h generalizing q with
  | @node t depth children ht hnames hchild hfits ih =>
      rw [walk_eq, List.mem_cons, List.mem_flatMap] at hp ⊢
      right
      rcases hp with heq | ⟨c, hc, hp⟩
      · cases heq
        exact ⟨m, hm, self_mem_walk m _⟩
      · exact ⟨c, hc, ih c hc hp⟩

theorem above_of_mem_walk (hdb : db.WellFormed) (h : l.Fits db) (hm : (m, q') ∈ l.walk q) :
    l.depth ≤ m.depth ∧ db.above (m.depth - l.depth) m.table.name = some l.table.name ∧
      (db.ancestors m.table.name).length = (db.ancestors l.table.name).length + (m.depth - l.depth) := by
  induction h generalizing q with
  | @node t depth children ht hnames hchild hfits ih =>
      rw [walk_eq, List.mem_cons, List.mem_flatMap] at hm
      rcases hm with heq | ⟨c, hc, hm⟩
      · cases heq
        simp [Database.above]
      · obtain ⟨hle, habove, hlength⟩ := ih c hc hm
        obtain ⟨hmem, hdepth⟩ := hchild c hc
        have hstep : m.depth - depth = m.depth - c.depth + 1 := by omega
        rw [hdb.length_ancestors_child hmem] at hlength
        dsimp only
        refine ⟨by omega, ?_, by omega⟩
        rw [hstep]
        exact hdb.above_child hmem habove

theorem walk_names_nodup (hdb : db.WellFormed) (h : l.Fits db) (q : Option Level) :
    ((l.walk q).map (fun e => e.1.table.name)).Nodup := by
  induction h generalizing q with
  | @node t depth children ht hnames hchild hfits ih =>
      rw [walk_eq, List.map_cons, List.nodup_cons, List.map_flatMap, List.nodup_flatMap]
      refine ⟨?_, fun c hc => ih c hc _, ?_⟩
      · intro hmem
        obtain ⟨c, hc, hmem⟩ := List.mem_flatMap.1 hmem
        obtain ⟨⟨m, q'⟩, hm, hname⟩ := List.mem_map.1 hmem
        obtain ⟨-, -, hlength⟩ := above_of_mem_walk hdb (hfits c hc) hm
        have hchildLength := hdb.length_ancestors_child (hchild c hc).1
        dsimp only at hname
        rw [hname] at hlength
        omega
      · refine (List.pairwise_map.1 hnames).imp_of_mem ?_
        intro c d hc hd hne name hmc hmd
        obtain ⟨⟨m, _⟩, hm, hname⟩ := List.mem_map.1 hmc
        obtain ⟨⟨n, _⟩, hn, hname'⟩ := List.mem_map.1 hmd
        obtain ⟨-, habove, hlength⟩ := above_of_mem_walk hdb (hfits c hc) hm
        obtain ⟨-, habove', hlength'⟩ := above_of_mem_walk hdb (hfits d hd) hn
        have hc' := hdb.length_ancestors_child (hchild c hc).1
        have hd' := hdb.length_ancestors_child (hchild d hd).1
        dsimp only at hname hname'
        rw [hname] at habove hlength
        rw [hname'] at habove' hlength'
        -- siblings are equally deep, so both stand equally far above the shared table
        have hsteps : m.depth - c.depth = n.depth - d.depth := by omega
        rw [hsteps, habove'] at habove
        exact hne (Option.some.inj habove).symm

theorem eq_of_mem_walk (hdb : db.WellFormed) (h : l.Fits db) {e e' : Level × Option Level}
    (he : e ∈ l.walk q) (he' : e' ∈ l.walk q) (hname : e.1.table.name = e'.1.table.name) : e = e' :=
  List.inj_on_of_nodup_map (walk_names_nodup hdb h q) he he' hname

def next (e : Level × Option Level) : List (Level × Option Level) := e.1.children.map (fun c => (c, some e.1))

theorem next_wf : WellFounded (fun d e => d ∈ next e) := by
  apply Subrelation.wf (r := InvImage (· < ·) (fun e : Level × Option Level => sizeOf e.1))
  · rintro _ ⟨⟨t, depth, children⟩, q⟩ hd
    obtain ⟨c, hc, rfl⟩ := List.mem_map.1 hd
    have hlt := List.sizeOf_lt_of_mem hc
    simp only [InvImage, Level.mk.sizeOf_spec] at hlt ⊢
    omega
  · exact InvImage.wf _ Nat.lt_wfRel.wf

theorem stackWalk_iff {out : List (Level × Option Level)} :
    StackWalk next [(l, q)] out ↔ out = l.walk q := by
  have htree : ∀ e : Level × Option Level, e.1.walk e.2 = e :: (next e).flatMap (fun d => d.1.walk d.2) := by
    intro e
    rw [walk_eq, next, List.flatMap_map]
  have hwalk : StackWalk next [(l, q)].reverse out ↔ out = [(l, q)].flatMap (fun e => e.1.walk e.2) :=
    StackWalk.iff_flatMap htree next_wf
  simpa using hwalk

def atDepth (es : List (Level × Option Level)) (depth : Nat) : List (Level × Level) :=
  es.filterMap (fun (m, parent) => parent.bind (fun p => if m.depth = depth then some (m, p) else none))

def wave (l : Level) (depth : Nat) : List (Level × Level) := atDepth (l.walk none) depth

theorem length_file (ws : List (List (Level × Level))) (m : Level) (q : Option Level) :
    (file ws (m, q)).length = if q.isSome then max ws.length m.depth else ws.length := by
  cases q with
  | none => rfl
  | some p =>
      simp only [file, List.length_modify, List.length_append, List.length_replicate, Option.isSome_some,
        if_true]
      omega

theorem getElem?_file (ws : List (List (Level × Level))) (hm : 0 < m.depth) (i : Nat) :
    ((file ws (m, some p))[i]?).getD [] = (ws[i]?).getD [] ++ if m.depth = i + 1 then [(m, p)] else [] := by
  have hresized : ((ws ++ List.replicate (m.depth - ws.length) [])[i]?).getD [] = (ws[i]?).getD [] := by
    rcases Nat.lt_or_ge i ws.length with hi | hi
    · rw [List.getElem?_append_left hi]
    · rw [List.getElem?_append_right hi, List.getElem?_eq_none hi, List.getElem?_replicate]
      split <;> rfl
  rw [file, List.getElem?_modify, ← hresized]
  by_cases hi : m.depth = i + 1
  · have hlt : i < (ws ++ List.replicate (m.depth - ws.length) []).length := by
      rw [List.length_append, List.length_replicate]
      omega
    rw [List.getElem?_eq_getElem hlt, if_pos hi]
    simp [hi]
  · have hne : m.depth - 1 ≠ i := by omega
    simp [hi, hne]

/-- Filed one after another, the levels of each depth stand in the order in which they came. -/
theorem getElem?_foldl_file {es : List (Level × Option Level)}
    (hes : ∀ m p, (m, some p) ∈ es → 0 < m.depth) (ws : List (List (Level × Level))) (i : Nat) :
    ((es.foldl file ws)[i]?).getD [] = (ws[i]?).getD [] ++ atDepth es (i + 1) := by
  induction es generalizing ws with
  | nil => exact (List.append_nil _).symm
  | cons e es ih =>
      obtain ⟨m, q⟩ := e
      rw [List.foldl_cons, ih fun m p hm => hes m p (List.mem_cons_of_mem _ hm)]
      cases q with
      | none => rfl
      | some p =>
          rw [getElem?_file ws (hes m p List.mem_cons_self), List.append_assoc]
          by_cases hi : m.depth = i + 1 <;> simp [atDepth, hi]

theorem lt_length_foldl_file {es : List (Level × Option Level)} {ws : List (List (Level × Level))} {i : Nat} :
    i < (es.foldl file ws).length ↔ i < ws.length ∨ ∃ m p, (m, some p) ∈ es ∧ i < m.depth := by
  induction es generalizing ws with
  | nil => simp
  | cons e es ih =>
      obtain ⟨m, q⟩ := e
      rw [List.foldl_cons, ih, length_file]
      cases q with
      | none => simp
      | some p =>
          have hmax : i < max ws.length m.depth ↔ i < ws.length ∨ i < m.depth := by omega
          rw [Option.isSome_some, if_pos rfl, hmax, or_assoc]
          refine or_congr_right ⟨?_, ?_⟩
          · rintro (hi | ⟨m', p', hm, hi⟩)
            · exact ⟨m, p, List.mem_cons_self, hi⟩
            · exact ⟨m', p', List.mem_cons_of_mem _ hm, hi⟩
          · rintro ⟨m', p', hm, hi⟩
            rcases List.mem_cons.1 hm with heq | hm
            · obtain ⟨rfl, -⟩ := Prod.mk.inj heq
              exact .inl hi
            · exact .inr ⟨m', p', hm, hi⟩

theorem mem_wave {depth : Nat} :
    (m, p) ∈ l.wave depth ↔ (m, some p) ∈ l.walk none ∧ m.depth = depth := by
  simp only [wave, atDepth, List.mem_filterMap, Option.bind_eq_some_iff, Option.ite_none_right_eq_some,
    Prod.exists, Option.some.injEq, Prod.mk.injEq]
  constructor
  · rintro ⟨m, _, hm, p, rfl, hdepth, rfl, rfl⟩
    exact ⟨hm, hdepth⟩
  · rintro ⟨hm, hdepth⟩
    exact ⟨m, some p, hm, p, rfl, hdepth, rfl, rfl⟩

theorem depth_of_mem_walk (h : l.Fits db) (hm : (m, some p) ∈ l.walk none) :
    m.depth = p.depth + 1 ∧ m ∈ p.children ∧ ∃ q, (p, q) ∈ l.walk none := by
  rcases parent_of_mem_walk h hm with ⟨-, hq⟩ | ⟨_, hq, hchild, hp⟩
  · cases hq
  · cases hq
    obtain ⟨q, hp⟩ := hp
    exact ⟨((h.of_mem_walk hp).child hchild).2.2, hchild, q, hp⟩

theorem getElem?_waves (h : l.Fits db) {i : Nat} {w : List (Level × Level)} :
    l.waves[i]? = some w ↔ (∃ m p, (m, some p) ∈ l.walk none ∧ i < m.depth) ∧ l.wave (i + 1) = w := by
  have hdeep : ∀ m p, (m, some p) ∈ l.walk none → 0 < m.depth := by
    intro m p hm
    rw [(depth_of_mem_walk h hm).1]
    exact Nat.succ_pos _
  have hlength : i < l.waves.length ↔ i < 0 ∨ ∃ m p, (m, some p) ∈ l.walk none ∧ i < m.depth :=
    lt_length_foldl_file
  have hwave : (l.waves[i]?).getD [] = l.wave (i + 1) := getElem?_foldl_file hdeep [] i
  rw [← hwave]
  rw [or_iff_right (Nat.not_lt_zero i)] at hlength
  rw [← hlength]
  constructor
  · intro hw
    exact ⟨(List.getElem?_eq_some_iff.1 hw).1, by rw [hw, Option.getD_some]⟩
  · rintro ⟨hi, rfl⟩
    rw [List.getElem?_eq_getElem hi, Option.getD_some]

theorem mem_waves_at (h : l.Fits db) (i : Nat) (m p : Level) :
    (∃ w, l.waves[i]? = some w ∧ (m, p) ∈ w) ↔ (m, some p) ∈ l.walk none ∧ m.depth = i + 1 := by
  simp only [getElem?_waves h]
  constructor
  · rintro ⟨_, ⟨-, rfl⟩, hm⟩
    exact mem_wave.1 hm
  · rintro ⟨hm, hi⟩
    exact ⟨_, ⟨⟨m, p, hm, by omega⟩, rfl⟩, mem_wave.2 ⟨hm, hi⟩⟩

theorem mem_waves (h : l.Fits db) : (m, p) ∈ l.waves.flatten ↔ (m, some p) ∈ l.walk none := by
  rw [List.mem_flatten]
  constructor
  · rintro ⟨w, hw, hm⟩
    obtain ⟨i, hi⟩ := List.getElem?_of_mem hw
    exact ((mem_waves_at h i m p).1 ⟨w, hi, hm⟩).1
  · intro hm
    obtain ⟨w, hw, hmem⟩ := (mem_waves_at h p.depth m p).2 ⟨hm, (depth_of_mem_walk h hm).1⟩
    exact ⟨w, List.mem_of_getElem? hw, hmem⟩

theorem name_ne_of_mem_walk (hdb : db.WellFormed) (h : l.Fits db) (hm : (m, some p) ∈ l.walk none) :
    m.table.name ≠ p.table.name := by
  intro hname
  obtain ⟨hstep, -, q, hp⟩ := depth_of_mem_walk h hm
  have hlevels := eq_of_mem_walk hdb h hm hp hname
  have hsame : m.depth = p.depth := by rw [(Prod.mk.inj hlevels).1]
  omega

theorem name_ne_root (hdb : db.WellFormed) (h : l.Fits db) (hm : (m, some p) ∈ l.walk none) :
    m.table.name ≠ l.table.name := by
  intro hname
  have hlevels := eq_of_mem_walk hdb h hm (self_mem_walk l none) hname
  cases (Prod.mk.inj hlevels).2

/-- Of two levels in the order of the waves, the later has a table of its own, which is not the
one of the earlier one's parent either. -/
def After (a b : Level × Level) : Prop :=
  b.1.table.name ≠ a.1.table.name ∧ b.1.table.name ≠ a.2.table.name

theorem after_of_depth (hdb : db.WellFormed) (h : l.Fits db) {a b : Level × Level}
    (ha : (a.1, some a.2) ∈ l.walk none) (hb : (b.1, some b.2) ∈ l.walk none)
    (hdepth : a.1.depth ≤ b.1.depth) (hne : b.1.table.name ≠ a.1.table.name) : After a b := by
  refine ⟨hne, fun hname => ?_⟩
  obtain ⟨hstep, -, q, hparent⟩ := depth_of_mem_walk h ha
  have heq := eq_of_mem_walk hdb h hb hparent hname
  have hsame : b.1.depth = a.2.depth := by rw [(Prod.mk.inj heq).1]
  omega

theorem waves_ordered (hdb : db.WellFormed) (h : l.Fits db) : l.waves.flatten.Pairwise After := by
  rw [List.pairwise_flatten]
  constructor
  · intro w hw
    obtain ⟨i, hi⟩ := List.getElem?_of_mem hw
    obtain ⟨-, rfl⟩ := (getElem?_waves h).1 hi
    have hnames := List.pairwise_map.1 (walk_names_nodup hdb h none)
    have hwave : (l.wave (i + 1)).Pairwise (fun a b => a.1.table.name ≠ b.1.table.name) := by
      rw [wave, atDepth, List.pairwise_filterMap]
      refine hnames.imp ?_
      intro e e' hne a ha b hb
      simp only [Option.bind_eq_some_iff, Option.ite_none_right_eq_some, Option.some.injEq] at ha hb
      obtain ⟨_, -, -, rfl⟩ := ha
      obtain ⟨_, -, -, rfl⟩ := hb
      exact hne
    refine hwave.imp_of_mem ?_
    intro a b ha hb hne
    obtain ⟨ha, hda⟩ := mem_wave.1 ha
    obtain ⟨hb, hdb'⟩ := mem_wave.1 hb
    exact after_of_depth hdb h ha hb (by omega) hne.symm
  · rw [List.pairwise_iff_getElem]
    intro i j hi hj hlt a ha b hb
    obtain ⟨ha, hda⟩ := (mem_waves_at h i a.1 a.2).1 ⟨_, List.getElem?_eq_getElem hi, ha⟩
    obtain ⟨hb, hdb'⟩ := (mem_waves_at h j b.1 b.2).1 ⟨_, List.getElem?_eq_getElem hj, hb⟩
    refine after_of_depth hdb h ha hb (by omega) fun hname => ?_
    have heq := eq_of_mem_walk hdb h hb ha hname
    have hsame : b.1.depth = a.1.depth := by rw [(Prod.mk.inj heq).1]
    omega

end Level

theorem Database.WellFormed.plan_eq_ok {db : Database} (h : db.WellFormed) {root : String}
    {requested : TableNames} {plan : Level} (hplan : db.plan root requested = .ok plan) :
    plan.Fits db ∧ plan.table.name = root ∧ plan.depth = 0 := by
  simp only [Database.plan, Except.bind_eq_ok] at hplan
  obtain ⟨t, ht, hplan⟩ := hplan
  split at hplan
  · cases hplan
  · cases hplan
    obtain ⟨hmem, hname⟩ := mem_of_table? (getTable_eq_ok.1 ht)
    exact ⟨Level.within_fits h hmem, by simpa using hname, by simp⟩

theorem Database.plan_empty {db : Database} {root : String} {requested : TableNames} {plan : Level}
    (hplan : db.plan root requested = .ok plan) : db.plan root .empty = .ok ⟨plan.table, 0, []⟩ := by
  simp only [Database.plan, Except.bind_eq_ok] at hplan
  obtain ⟨t, ht, hplan⟩ := hplan
  have htable : plan.table = t := by
    split at hplan
    · cases hplan
    · cases hplan
      exact Level.within_table _ _ _
  rw [Database.plan, ht, htable, ← Level.within_empty db.tables.length 0 t]
  rfl

theorem Database.children_eq_nil {db : Database} {root : String} {requested : TableNames} {plan : Level}
    (hplan : db.plan root requested = .ok plan) (hnone : requested.isEmpty = true) : plan.children = [] := by
  have hentries : requested.entries = [] := List.isEmpty_iff.1 hnone
  obtain rfl : requested = .empty := by
    cases requested
    cases hentries
    rfl
  rw [Except.ok.inj (hplan.symm.trans (plan_empty hplan))]

end RowForest
