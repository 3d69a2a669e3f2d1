import Mathlib.Logic.Relation
import RowForest.Plan.Level
import RowForest.Proofs.Schema.Invariant

namespace RowForest

/-- The rounds of a walk that keeps a stack, its top at the end: what is on top is listed, and what is
right below it takes its place, the first of that on top. -/
inductive StackWalk {α : Type} (below : α → List α) : List α → List α → Prop
  | done : StackWalk below [] []
  | visit {stack out : List α} {a : α} (rest : StackWalk below (stack ++ (below a).reverse) out) :
      StackWalk below (stack ++ [a]) (a :: out)

namespace StackWalk

variable {α : Type} {below tree : α → List α} {stack out as : List α}

theorem append (has : ∀ a ∈ as, ∀ stack out, StackWalk below stack out →
      StackWalk below (stack ++ [a]) (tree a ++ out))
    (h : StackWalk below stack out) : StackWalk below (stack ++ as.reverse) (as.flatMap tree ++ out) := by
  induction as with
  | nil => rwa [List.reverse_nil, List.append_nil]
  | cons a as ih =>
      rw [List.reverse_cons, ← List.append_assoc, List.flatMap_cons, List.append_assoc (tree a)]
      exact has a List.mem_cons_self _ _ (ih fun b hb => has b (List.mem_cons_of_mem _ hb))

variable (htree : ∀ a, tree a = a :: (below a).flatMap tree)

include htree

/-- What is on top of the stack is listed with all that is below it before the walk goes on. -/
theorem top (hwf : WellFounded (fun b a => b ∈ below a)) (a : α) : ∀ stack out, StackWalk below stack out →
    StackWalk below (stack ++ [a]) (tree a ++ out) := by
  induction a using hwf.induction with
  | _ a ih =>
      intro stack out hrest
      rw [htree, List.cons_append]
      exact .visit (append ih hrest)

theorem eq_flatMap (h : StackWalk below stack out) : out = stack.reverse.flatMap tree := by
  induction h with
  | done => rfl
  | @visit stack out a _ ih =>
      rw [List.reverse_append, List.reverse_reverse, List.flatMap_append] at ih
      rw [List.reverse_append, List.reverse_singleton, List.singleton_append, List.flatMap_cons, ih,
        htree a]
      rfl

theorem iff_flatMap (hwf : WellFounded (fun b a => b ∈ below a)) :
    StackWalk below as.reverse out ↔ out = as.flatMap tree := by
  constructor
  · intro h
    rw [h.eq_flatMap htree, List.reverse_reverse]
  · rintro rfl
    have hwalk : StackWalk below ([] ++ as.reverse) (as.flatMap tree ++ []) :=
      append (fun a _ => top htree hwf a) .done
    rwa [List.nil_append, List.append_nil] at hwalk

end StackWalk

namespace Database

variable {db : Database}

def position (db : Database) (name : String) : Nat := db.tables.findIdx (·.name = name)

theorem position_le (db : Database) (name : String) : db.position name ≤ db.tables.length :=
  List.findIdx_le_length

theorem WellFormed.position_eq (h : db.WellFormed) {i : Nat} {t : Table}
    (ht : db.tables[i]? = some t) : db.position t.name = i := by
  obtain ⟨hi, rfl⟩ := List.getElem?_eq_some_iff.1 ht
  refine (List.findIdx_eq hi).2 ⟨by simp, fun j hj => ?_⟩
  have hinj := List.nodup_iff_injective_get.1 h.tables_nodup
  have hne : (⟨j, by simp; omega⟩ : Fin (db.tables.map Table.name).length) ≠ ⟨i, by simpa using hi⟩ := by
    simp only [ne_eq, Fin.mk.injEq]
    omega
  simpa using hinj.ne hne

theorem WellFormed.position_lt_of_child (h : db.WellFormed) {name : String} {c : Table}
    (hc : c ∈ db.children name) :
    db.position name < db.position c.name ∧ db.position c.name < db.tables.length := by
  obtain ⟨hmem, hparent⟩ := List.mem_filter.1 hc
  obtain ⟨i, hi⟩ := List.getElem?_of_mem hmem
  obtain ⟨j, hj, p, hp, hname, -⟩ := h.layered i c hi name (by simpa using hparent)
  rw [h.position_eq hi, ← hname, h.position_eq hp]
  exact ⟨hj, (List.getElem?_eq_some_iff.1 hi).1⟩

theorem WellFormed.name_ne_of_child (h : db.WellFormed) {name : String} {c : Table}
    (hc : c ∈ db.children name) : name ≠ c.name := by
  rintro rfl
  exact Nat.lt_irrefl _ (h.position_lt_of_child hc).1

theorem mem_children_of_parent? {name : String} {p : Table}
    (hp : db.parent? name = some p) : ∃ c ∈ db.children p.name, c.name = name := by
  simp only [parent?, Option.bind_eq_bind, Option.bind_eq_some_iff] at hp
  obtain ⟨c, hc, parent, hparent, hp⟩ := hp
  obtain ⟨hmem, hname⟩ := mem_of_table? hc
  exact ⟨c, List.mem_filter.2 ⟨hmem, by simp [hparent, (mem_of_table? hp).2]⟩, hname⟩

theorem WellFormed.parent?_of_mem_children (h : db.WellFormed) {name : String} {c : Table}
    (hc : c ∈ db.children name) : ∃ p, db.parent? c.name = some p ∧ p.name = name ∧
      p.keyColumns <+: c.keyColumns := by
  obtain ⟨hmem, hparent⟩ := List.mem_filter.1 hc
  have hparent : c.parentName? = some name := by simpa using hparent
  obtain ⟨i, hi⟩ := List.getElem?_of_mem hmem
  obtain ⟨j, -, p, hp, hname, hkey⟩ := h.layered i c hi name hparent
  refine ⟨p, ?_, hname, hkey⟩
  have hc' : db.table? c.name = some c := h.table?_eq_some.2 ⟨hmem, rfl⟩
  have hp' : db.table? name = some p := h.table?_eq_some.2 ⟨List.mem_of_getElem? hp, hname⟩
  simp [parent?, hc', hparent, hp']

theorem WellFormed.keyColumns_prefix (h : db.WellFormed) {p c : Table} (hp : p ∈ db.tables)
    (hc : c ∈ db.children p.name) : p.keyColumns <+: c.keyColumns := by
  obtain ⟨p', hp', hname, hkey⟩ := h.parent?_of_mem_children hc
  simp only [parent?, Option.bind_eq_bind, Option.bind_eq_some_iff] at hp'
  obtain ⟨_, -, _, -, hp'⟩ := hp'
  rwa [h.eq_of_name hp (mem_of_table? hp').1 hname.symm]

theorem WellFormed.position_lt_of_parent (h : db.WellFormed) {name : String} {p : Table}
    (hp : db.parent? name = some p) : db.position p.name < db.position name := by
  obtain ⟨c, hc, rfl⟩ := mem_children_of_parent? hp
  exact (h.position_lt_of_child hc).1

/-- Going up, each step reaches an earlier position, so no more than that many are left. -/
theorem WellFormed.ancestorsWithin_eq (h : db.WellFormed) {n m : Nat} {name : String}
    (hn : db.position name ≤ n) (hm : db.position name ≤ m) :
    db.ancestorsWithin n name = db.ancestorsWithin m name := by
  induction n generalizing m name with
  | zero =>
      cases hp : db.parent? name with
      | none => cases m <;> simp [ancestorsWithin, hp]
      | some p => exact absurd (h.position_lt_of_parent hp) (by omega)
  | succ n ih =>
      cases hp : db.parent? name with
      | none => cases m <;> simp [ancestorsWithin, hp]
      | some p =>
          have hlt := h.position_lt_of_parent hp
          cases m with
          | zero => omega
          | succ m =>
              have hn : db.position p.name ≤ n := by omega
              have hm : db.position p.name ≤ m := by omega
              simp only [ancestorsWithin, hp, ih hn hm]

theorem WellFormed.children_eq_nil (h : db.WellFormed) {name : String}
    (hlast : db.tables.length ≤ db.position name + 0) : db.children name = [] := by
  rw [List.eq_nil_iff_forall_not_mem]
  intro c hc
  have hlt := h.position_lt_of_child hc
  omega

theorem WellFormed.descendantsWithin_eq (h : db.WellFormed) {n m : Nat} {name : String}
    (hn : db.tables.length ≤ db.position name + n) (hm : db.tables.length ≤ db.position name + m) :
    db.descendantsWithin n name = db.descendantsWithin m name := by
  induction n generalizing m name with
  | zero => cases m <;> simp [descendantsWithin, h.children_eq_nil hn]
  | succ n ih =>
      cases m with
      | zero => simp [descendantsWithin, h.children_eq_nil hm]
      | succ m =>
          simp only [descendantsWithin]
          apply List.flatMap_congr
          intro c hc
          have hlt := h.position_lt_of_child hc
          rw [ih (m := m) (by omega) (by omega)]

theorem WellFormed.within_eq (h : db.WellFormed) (requested : TableNames) {n m : Nat} {depth : Nat}
    {t : Table} (hn : db.tables.length ≤ db.position t.name + n)
    (hm : db.tables.length ≤ db.position t.name + m) :
    Level.within db requested n depth t = Level.within db requested m depth t := by
  induction n generalizing m depth t with
  | zero => cases m <;> simp [Level.within, h.children_eq_nil hn]
  | succ n ih =>
      cases m with
      | zero => simp [Level.within, h.children_eq_nil hm]
      | succ m =>
          have hlevels : (db.children t.name).map (Level.within db requested n (depth + 1)) =
              (db.children t.name).map (Level.within db requested m (depth + 1)) := by
            apply List.map_congr_left
            intro c hc
            have hlt := h.position_lt_of_child hc
            exact ih (by omega) (by omega)
          simp only [Level.within, hlevels]

/-- Interleaving goes in no circle, up or down. The walks along it end by themselves: each
satisfies the equation of its recursion, which has no bound. -/
structure Forest (db : Database) : Prop where
  up : WellFounded (fun p c : String => ∃ t, db.parent? c = some t ∧ t.name = p)
  down : WellFounded (fun c p : String => ∃ t ∈ db.children p, t.name = c)
  single_parent : ∀ name, ∀ c ∈ db.children name, (db.parent? c.name).map Table.name = some name
  ancestors_eq : ∀ name, db.ancestors name =
    match db.parent? name with
    | none => []
    | some p => p :: db.ancestors p.name
  descendants_eq : ∀ name, db.descendants name =
    (db.children name).flatMap (fun c => c :: db.descendants c.name)
  levels_eq : ∀ requested depth t, Level.within db requested db.tables.length depth t =
    ⟨t, depth, ((db.children t.name).map
      (Level.within db requested db.tables.length (depth + 1))).filter
      (fun l => !l.children.isEmpty || requested.contains l.table.name)⟩

theorem WellFormed.forest (h : db.WellFormed) : db.Forest where
  up := by
    apply Subrelation.wf (r := InvImage (· < ·) db.position)
    · rintro _ c ⟨p, hp, rfl⟩
      exact h.position_lt_of_parent hp
    · exact InvImage.wf _ Nat.lt_wfRel.wf
  down := by
    apply Subrelation.wf (r := InvImage (· < ·) (fun name => db.tables.length - db.position name))
    · rintro _ p ⟨c, hc, rfl⟩
      have hlt := h.position_lt_of_child hc
      simp only [InvImage]
      omega
    · exact InvImage.wf _ Nat.lt_wfRel.wf
  single_parent := by
    intro name c hc
    obtain ⟨p, hp, hname, -⟩ := h.parent?_of_mem_children hc
    simp [hp, hname]
  ancestors_eq := by
    intro name
    have hstep : db.ancestors name = db.ancestorsWithin (db.tables.length + 1) name :=
      h.ancestorsWithin_eq (db.position_le name) (Nat.le_succ_of_le (db.position_le name))
    rw [hstep]
    rfl
  descendants_eq := by
    intro name
    have hstep : db.descendants name = db.descendantsWithin (db.tables.length + 1) name :=
      h.descendantsWithin_eq (Nat.le_add_left _ _) (by omega)
    rw [hstep]
    rfl
  levels_eq := by
    intro requested depth t
    have hstep : Level.within db requested db.tables.length depth t =
        Level.within db requested (db.tables.length + 1) depth t :=
      h.within_eq requested (Nat.le_add_left _ _) (by omega)
    rw [hstep]
    rfl

/-- A schema that statements have built from nothing. -/
def Reachable (db : Database) : Prop := ∃ ds, empty.run ds = db

theorem Reachable.wellFormed (h : db.Reachable) : db.WellFormed := by
  obtain ⟨ds, rfl⟩ := h
  exact empty_wellFormed.run ds

/-- Whatever statements are run, accepted or refused, the schema stays well formed, and
its tables a forest. -/
theorem run_wellFormed_forest (ds : List Definition) :
    (empty.run ds).WellFormed ∧ (empty.run ds).Forest :=
  ⟨empty_wellFormed.run ds, (empty_wellFormed.run ds).forest⟩

variable {name p c : String}

def IsParent (db : Database) (p c : String) : Prop := ∃ t ∈ db.children p, t.name = c

/-- Whether a table is interleaved in another one, directly or through tables between them. -/
def IsAncestor (db : Database) : String → String → Prop := Relation.TransGen db.IsParent

theorem WellFormed.mem_descendants (h : db.WellFormed) :
    c ∈ (db.descendants p).map Table.name ↔ db.IsAncestor p c := by
  induction p using h.forest.down.induction with
  | _ p ih =>
      rw [h.forest.descendants_eq, List.map_flatMap, List.mem_flatMap, IsAncestor,
        Relation.TransGen.head'_iff]
      constructor
      · rintro ⟨t, ht, hc⟩
        refine ⟨t.name, ⟨t, ht, rfl⟩, ?_⟩
        rw [List.map_cons, List.mem_cons, ih t.name ⟨t, ht, rfl⟩] at hc
        rcases hc with rfl | hc
        · exact .refl
        · exact hc.to_reflTransGen
      · rintro ⟨_, ⟨t, ht, rfl⟩, hreach⟩
        refine ⟨t, ht, ?_⟩
        rw [List.map_cons, List.mem_cons, ih t.name ⟨t, ht, rfl⟩]
        rcases Relation.reflTransGen_iff_eq_or_transGen.1 hreach with heq | hbelow
        · exact .inl heq
        · exact .inr hbelow

theorem mem_of_parent? {t : Table} (h : db.parent? name = some t) : t ∈ db.tables := by
  simp only [parent?, Option.bind_eq_bind, Option.bind_eq_some_iff] at h
  obtain ⟨_, -, _, -, ht⟩ := h
  exact (mem_of_table? ht).1

end Database

end RowForest
