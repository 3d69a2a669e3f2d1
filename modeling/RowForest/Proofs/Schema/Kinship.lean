import Mathlib.Data.List.Nodup
import RowForest.Proofs.Plan.Contents

namespace RowForest

namespace Database

open Relation (ReflTransGen TransGen)

variable {db : Database} {name a b c d : String} {out ps : List Table} {t : Table}

/-- A walk that keeps a stack of tables: the one on top is listed, and its children take its place, the
first of them on top. -/
abbrev Walks (db : Database) : List Table → List Table → Prop := StackWalk (fun t => db.children t.name)

/-- The rounds of a climb: from each table to its parent, until there is none. -/
inductive Climbs (db : Database) : String → List Table → Prop
  | top {name : String} (h : db.parent? name = none) : Climbs db name []
  | up {name : String} {p : Table} {ps : List Table} (h : db.parent? name = some p)
      (rest : Climbs db p.name ps) : Climbs db name (p :: ps)

def subtree (db : Database) (t : Table) : List Table := t :: db.descendants t.name

theorem WellFormed.walks_iff (h : db.WellFormed) :
    db.Walks (db.children a).reverse out ↔ out = db.descendants a := by
  have hbelow : WellFounded (fun c p : Table => c ∈ db.children p.name) :=
    Subrelation.wf (fun {c p} hc => ⟨c, hc, rfl⟩) (InvImage.wf Table.name h.forest.down)
  have htree : ∀ t, db.subtree t = t :: (db.children t.name).flatMap db.subtree :=
    fun t => congrArg _ (h.forest.descendants_eq t.name)
  rw [h.forest.descendants_eq]
  exact StackWalk.iff_flatMap htree hbelow

theorem WellFormed.climbs_ancestors (h : db.WellFormed) (name : String) :
    db.Climbs name (db.ancestors name) := by
  induction name using h.forest.up.induction with
  | _ name ih =>
      rw [h.forest.ancestors_eq]
      cases hp : db.parent? name with
      | none => exact .top hp
      | some p => exact .up hp (ih p.name ⟨p, hp, rfl⟩)

theorem Climbs.unique {qs : List Table} (hp : db.Climbs name ps) (hq : db.Climbs name qs) : ps = qs := by
  induction hp generalizing qs with
  | top h =>
      cases hq with
      | top _ => rfl
      | up h' _ => cases h.symm.trans h'
  | up h _ ih =>
      cases hq with
      | top h' => cases h.symm.trans h'
      | up h' rest =>
          obtain rfl := Option.some.inj (h.symm.trans h')
          rw [ih rest]

theorem WellFormed.climbs_iff (h : db.WellFormed) : db.Climbs d ps ↔ ps = db.ancestors d := by
  constructor
  · exact fun hclimb => hclimb.unique (h.climbs_ancestors d)
  · rintro rfl
    exact h.climbs_ancestors d

theorem WellFormed.isParent_iff (h : db.WellFormed) :
    db.IsParent a d ↔ ∃ p, db.parent? d = some p ∧ p.name = a := by
  constructor
  · rintro ⟨t, ht, rfl⟩
    obtain ⟨p, hp, hname, -⟩ := h.parent?_of_mem_children ht
    exact ⟨p, hp, hname⟩
  · rintro ⟨p, hp, rfl⟩
    exact mem_children_of_parent? hp

theorem WellFormed.isParent_unique (h : db.WellFormed) (ha : db.IsParent a d) (hb : db.IsParent b d) :
    a = b := by
  obtain ⟨p, hp, rfl⟩ := h.isParent_iff.1 ha
  obtain ⟨q, hq, rfl⟩ := h.isParent_iff.1 hb
  rw [Option.some.inj (hp.symm.trans hq)]

theorem WellFormed.mem_ancestors (h : db.WellFormed) :
    a ∈ (db.ancestors d).map Table.name ↔ db.IsAncestor a d := by
  induction d using h.forest.up.induction with
  | _ d ih =>
      rw [h.forest.ancestors_eq, IsAncestor, TransGen.tail'_iff]
      cases hp : db.parent? d with
      | none =>
          simp [h.isParent_iff, hp]
      | some p =>
          have hparent : ∀ b, db.IsParent b d ↔ b = p.name := by
            intro b
            rw [h.isParent_iff, hp]
            simp [eq_comm]
          rw [List.map_cons, List.mem_cons, ih p.name ⟨p, hp, rfl⟩, eq_comm]
          simp only [hparent, exists_eq_right]
          exact Relation.reflTransGen_iff_eq_or_transGen.symm

theorem WellFormed.position_lt_of_ancestor (h : db.WellFormed) (hab : db.IsAncestor a b) :
    db.position a < db.position b := by
  have hstep : ∀ {p c}, db.IsParent p c → db.position p < db.position c := by
    rintro p _ ⟨t, ht, rfl⟩
    exact (h.position_lt_of_child ht).1
  induction hab with
  | single hparent => exact hstep hparent
  | tail _ hparent ih => exact Nat.lt_trans ih (hstep hparent)

theorem WellFormed.not_isAncestor_self (h : db.WellFormed) : ¬db.IsAncestor a a :=
  fun haa => Nat.lt_irrefl _ (h.position_lt_of_ancestor haa)

theorem WellFormed.nodup_ancestors (h : db.WellFormed) (d : String) :
    ((db.ancestors d).map Table.name).Nodup := by
  induction d using h.forest.up.induction with
  | _ d ih =>
      rw [h.forest.ancestors_eq]
      cases hp : db.parent? d with
      | none => exact .nil
      | some p =>
          rw [List.map_cons, List.nodup_cons, h.mem_ancestors]
          exact ⟨h.not_isAncestor_self, ih p.name ⟨p, hp, rfl⟩⟩

theorem WellFormed.mem_subtree (h : db.WellFormed) :
    d ∈ (db.subtree t).map Table.name ↔ ReflTransGen db.IsParent t.name d := by
  rw [subtree, List.map_cons, List.mem_cons, h.mem_descendants]
  exact Relation.reflTransGen_iff_eq_or_transGen.symm

/-- Of two tables above a third one, one is above the other, so two children of one table share nothing. -/
theorem WellFormed.sibling_unique (h : db.WellFormed) (hb : db.IsParent a b) (hc : db.IsParent a c)
    (hbd : ReflTransGen db.IsParent b d) (hcd : ReflTransGen db.IsParent c d) : b = c := by
  have hunique : Relator.RightUnique (Function.swap db.IsParent) :=
    fun _ _ _ hx hy => h.isParent_unique hx hy
  have hbelow : ∀ {b c}, db.IsParent a b → db.IsParent a c → ReflTransGen db.IsParent b c → b = c := by
    intro b c hb hc hbc
    rcases hbc.cases_tail with rfl | ⟨p, hbp, hpc⟩
    · rfl
    · obtain rfl := h.isParent_unique hpc hc
      exact absurd (TransGen.head' hb hbp) h.not_isAncestor_self
  rcases ReflTransGen.total_of_right_unique hunique (Relation.reflTransGen_swap.2 hbd)
    (Relation.reflTransGen_swap.2 hcd) with hcb | hbc
  · exact (hbelow hc hb (Relation.reflTransGen_swap.1 hcb)).symm
  · exact hbelow hb hc (Relation.reflTransGen_swap.1 hbc)

theorem WellFormed.nodup_descendants (h : db.WellFormed) (a : String) :
    ((db.descendants a).map Table.name).Nodup := by
  induction a using h.forest.down.induction with
  | _ a ih =>
      rw [h.forest.descendants_eq, List.map_flatMap, List.nodup_flatMap]
      constructor
      · intro c hc
        rw [List.map_cons, List.nodup_cons, h.mem_descendants]
        exact ⟨h.not_isAncestor_self, ih c.name ⟨c, hc, rfl⟩⟩
      · have hnames : ((db.children a).map Table.name).Nodup :=
          h.tables_nodup.sublist (List.filter_sublist.map _)
        refine (List.pairwise_map.1 hnames).imp_of_mem fun {b c} hb hc hne d hdb hdc => hne ?_
        exact h.sibling_unique ⟨b, hb, rfl⟩ ⟨c, hc, rfl⟩ (h.mem_subtree.1 hdb) (h.mem_subtree.1 hdc)

theorem tableId?_isSome (db : Database) (name : String) :
    (db.tableId? name).isSome = (db.table? name).isSome := by
  rw [tableId?, table?, List.isSome_findFinIdx?, List.isSome_find?]

theorem name_tableAt {id : db.TableId} (hid : db.tableId? name = some id) : (db.tableAt id).name = name :=
  of_decide_eq_true (List.findFinIdx?_eq_some_iff.1 hid).1

theorem map_tableAt_childrenIds (id : db.TableId) :
    (db.childrenIds id).map db.tableAt = db.children (db.tableAt id).name := by
  have htables : (List.finRange db.tables.length).map db.tableAt = db.tables := List.map_get_finRange _
  conv_rhs => rw [children, ← htables, List.filter_map]
  rfl

/-- Descendants and ancestors of any name, of tables and of none. -/
theorem Reachable.descendants_ancestors (h : db.Reachable) (a d : String) :
    (d ∈ (db.descendants a).map Table.name ↔ a ∈ (db.ancestors d).map Table.name) ∧
      ((db.descendants a).map Table.name).Nodup ∧ ((db.ancestors d).map Table.name).Nodup ∧
      (db.children a).Sublist db.tables ∧
      db.descendants a = (db.children a).flatMap (fun c => c :: db.descendants c.name) ∧
      (∀ out, db.Walks (db.children a).reverse out ↔ out = db.descendants a) ∧
      (∀ ps, db.Climbs d ps ↔ ps = db.ancestors d) ∧
      (db.tableId? a).isSome = (db.table? a).isSome ∧
      ∀ id, db.tableId? a = some id →
        (db.tableAt id).name = a ∧ (db.childrenIds id).map db.tableAt = db.children a := by
  have hdb := h.wellFormed
  refine ⟨hdb.mem_descendants.trans hdb.mem_ancestors.symm, hdb.nodup_descendants a, hdb.nodup_ancestors d,
    List.filter_sublist, hdb.forest.descendants_eq a, fun _ => hdb.walks_iff, fun _ => hdb.climbs_iff,
    db.tableId?_isSome a, fun id hid => ?_⟩
  have hname := name_tableAt hid
  exact ⟨hname, hname ▸ map_tableAt_childrenIds id⟩

end Database

def Globe.resettled : Database :=
  Database.empty.run [.createTable regions, .createTable seas, .createTable countries, .createTable cities,
    .dropTable "Country", .dropTable "Sea", .createTable seas]

theorem Database.descendants_ancestors_sample : Globe.resettled.Reachable ∧
    Globe.resettled.descendants "Region" = [Globe.countries, Globe.cities, Globe.seas] ∧
    "Region" ∈ (Globe.resettled.ancestors "City").map Table.name ∧
    Globe.resettled.Walks [Globe.seas, Globe.countries] [Globe.countries, Globe.cities, Globe.seas] ∧
    ∃ id, Globe.resettled.tableId? "Region" = some id ∧
      (Globe.resettled.childrenIds id).map Globe.resettled.tableAt = [Globe.countries, Globe.seas] := by
  have hdb : Globe.resettled.Reachable := ⟨_, rfl⟩
  have hdescendants : Globe.resettled.descendants "Region" = [Globe.countries, Globe.cities, Globe.seas] := by
    decide
  have hregion : (Globe.resettled.table? "Region").isSome = true := by decide
  obtain ⟨hdual, -, -, -, -, hwalks, -, hids, hchildren⟩ := Reachable.descendants_ancestors hdb "Region" "City"
  obtain ⟨id, hid⟩ := Option.isSome_iff_exists.1 (hids.trans hregion)
  refine ⟨hdb, hdescendants, hdual.1 ?_, (hwalks _).2 hdescendants.symm, id, hid, (hchildren id hid).2⟩
  rw [hdescendants]
  decide

end RowForest
