import RowForest.Proofs.Plan.Statement
import RowForest.Proofs.Store.KeyTypes

namespace RowForest

open Eval

section

variable {db : Database} {parent child : Table} {p c : Row}

theorem Eval.matched_of_settled (hparent : parent.WellFormed) (hchild : child.WellFormed)
    (hp : parent.Holds p) (hc : child.Holds c) {k : String} (hk : k ∈ parent.keyColumns)
    (hk' : k ∈ child.keyColumns) (hsettled : Settled (c.get k) (p.get k)) : Matched child p c k := by
  refine ⟨?_, ?_, fun hnotNull => ?_, hsettled⟩
  · rw [hc.columns]
    exact hchild.key_columns k hk'
  · rw [hp.columns]
    exact hparent.key_columns k hk
  · obtain ⟨column, hcolumn⟩ := hchild.exists_column? hk'
    rw [hcolumn] at hnotNull
    exact (hc.takes_column? hcolumn).2 hnotNull

/-- Rows that their tables hold can be compared in the columns that the tables share. -/
theorem Eval.matched_of_holds (hparent : parent.WellFormed) (hchild : child.WellFormed)
    (hstarts : parent.keyColumns <+: child.keyColumns) (hexact : parent.ExactKeys)
    (hshares : parent.SharesKey child) (hp : parent.Holds p) (hc : child.Holds c) :
    ∀ k ∈ parent.keyColumns, Matched child p c k := by
  intro k hk
  have hk' : k ∈ child.keyColumns := hstarts.subset hk
  refine matched_of_settled hparent hchild hp hc hk hk' fun _ _ => ?_
  obtain ⟨column, hcolumn⟩ := hparent.exists_column? hk
  obtain ⟨column', hcolumn'⟩ := hchild.exists_column? hk'
  have htypes := hshares k hk
  rw [hcolumn, hcolumn', Option.map_some, Option.map_some, Option.some.injEq] at htypes
  have haccepts := (hc.takes_column? hcolumn').1
  rw [ColumnType.accepts_congr htypes] at haccepts
  exact (hexact k hk column hcolumn).compare? haccepts (hp.takes_column? hcolumn).1

namespace ReadSettings

/-- With the rows of a parent and of a child table in scope, the predicate that ties them always has a
value: it is true of rows of which the child's key begins with the parent's, and false or null of all
others. Whether the key columns of either table can be null makes no difference. -/
theorem correlation_decides_key (h : db.Reachable) (hparent : parent ∈ db.tables)
    (hchild : child ∈ db.children parent.name) (hexact : parent.ExactKeys)
    (hshares : parent.SharesKey child) (hp : parent.Holds p) (hc : child.Holds c) {sc : Scope}
    (hpin : sc.frame? parent.name = some p) (hcin : sc.frame? child.name = some c) :
    ∃ o, eval sc (correlation parent child) = .ok (ofTruth o) ∧
      (o = some true ↔ (Key.ofRow child c).parentKey parent = Key.ofRow parent p) := by
  have hwf := h.wellFormed
  have hstarts := hwf.keyColumns_prefix hparent hchild
  rw [Key.parentKey_ofRow_iff hstarts]
  refine decides_correlation hcin hpin ?_
  exact matched_of_holds (hwf.tables parent hparent) (hwf.tables child (List.mem_filter.1 hchild).1)
    hstarts hexact hshares hp hc

end ReadSettings

end

namespace NullKey

def parents : Table where
  name := "Parent"
  columns := [⟨"region", .scalar .string, false, none, none, false⟩,
    ⟨"id", .scalar .int64, true, none, none, false⟩]
  primaryKey := [⟨"region", false⟩, ⟨"id", false⟩]

def children : Table where
  name := "Child"
  columns := [⟨"region", .scalar .string, false, none, none, false⟩,
    ⟨"id", .scalar .int64, false, none, none, false⟩, ⟨"n", .scalar .int64, true, none, none, false⟩]
  primaryKey := [⟨"region", false⟩, ⟨"id", false⟩, ⟨"n", false⟩]
  interleave := some ⟨"Parent", .cascade⟩

def db : Database := Database.empty.run [.createTable parents, .createTable children]

def parent : Row := .ofFields [("region", .null), ("id", .int64 1)]

def child (id : Value) : Row := .ofFields [("region", .null), ("id", id), ("n", .int64 4)]

def scope (id : Value) : Scope := ((Scope.ofParams .empty).push "Parent" parent).push "Child" (child id)

end NullKey

theorem ReadSettings.correlation_decides_key_sample :
    NullKey.parents.ExactKeys ∧ NullKey.parents.SharesKey NullKey.children ∧
      eval (NullKey.scope (.int64 1)) (correlation NullKey.parents NullKey.children) = .ok (.bool true) ∧
      eval (NullKey.scope .null) (correlation NullKey.parents NullKey.children) ≠ .ok (.bool true) := by
  have hdb : NullKey.db.Reachable := ⟨[.createTable NullKey.parents, .createTable NullKey.children], rfl⟩
  have hparent : NullKey.parents ∈ NullKey.db.tables := by decide
  have hchild : NullKey.children ∈ NullKey.db.children "Parent" := by decide
  have hexact : NullKey.parents.ExactKeys := by decide
  have hshares : NullKey.parents.SharesKey NullKey.children := by decide
  have hp : NullKey.parents.Holds NullKey.parent := by decide
  have hc : NullKey.children.Holds (NullKey.child (.int64 1)) := by decide
  have hnull : NullKey.children.Holds (NullKey.child .null) := by decide
  have hpin (id : Value) : (NullKey.scope id).frame? "Parent" = some NullKey.parent := rfl
  have hcin (id : Value) : (NullKey.scope id).frame? "Child" = some (NullKey.child id) := rfl
  obtain ⟨o, heval, ho⟩ := correlation_decides_key hdb hparent hchild hexact hshares hp hc (hpin _) (hcin _)
  obtain ⟨o', heval', ho'⟩ :=
    correlation_decides_key hdb hparent hchild hexact hshares hp hnull (hpin _) (hcin _)
  refine ⟨hexact, hshares, ?_, ?_⟩
  · rw [heval, ho.2 (by decide)]
    rfl
  · intro htrue
    rw [heval'] at htrue
    rcases o' with - | (_ | _)
    · cases htrue
    · cases htrue
    · exact absurd (ho'.1 rfl) (by decide)

end RowForest
