import RowForest.Read.Transaction
import RowForest.Proofs.Eval.Sorting
import RowForest.Proofs.Plan.Statement
import RowForest.Proofs.Store.KeyTypes

namespace RowForest

open Eval

namespace Eval

variable {sc : Scope} {lhs rhs e : Sql.Expr} {v w : Value} {P Q P' Q' : Prop}

/-- Whether an expression, if it has a value at all, is true and the one thing holds, or it is false
or null and the other does. -/
def Verdict (sc : Scope) (e : Sql.Expr) (P Q : Prop) : Prop :=
  ∀ v, eval sc e = .ok v → ∃ o, v = ofTruth o ∧ (o = some true ∧ P ∨ o ≠ some true ∧ Q)

theorem verdict_isNull (h : eval sc e = .ok v) (hw : w.isNull = true) :
    Verdict sc (.isNull e false) (v.compare? w = some .eq) (∃ o, v.compare? w = some o ∧ o ≠ .eq) := by
  obtain rfl := Value.isNull_iff.1 hw
  intro u hu
  rw [eval, h] at hu
  cases hu
  refine ⟨some v.isNull, by simp [ofTruth], ?_⟩
  cases v <;> simp [Value.isNull, Value.compare?]

theorem verdict_equals (hlhs : eval sc lhs = .ok v) (hrhs : eval sc rhs = .ok w) (hw : w.isNull = false) :
    Verdict sc (.equals lhs rhs) (v.compare? w = some .eq) (∃ o, v.compare? w = some o ∧ o ≠ .eq) := by
  intro u hu
  rw [Sql.Expr.equals, eval, hlhs, Except.ok_bind, hrhs, Except.ok_bind, hw, Bool.or_false] at hu
  cases hv : v.isNull with
  | true =>
      rw [hv, if_pos rfl] at hu
      cases hu
      obtain rfl := Value.isNull_iff.1 hv
      refine ⟨none, rfl, .inr ⟨by simp, .lt, ?_, by simp⟩⟩
      cases w with
      | null => cases hw
      | _ => rfl
  | false =>
      rw [hv, if_neg Bool.false_ne_true, Eval.compare, if_neg (by simp)] at hu
      cases hcompare : v.compare? w with
      | none =>
          rw [hcompare] at hu
          cases hu
      | some o =>
          rw [hcompare] at hu
          cases hu
          refine ⟨some (holds .eq o), rfl, ?_⟩
          cases o <;> simp [holds]

theorem verdict_paren (h : Verdict sc e P Q) : Verdict sc (.paren e) P Q := by
  intro v hv
  rw [eval] at hv
  exact h v hv

theorem both_eq_true {a b : Option Bool} : both a b = some true ↔ a = some true ∧ b = some true := by
  rcases a with - | (_ | _) <;> rcases b with - | (_ | _) <;> simp [both]

/-- The right operand does not count where the left one is false. -/
theorem verdict_and (hlhs : Verdict sc lhs P Q) (hrhs : Verdict sc rhs P' Q') :
    Verdict sc (.and lhs rhs) (P ∧ P') (Q ∨ Q') := by
  intro v hv
  simp only [Sql.Expr.and, eval, Except.bind_eq_ok] at hv
  obtain ⟨_, ha, a', htruth, hv⟩ := hv
  obtain ⟨a, rfl, hleft⟩ := hlhs _ ha
  obtain rfl : a = a' := Except.ok.inj ((truth_ofTruth a).symm.trans htruth)
  split at hv
  · next hfalse =>
    cases hv
    rcases hleft with ⟨htrue, -⟩ | ⟨-, hq⟩
    · cases hfalse.symm.trans htrue
    · exact ⟨some false, rfl, .inr ⟨by simp, .inl hq⟩⟩
  · simp only [Except.bind_eq_ok] at hv
    obtain ⟨_, hb, b', htruth, hv⟩ := hv
    obtain ⟨b, rfl, hright⟩ := hrhs _ hb
    obtain rfl : b = b' := Except.ok.inj ((truth_ofTruth b).symm.trans htruth)
    cases hv
    refine ⟨both a b, rfl, ?_⟩
    rw [ne_eq, both_eq_true, not_and_or]
    rcases hleft with ⟨ha, hp⟩ | ⟨ha, hq⟩
    · rcases hright with ⟨hb, hp'⟩ | ⟨hb, hq'⟩
      · exact .inl ⟨⟨ha, hb⟩, hp, hp'⟩
      · exact .inr ⟨.inr hb, .inr hq'⟩
    · exact .inr ⟨.inl ha, .inl hq⟩

section

variable {α : Type} {as : List α} {f : α → Sql.Expr} {F G : α → Prop}

theorem verdict_foldl_and (has : ∀ a ∈ as, Verdict sc (f a) (F a) (G a)) (he : Verdict sc e P Q) :
    Verdict sc ((as.map f).foldl .and e) (P ∧ ∀ a ∈ as, F a) (Q ∨ ∃ a ∈ as, G a) := by
  induction as generalizing e P Q with
  | nil => simpa using he
  | cons a as ih =>
      have hrest := ih (fun a ha => has a (List.mem_cons_of_mem _ ha))
        (verdict_and he (has a List.mem_cons_self))
      simpa only [List.map_cons, List.foldl_cons, List.forall_mem_cons, List.exists_mem_cons_iff, and_assoc,
        or_assoc] using hrest

theorem verdict_conjunction (has : ∀ a ∈ as, Verdict sc (f a) (F a) (G a)) :
    Verdict sc (.conjunction (as.map f)) (∀ a ∈ as, F a) (∃ a ∈ as, G a) := by
  cases as with
  | nil =>
      rintro v ⟨⟩
      exact ⟨some true, rfl, .inl ⟨rfl, by simp⟩⟩
  | cons a as =>
      rw [List.forall_mem_cons, List.exists_mem_cons_iff]
      exact verdict_foldl_and (fun a ha => has a (List.mem_cons_of_mem _ ha)) (has a List.mem_cons_self)

theorem decides_anyOf (hne : as ≠ []) (has : ∀ a ∈ as, Decides sc (f a) (F a)) :
    Decides sc (Transaction.anyOf (as.map f)) (∃ a ∈ as, F a) := by
  have hfold {as : List α} {e : Sql.Expr} {P : Prop} (has : ∀ a ∈ as, Decides sc (f a) (F a))
      (he : Decides sc e P) : Decides sc ((as.map f).foldl .or e) (P ∨ ∃ a ∈ as, F a) := by
    induction as generalizing e P with
    | nil => simpa using he
    | cons a as ih =>
        have hrest := ih (fun a ha => has a (List.mem_cons_of_mem _ ha))
          (decides_or he (has a List.mem_cons_self))
        simpa only [List.map_cons, List.foldl_cons, List.exists_mem_cons_iff, or_assoc] using hrest
  cases as with
  | nil => exact absurd rfl hne
  | cons a as =>
      rw [List.exists_mem_cons_iff]
      exact decides_paren (hfold (fun a ha => has a (List.mem_cons_of_mem _ ha)) (has a List.mem_cons_self))

end

theorem keeps_of_verdict {table : String} {r : Row} (h : Verdict (sc.push table r) e P Q) {b : Bool}
    (hb : keeps sc table (some e) r = .ok b) : b = true ∧ P ∨ b = false ∧ Q := by
  rw [keeps_some, Except.map_eq_ok] at hb
  obtain ⟨v, hv, rfl⟩ := hb
  obtain ⟨o, rfl, hverdict⟩ := h v (Except.mapError_eq_ok.1 hv)
  rcases o with - | (_ | _) <;> simpa [ofTruth, Value.asBool?] using hverdict

end Eval

/-- Whether a key is a full one of a table, each part null or of its column's type. -/
structure Table.Admits (t : Table) (k : Key) : Prop where
  length_eq : k.length = t.primaryKey.length
  accepts : ∀ part ∈ t.keyColumns.zip k.values, ∀ column, t.column? part.1 = some column →
    column.type.accepts part.2 = true

instance (t : Table) (k : Key) : Decidable (t.Admits k) :=
  decidable_of_iff (k.length = t.primaryKey.length ∧ ∀ part ∈ t.keyColumns.zip k.values,
      ∀ column ∈ t.column? part.1, column.type.accepts part.2 = true)
    ⟨fun h => ⟨h.1, h.2⟩, fun h => ⟨h.length_eq, h.accepts⟩⟩

namespace Key

variable {label : String} {k : Key} {t : Table} {r : Row} {sc : Scope} {table : String}

def selects (k : Key) (t : Table) (r : Row) : Bool :=
  (t.keyColumns.zip k.values).all (fun part => (r.get part.1).compare? part.2 = some .eq)

def Differs (k : Key) (t : Table) (r : Row) : Prop :=
  ∃ part ∈ t.keyColumns.zip k.values, ∃ o, (r.get part.1).compare? part.2 = some o ∧ o ≠ .eq

def parts (k : Key) (t : Table) : List ((String × Value) × Nat) := (t.keyColumns.zip k.values).zipIdx

def condition (label : String) (part : (String × Value) × Nat) : Sql.Expr :=
  if part.1.2.isNull then .isNull (.column part.1.1) false
  else .equals (.column part.1.1) (.param (parameterName label part.2))

theorem conditions_eq (label : String) (i : Nat) (parts : List (String × Value)) :
    conditions label i parts = (parts.zipIdx i).map (condition label) := by
  induction parts generalizing i with
  | nil => rfl
  | cons part parts ih => rw [conditions, ih, List.zipIdx_cons, List.map_cons, condition]

theorem forall_mem_parts {F : String × Value → Prop} :
    (∀ part ∈ k.parts t, F part.1) ↔ ∀ part ∈ t.keyColumns.zip k.values, F part := by
  rw [← List.forall_mem_map (f := Prod.fst) (P := F), parts, List.zipIdx_map_fst]

theorem exists_mem_parts {F : String × Value → Prop} :
    (∃ part ∈ k.parts t, F part.1) ↔ ∃ part ∈ t.keyColumns.zip k.values, F part := by
  have hnone := forall_mem_parts (k := k) (t := t) (F := fun part => ¬F part)
  rw [← not_iff_not]
  simpa only [not_exists, not_and] using hnone

def Bound (k : Key) (t : Table) (label : String) (ps : Params) : Prop :=
  ∀ part ∈ k.parts t, part.1.2.isNull = false →
    ps.find? (parameterName label part.2) = some part.1.2

theorem Bound.eval_param (h : k.Bound t label sc.params) {part : (String × Value) × Nat}
    (hpart : part ∈ k.parts t) (hnull : part.1.2.isNull = false) :
    eval (sc.push table r) (.param (parameterName label part.2)) = .ok part.1.2 := by
  rw [eval, Scope.param, show (sc.push table r).params = sc.params from rfl, h part hpart hnull]

theorem eval_column_of_mem_parts (hcolumns : ∀ c ∈ t.keyColumns, c ∈ r.columns)
    {part : (String × Value) × Nat} (hpart : part ∈ k.parts t) :
    eval (sc.push table r) (.column part.1.1) = .ok (r.get part.1.1) := by
  have hall : ∀ part ∈ t.keyColumns.zip k.values, part.1 ∈ r.columns :=
    fun part hpart => hcolumns _ (List.of_mem_zip hpart).1
  rw [eval, column_push (forall_mem_parts.2 hall part hpart)]

theorem verdict_predicate (hbound : k.Bound t label sc.params) (hcolumns : ∀ c ∈ t.keyColumns, c ∈ r.columns) :
    Verdict (sc.push table r) (k.predicate t label) (k.selects t r = true) (k.Differs t r) := by
  rw [selects, List.all_eq_true]
  simp only [decide_eq_true_eq]
  rw [← forall_mem_parts (F := fun part => (r.get part.1).compare? part.2 = some .eq), Differs,
    ← exists_mem_parts, predicate, conditions_eq]
  refine verdict_paren (verdict_conjunction fun part hpart => ?_)
  have hcolumn : eval (sc.push table r) (.column part.1.1) = .ok (r.get part.1.1) :=
    eval_column_of_mem_parts hcolumns hpart
  unfold condition
  split
  · next hnull => exact verdict_isNull hcolumn hnull
  · next hnull =>
    have hnull := Bool.not_eq_true _ ▸ hnull
    exact verdict_equals hcolumn (hbound.eval_param hpart hnull) hnull

theorem ofRow_eq_iff (hlength : k.length = t.primaryKey.length) :
    Key.ofRow t r = k ↔ ∀ part ∈ t.keyColumns.zip k.values, r.get part.1 = part.2 := by
  have hlength' : t.keyColumns.length = k.values.length := by
    rw [Table.keyColumns, List.length_map]
    exact hlength.symm
  have hforall : t.keyColumns.map r.get = k.values ↔
      List.Forall₂ (fun c v => r.get c = v) t.keyColumns k.values := by
    rw [← List.forall₂_eq_eq_eq, List.forall₂_map_left_iff]
  obtain ⟨values⟩ := k
  rw [Key.ofRow, Key.mk.injEq, hforall, List.forall₂_iff_zip, and_iff_right hlength', Prod.forall]

/-- No row differs from its own key, though a part of it may have no order. -/
theorem not_differs_ofRow (t : Table) (r : Row) : ¬(Key.ofRow t r).Differs t r := by
  rintro ⟨part, hpart, o, ho, hne⟩
  have hself := (ofRow_eq_iff (by simp [Key.length, Key.ofRow, Table.keyColumns])).1 rfl part hpart
  rw [← hself] at ho
  have heq := Value.compare?_self (r.get part.1)
  rw [ho] at heq
  exact hne heq

section

variable (ht : t.WellFormed) (hexact : t.ExactKeys) (hk : t.Admits k) (hr : t.Holds r)
include ht hexact hk hr

theorem compare?_of_mem_zip : ∀ part ∈ t.keyColumns.zip k.values,
    ∃ o, (r.get part.1).compare? part.2 = some o ∧ (o = .eq ↔ r.get part.1 = part.2) := by
  intro part hpart
  have hc := (List.of_mem_zip hpart).1
  obtain ⟨column, hcolumn⟩ := ht.exists_column? hc
  exact (hexact _ hc column hcolumn).compare? (hr.takes_column? hcolumn).1
    (hk.accepts part hpart column hcolumn)

theorem selects_iff : k.selects t r = true ↔ Key.ofRow t r = k := by
  rw [selects, List.all_eq_true, ofRow_eq_iff hk.length_eq]
  refine forall₂_congr fun part hpart => ?_
  obtain ⟨o, ho, heq⟩ := compare?_of_mem_zip ht hexact hk hr part hpart
  rw [decide_eq_true_eq, ho, Option.some.injEq, heq]

theorem decides_predicate (hbound : k.Bound t label sc.params) :
    Decides (sc.push table r) (k.predicate t label) (Key.ofRow t r = k) := by
  have hcolumns : ∀ c ∈ t.keyColumns, c ∈ r.columns := hr.columns ▸ ht.key_columns
  rw [ofRow_eq_iff hk.length_eq, ← forall_mem_parts (F := fun part => r.get part.1 = part.2), predicate,
    conditions_eq]
  refine decides_paren (decides_conjunction fun part hpart => ?_)
  have hcolumn : eval (sc.push table r) (.column part.1.1) = .ok (r.get part.1.1) :=
    eval_column_of_mem_parts hcolumns hpart
  obtain ⟨o, ho, heq⟩ := forall_mem_parts.2 (compare?_of_mem_zip ht hexact hk hr) part hpart
  unfold condition
  split
  · next hnull =>
    obtain ⟨b, heval, hb⟩ := decides_isNull hcolumn
    refine ⟨b, heval, hb.trans ?_⟩
    rw [Value.isNull_iff.1 hnull, Value.isNull_iff]
  · next hnull =>
    have hnull := Bool.not_eq_true _ ▸ hnull
    obtain ⟨b, heval, hb⟩ := decides_equals hcolumn (hbound.eval_param hpart hnull) fun _ _ => ⟨o, ho, heq⟩
    refine ⟨b, heval, hb.trans ⟨And.right, fun hsame => ⟨⟨?_, hnull⟩, hsame⟩⟩⟩
    rwa [hsame]

end

end Key

end RowForest
