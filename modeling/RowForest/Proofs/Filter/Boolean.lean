import RowForest.Proofs.Eval.Boolean
import RowForest.Proofs.Filter.Assembly
import RowForest.Proofs.Filter.Parameters

namespace RowForest.Filter

open Eval

/-- Whether a node can be asked of the rows in scope: it is no search and no dotted name that starts with one of
the tables, and if it is a name and a condition by its type, it has a truth value wherever it has a value. -/
structure Node.Fits (cx : Context) (frames : List (String × Row)) (n : Node) : Prop where
  search : n.isSearch cx.options = false
  qualifier : ∀ table ∈ n.qualifier?, table ∉ frames.map Prod.fst
  condition : n.name?.isSome → cx.types.find? n.id = some .bool →
    ∀ v, n.value cx (Scope.column ⟨.empty, frames⟩) = .ok v → ∃ o, v = ofTruth o

/-- What holds of the predicate of a node: its evaluation needs no truth value where there is another value, and
ends in one if the node is a condition by its type. -/
structure Sound (cx : Context) (frames : List (String × Row)) (e : Node) (vs ws : List Value)
    (p : Sql.Expr) : Prop where
  grows : vs <+: ws
  safe : ∀ ps, Binds ps ws → Safe ⟨ps, frames⟩ p
  boolean : isCondition cx e = true → ∀ ps, Binds ps ws → Boolean ⟨ps, frames⟩ p
  named : ∀ field us r, select p field us = .ok r → Compiled cx frames e vs ws p

section

variable {cx : Context} {frames : List (String × Row)} {e l r : Node} {args : List Node} {a b p : Sql.Expr}
  {vs us ws : List Value} {function field : String} {id : Int} {type : NodeType} {P : Node → Prop}

theorem forall_nodes_of_arg (h : ∀ n ∈ (Node.call id function args).nodes, P n) (he : e ∈ args) :
    ∀ n ∈ e.nodes, P n := fun n hn => h n (Node.nodes_subset_of_arg he hn)

theorem isCondition_of_type (htype : cx.types.find? e.id = some type) : isCondition cx e = decide (type = .bool) := by
  rw [isCondition.eq_def, htype]

theorem select_eq_path (h : select a field vs = .ok (p, ws)) : ∃ names, p = .path names := by
  unfold select at h
  split at h <;> cases h <;> exact ⟨_, rfl⟩

theorem Compiled.sound (h : Compiled cx frames e vs ws p) (hsafe : ∀ ps, Safe ⟨ps, frames⟩ p)
    (hvalue : isCondition cx e = true →
      ∀ v, e.value cx (Scope.column ⟨.empty, frames⟩) = .ok v → ∃ o, v = ofTruth o) : Sound cx frames e vs ws p where
  grows := h.grows
  safe ps _ := hsafe ps
  boolean hcondition ps hps v hv := hvalue hcondition v ((h.eval ps hps).symm.trans hv)
  named _ _ _ _ := h

theorem Compiled.sound_of_name (h : Compiled cx frames e vs ws p) (hsafe : ∀ ps, Safe ⟨ps, frames⟩ p)
    (htype : ∃ type, cx.types.find? e.id = some type) (hname : e.name?.isSome) (hfits : e.Fits cx frames) :
    Sound cx frames e vs ws p := by
  refine h.sound hsafe fun hcondition => ?_
  obtain ⟨type, htype⟩ := htype
  rw [isCondition_of_type htype, decide_eq_true_eq] at hcondition
  subst hcondition
  exact hfits.condition hname htype

theorem const_sound {c : Constant} (htype : cx.types.find? id = some c.type) :
    Sound cx frames (.const id c) vs (vs ++ [c.toValue]) (.param (paramName vs.length)) := by
  refine const_compiled.sound (fun _ => safe_param _) fun hcondition v hv => ?_
  rw [@isCondition_of_type _ (.const id c) _ htype, decide_eq_true_eq] at hcondition
  cases c with
  | bool b =>
      cases hv
      exact ⟨some b, rfl⟩
  | _ => cases hcondition

theorem sound_call (hgrows : vs <+: ws) (hsafe : ∀ ps, Binds ps ws → Safe ⟨ps, frames⟩ a)
    (hboolean : ∀ ps, Boolean ⟨ps, frames⟩ a) : Sound cx frames (.call id function args) vs ws (.paren a) where
  grows := hgrows
  safe ps hps v := by
    rw [eval_paren]
    exact hsafe ps hps v
  boolean _ ps _ v := by
    rw [eval_paren]
    exact hboolean ps v
  named _ _ _ h := by cases h

theorem timestamp_sound {v : Value} (htype : cx.types.find? id = some (Draft.resultType timestampFunction)) :
    Sound cx frames (.call id timestampFunction args) vs (vs ++ [v]) (.paren (.param (paramName vs.length))) where
  grows := List.prefix_append _ _
  safe ps _ v := by
    rw [eval_paren]
    exact safe_param _ v
  boolean hcondition := by
    rw [@isCondition_of_type _ (.call id timestampFunction args) _ htype] at hcondition
    cases hcondition
  named _ _ _ h := by cases h

theorem Sound.compare (op : Sql.Comparison) (hl : Sound cx frames l vs us a) (hr : Sound cx frames r us ws b) :
    Sound cx frames (.call id function args) vs ws (.paren (.compare op a b)) :=
  sound_call (hl.grows.trans hr.grows)
    (fun ps hps => safe_compare op (hl.safe ps (hps.of_isPrefix hr.grows)) (hr.safe ps hps))
    fun _ => boolean_compare op a b

theorem Sound.logical (op : Sql.Connective) (hl : Sound cx frames l vs us a) (hr : Sound cx frames r us ws b)
    (hlhs : isCondition cx l = true) (hrhs : isCondition cx r = true) :
    Sound cx frames (.call id function args) vs ws (.paren (.logical op a b)) := by
  refine sound_call (hl.grows.trans hr.grows) (fun ps hps => ?_) fun _ => boolean_logical op a b
  have hus := hps.of_isPrefix hr.grows
  exact safe_logical op (hl.safe ps hus) (hr.safe ps hps) (hl.boolean hlhs ps hus) (hr.boolean hrhs ps hps)

theorem Sound.not (he : Sound cx frames e vs ws a) (hcondition : isCondition cx e = true) :
    Sound cx frames (.call id function args) vs ws (.paren (.not a)) :=
  sound_call he.grows (fun ps hps => safe_not (he.safe ps hps) (he.boolean hcondition ps hps))
    fun _ => boolean_not a

theorem exprOf_sound (h : exprOf cx e vs = .ok (p, ws)) (hnodes : ∀ n ∈ e.nodes, n.Typed cx.types ∧ n.Fits cx frames) :
    Sound cx frames e vs ws p := by
  replace h := exprOf_translates h
  induction h with
  | column htype hname =>
      obtain ⟨htyped, hfits⟩ := hnodes _ (Node.self_mem_nodes _)
      exact (column_compiled hname).sound_of_name (fun _ => safe_column _) htyped rfl hfits
  | enum hname =>
      obtain ⟨htyped, hfits⟩ := hnodes _ (Node.self_mem_nodes _)
      refine (param_compiled ?_).sound_of_name (fun _ => safe_param _) htyped rfl hfits
      rw [Node.value, hname]
  | const => exact const_sound (hnodes _ (Node.self_mem_nodes _)).1
  | @select id e field a p vs us ws ha hp ih =>
      obtain ⟨htyped, hfits⟩ := hnodes _ (Node.self_mem_nodes _)
      have hoperand := ih fun n hn => hnodes n (List.mem_cons_of_mem _ hn)
      have hselect : Compiled cx frames (.select id e field) vs ws p :=
        (hoperand.named _ _ _ hp).select hp hfits.qualifier
      obtain ⟨names, rfl⟩ := select_eq_path hp
      exact hselect.sound_of_name (fun _ => safe_path names) htyped rfl hfits
  | pattern hf hstar hinner =>
      exact sound_call (List.prefix_append _ _) (fun _ _ => safe_compare _ (safe_column _) (safe_param _))
        fun _ => boolean_compare _ _ _
  | compare hf hw ha hb ihl ihr =>
      exact .compare _ (ihl (forall_nodes_of_arg hnodes (by simp))) (ihr (forall_nodes_of_arg hnodes (by simp)))
  | logical hf hlhs hrhs ha hb ihl ihr =>
      have hl := ihl (forall_nodes_of_arg hnodes (by simp))
      have hr := ihr (forall_nodes_of_arg hnodes (by simp))
      exact hl.logical _ hr hlhs hrhs
  | not hf hcondition ha ih => exact (ih (forall_nodes_of_arg hnodes (by simp))).not hcondition
  | has hf htype hitem =>
      exact sound_call (List.prefix_append _ _) (fun _ _ => safe_member (safe_param _) (safe_column _))
        fun _ => boolean_member _ _
  | timestamp hf ht =>
      obtain ⟨rfl, -⟩ := eq_spelling hf
      exact timestamp_sound (hnodes _ (Node.self_mem_nodes _)).1
  | search hf hsearch hp =>
      have hno := (hnodes _ (Node.self_mem_nodes _)).2.search
      simp [Node.isSearch, hf, hsearch] at hno

theorem binds_params (vs : List Value) :
    Binds ((if vs.isEmpty then none else some (.ofList (namedValues 0 vs)) : Option Params).getD .empty) vs := by
  cases vs with
  | nil => exact fun i v hv => by cases hv
  | cons v vs => exact binds_ofList (v :: vs)

theorem isCondition_of_predicate {checked : Checked} {options : Options} {bound : BoundPredicate}
    (h : predicate (some checked) options = .ok bound) : isCondition ⟨checked.types, options⟩ checked.root = true := by
  simp only [predicate, Except.bind_eq_ok, Prod.exists] at h
  obtain ⟨p, vs, -, h⟩ := h
  split at h
  · assumption
  · cases h

/-- The evaluation of a predicate never ends because a value is no truth value, and a value that it ends in is one,
provided that the filter was put together by one builder and that the names in it that are conditions by their types
have truth values in the rows in scope. -/
theorem predicate_boolean {checked : Checked} {options : Options} {bound : BoundPredicate}
    (h : predicate (some checked) options = .ok bound) (hassembled : checked.Assembled)
    (hfits : ∀ n ∈ checked.root.nodes, n.Fits ⟨checked.types, options⟩ frames) :
    Safe ⟨bound.params.getD .empty, frames⟩ bound.predicate ∧
      Boolean ⟨bound.params.getD .empty, frames⟩ bound.predicate := by
  obtain ⟨vs, hp, hparams⟩ := predicate_eq_ok h
  have hsound := exprOf_sound hp fun n hn => ⟨hassembled.typed n hn, hfits n hn⟩
  rw [hparams]
  exact ⟨hsound.safe _ (binds_params vs), hsound.boolean (isCondition_of_predicate h) _ (binds_params vs)⟩

end

namespace Ticket

def draft : Draft :=
  let sold : Draft := .select (.ident "hall" (.message "Hall")) "sold_out" .bool
  let named : Draft := .call "=" [.ident "title" .string, .const (.string "*Boye*")]
  let early : Draft :=
    .call "<" [.ident "start" .timestamp, .call "timestamp" [.const (.string "2024-01-01T00:00:00Z")]]
  .call "AND" [.call "OR" [.ident "open" .bool, .const (.bool false)],
    .call "AND" [.call "NOT" [sold], .call "OR" [named, early]]]

def checked : Checked := draft.build.getD ⟨.const 0 (.bool true), .empty⟩

def bound : BoundPredicate := (predicate draft.build ⟨false, none⟩).toOption.getD ⟨.always, none⟩

def row : Row := .ofFields [("open", .bool true), ("hall", .struct []), ("title", .string "Boye and others")]

end Ticket

theorem predicate_boolean_sample : predicate (some Ticket.checked) ⟨false, none⟩ = .ok Ticket.bound ∧
    Ticket.checked.Assembled ∧
      (∀ n ∈ Ticket.checked.root.nodes, n.Fits ⟨Ticket.checked.types, ⟨false, none⟩⟩ [("Concert", Ticket.row)]) ∧
        eval ⟨Ticket.bound.params.getD .empty, [("Concert", Ticket.row)]⟩ Ticket.bound.predicate = .ok .null ∧
          Safe ⟨Ticket.bound.params.getD .empty, [("Concert", Ticket.row)]⟩ Ticket.bound.predicate := by
  have hbound : predicate (some Ticket.checked) ⟨false, none⟩ = .ok Ticket.bound := rfl
  have hassembled : Ticket.checked.Assembled := @Draft.assembled_build Ticket.draft _ rfl
  have hsearch : ∀ n ∈ Ticket.checked.root.nodes, n.isSearch ⟨false, none⟩ = false := by decide
  have hqualifier : ∀ n ∈ Ticket.checked.root.nodes, ∀ table ∈ n.qualifier?, table ∉ ["Concert"] := by decide
  have hvalue : ∀ n ∈ Ticket.checked.root.nodes, n.name?.isSome → Ticket.checked.types.find? n.id = some .bool →
      (n.value ⟨Ticket.checked.types, ⟨false, none⟩⟩ (Scope.column ⟨.empty, [("Concert", Ticket.row)]⟩)).toOption.all
        (fun v => v.isNull || v.asBool?.isSome) = true := by decide
  have hfits : ∀ n ∈ Ticket.checked.root.nodes,
      n.Fits ⟨Ticket.checked.types, ⟨false, none⟩⟩ [("Concert", Ticket.row)] := by
    refine fun n hn => ⟨hsearch n hn, hqualifier n hn, fun hname htype v hv => ?_⟩
    have htruth := hvalue n hn hname htype
    rw [hv] at htruth
    cases v with
    | null => exact ⟨none, rfl⟩
    | bool b => exact ⟨some b, rfl⟩
    | _ => cases htruth
  exact ⟨hbound, hassembled, hfits, rfl, (predicate_boolean hbound hassembled hfits).1⟩

end RowForest.Filter
