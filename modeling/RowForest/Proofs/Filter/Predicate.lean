import RowForest.Proofs.Filter.Translation
import RowForest.Proofs.SortedMap

namespace RowForest.Filter

open Eval

section

variable {cx : Context} {frames : List (String × Row)} {s : Scope} {e : Node} {a b p : Sql.Expr}
  {vs ws us : List Value} {ps : Params} {function name field : String}

def Binds (ps : Params) (vs : List Value) : Prop :=
  ∀ i v, vs[i]? = some v → ps.find? (paramName i) = some v

theorem Binds.of_isPrefix (h : Binds ps ws) (hvs : vs <+: ws) : Binds ps vs := by
  obtain ⟨us, rfl⟩ := hvs
  intro i v hv
  have hi : i < vs.length := (List.getElem?_eq_some_iff.1 hv).1
  exact h i v ((List.getElem?_append_left hi).trans hv)

theorem paramName_injective : Function.Injective paramName := by
  intro i j h
  have hdigits : Nat.toDigits 10 i = Nat.toDigits 10 j :=
    String.ofList_inj.1 ((String.append_right_inj _).1 h)
  rw [← @Nat.ofDigitChars_ten_toDigits i, hdigits, Nat.ofDigitChars_ten_toDigits]

theorem namedValues_keys (i : Nat) (vs : List Value) :
    (namedValues i vs).map Prod.fst = (List.range' i vs.length).map paramName := by
  induction vs generalizing i with
  | nil => rfl
  | cons v vs ih => rw [namedValues, List.map_cons, ih, List.length_cons, List.range'_succ, List.map_cons]

theorem mem_namedValues (i j : Nat) {v : Value} (h : vs[j]? = some v) :
    (paramName (i + j), v) ∈ namedValues i vs := by
  induction vs generalizing i j with
  | nil => cases h
  | cons w vs ih =>
      rw [namedValues, List.mem_cons]
      cases j with
      | zero =>
          cases h
          exact .inl rfl
      | succ j =>
          have hj := ih (i + 1) j h
          rw [Nat.add_right_comm] at hj
          exact .inr hj

theorem binds_ofList (vs : List Value) : Binds (.ofList (namedValues 0 vs)) vs := by
  intro i v hv
  have hnodup : ((namedValues 0 vs).map Prod.fst).Nodup := by
    rw [namedValues_keys]
    exact (List.nodup_range' 1).map paramName_injective
  have hmem := mem_namedValues 0 i hv
  rw [Nat.zero_add] at hmem
  exact SortedMap.find?_eq_some.2 ((SortedMap.mem_insertAll hnodup).2 (.inl hmem))

inductive Named (root : String) : Sql.Expr → Prop
  | column : Named root (.column root)
  | path (second : String) (rest : List String) : Named root (.path (root :: second :: rest))

/-- Where no table has the name that a dotted name starts with, its last part is a field of
what stands before it. -/
theorem eval_select {root : String} (h : Named root a) (hroot : s.frame? root = none)
    (hp : select a field vs = .ok (p, ws)) :
    ws = vs ∧ eval s p = (eval s a >>= fieldOf field) ∧ Named root p := by
  cases h with
  | column =>
      cases hp
      refine ⟨rfl, ?_, .path field []⟩
      simp only [eval, path, hroot]
      refine congrArg₂ _ rfl (funext fun v => ?_)
      exact fields_append v [] field
  | path second rest =>
      cases hp
      refine ⟨rfl, ?_, .path second (rest ++ [field])⟩
      simp only [eval, List.cons_append, path, hroot, bind_assoc]
      refine congrArg₂ _ rfl (funext fun v => ?_)
      exact fields_append v (second :: rest) field

/-- What becomes of a node where `vs` are bound: what it binds comes after those, and where all
of it is bound its predicate has the value of the node. Only names have fields. -/
structure Compiled (cx : Context) (frames : List (String × Row)) (e : Node) (vs ws : List Value)
    (p : Sql.Expr) : Prop where
  grows : vs <+: ws
  eval : ∀ ps, Binds ps ws → Eval.eval ⟨ps, frames⟩ p = e.value cx (columnOf frames)
  named : ∀ field us r, select p field us = .ok r → ∃ root, e.root? = some root ∧ Named root p

theorem param_compiled {v : Value} (hv : e.value cx (columnOf frames) = .ok v) :
    Compiled cx frames e vs (vs ++ [v]) (.param (paramName vs.length)) := by
  refine ⟨vs.prefix_append [v], fun ps hps => ?_, fun _ _ _ h => by cases h⟩
  have hfind : ps.find? (paramName vs.length) = some v := hps vs.length v (by simp)
  rw [eval, Scope.param, hfind, hv]

theorem const_compiled {id : Int} {c : Constant} :
    Compiled cx frames (.const id c) vs (vs ++ [c.toValue]) (.param (paramName vs.length)) :=
  param_compiled (by rw [Node.value, Constant.toValue_eq_denotes])

theorem column_compiled {id : Int} (hname : enumNumber? cx.types id name = none) :
    Compiled cx frames (.ident id name) vs vs (.column name) := by
  refine ⟨List.prefix_rfl, fun ps hps => ?_, fun _ _ _ _ => ⟨name, rfl, .column⟩⟩
  rw [Node.value, hname]
  rfl

theorem Compiled.paren (h : Compiled cx frames e vs ws p) : Compiled cx frames e vs ws (.paren p) where
  grows := h.grows
  eval ps hps := by rw [eval_paren, h.eval ps hps]
  named _ _ _ hp := by cases hp

theorem Compiled.binary {id : Int} {l r : Node} (hl : Compiled cx frames l vs us a)
    (hr : Compiled cx frames r us ws b)
    (hp : ∀ s, Eval.eval s p = Filter.binary function (Eval.eval s a) (Eval.eval s b)) :
    Compiled cx frames (.call id function [l, r]) vs ws (.paren p) := by
  refine ⟨hl.grows.trans hr.grows, fun ps hps => ?_, fun _ _ _ h => by cases h⟩
  rw [eval_paren, hp, hl.eval ps (hps.of_isPrefix hr.grows), hr.eval ps hps, Node.value]

theorem Compiled.unary {id : Int} (he : Compiled cx frames e vs ws a)
    (hp : ∀ s, Eval.eval s p = Filter.unary function (Eval.eval s a)) :
    Compiled cx frames (.call id function [e]) vs ws (.paren p) := by
  refine ⟨he.grows, fun ps hps => ?_, fun _ _ _ h => by cases h⟩
  rw [eval_paren, hp, he.eval ps hps, Node.value]

theorem Compiled.select {id : Int} (he : Compiled cx frames e vs us a)
    (hp : Filter.select a field us = .ok (p, ws))
    (hroot : ∀ root, e.root? = some root → root ∉ frames.map Prod.fst) :
    Compiled cx frames (.select id e field) vs ws p := by
  obtain ⟨root, hname, hnamed⟩ := he.named _ _ _ hp
  have hframe (ps : Params) : (⟨ps, frames⟩ : Scope).frame? root = none := by
    rw [Scope.frame?, List.lookup_eq_none_iff]
    intro f hf
    exact bne_iff_ne.2 fun heq => hroot root hname (heq ▸ List.mem_map_of_mem hf)
  obtain ⟨rfl, -, hpath⟩ := eval_select hnamed (hframe .empty) hp
  refine ⟨he.grows, fun ps hps => ?_, fun _ _ _ _ => ⟨root, hname, hpath⟩⟩
  rw [(eval_select hnamed (hframe ps) hp).2.1, he.eval ps hps, Node.value]

theorem Node.Plain.of_subset {options : Options} {tables : List String} {n : Node}
    (h : e.Plain options tables) (hn : n.nodes ⊆ e.nodes) : n.Plain options tables :=
  ⟨fun m hm => h.search m (hn hm), fun m hm => h.wildcard m (hn hm),
    fun m hm => h.qualifier m (hn hm)⟩

theorem Node.Plain.of_arg {options : Options} {tables : List String} {id : Int} {args : List Node}
    (h : (Node.call id function args).Plain options tables) (he : e ∈ args) :
    e.Plain options tables :=
  h.of_subset (nodes_subset_of_arg he)

theorem exprOf_compiled (h : exprOf cx e vs = .ok (p, ws))
    (hplain : e.Plain cx.options (frames.map Prod.fst)) : Compiled cx frames e vs ws p := by
  replace h := exprOf_translates h
  induction h with
  | column htype hname => exact column_compiled hname
  | enum hname => exact param_compiled (by rw [Node.value, hname])
  | const => exact const_compiled
  | select ha hp ih =>
      have hoperand := ih (hplain.of_subset (List.subset_cons_self _ _))
      exact hoperand.select hp (hplain.qualifier _ (Node.self_mem_nodes _))
  | pattern hf hstar hinner =>
      have hno := hplain.wildcard _ (Node.self_mem_nodes _)
      obtain ⟨rfl, -⟩ := eq_spelling hf
      simp [Node.isWildcard, Function.spelling, hstar] at hno
  | compare hf hw ha hb ihl ihr =>
      refine (ihl (hplain.of_arg (by simp))).binary (ihr (hplain.of_arg (by simp))) fun s => ?_
      obtain ⟨hop, hmeaning⟩ := binary_compare hf (eval s _) (eval s _)
      rw [hmeaning, eval_compare hop]
  | logical hf hl hr ha hb ihl ihr =>
      refine (ihl (hplain.of_arg (by simp))).binary (ihr (hplain.of_arg (by simp))) fun s => ?_
      rw [eval_logical, binary_logical hf]
  | not hf he ha ih =>
      refine (ih (hplain.of_arg (by simp))).unary fun s => ?_
      rw [eval_not, unary_not hf]
  | has hf htype hitem =>
      refine (column_compiled (by rw [enumNumber?, htype])).binary const_compiled fun s => ?_
      rw [eval_member, binary_has hf]
  | timestamp hf ht =>
      refine (param_compiled ?_).paren
      rw [Node.value, Node.value, unary_timestamp hf]
      simp only [instant, Constant.denotes, Except.ok_bind, ht, Except.pure_ok]
  | search hf hsearch hp =>
      have hno := hplain.search _ (Node.self_mem_nodes _)
      simp [Node.isSearch, hf, hsearch] at hno

/-- A predicate has the value of the filter it was made of, whatever the rows in scope: the same
value, or the same fault. -/
theorem eval_predicate {checked : Checked} {options : Options} {bound : BoundPredicate}
    (h : predicate (some checked) options = .ok bound)
    (hplain : checked.root.Plain options (frames.map Prod.fst)) :
    eval ⟨bound.params.getD .empty, frames⟩ bound.predicate =
      checked.root.value ⟨checked.types, options⟩ (columnOf frames) := by
  simp only [predicate, Except.bind_eq_ok, Prod.exists] at h
  obtain ⟨p, vs, hp, h⟩ := h
  split at h
  · cases h
    refine (exprOf_compiled hp hplain).eval _ ?_
    cases vs with
    | nil => exact fun i v hv => by cases hv
    | cons v vs => exact binds_ofList (v :: vs)
  · cases h

end

namespace Live

def checked : Checked :=
  let genre : NodeType := .enum "Genre" [("JAZZ", 1), ("ROCK", 2)]
  let jazz : Draft := .call "=" [.ident "genre" genre, .ident "JAZZ" genre]
  let live : Draft := .call ":" [.ident "tags" (.list .string), .const (.string "live")]
  let label : Draft :=
    .call "=" [.select (.ident "info" (.message "Info")) "label" .string, .const (.string "Blue")]
  -- the largest unsigned number wraps to -1
  let played : Draft := .call "NOT"
    [.call "<=" [.ident "plays" .int64, .const (.uint64 18446744073709551615)]]
  let rated : Draft := .call ">" [.ident "rating" .int64, .const (.int64 3)]
  let unsold : Draft := .call "NOT" [.ident "sold" .bool]
  let (e, _, types) := Draft.number 0 .empty
    (.call "AND" [.call "AND" [.call "AND" [jazz, live], .call "AND" [label, .call "OR" [rated, played]]], unsold])
  ⟨e, types⟩

def bound : BoundPredicate where
  predicate :=
    let is (op : Sql.Comparison) (a b : Sql.Expr) : Sql.Expr := .paren (.compare op a b)
    let both (a b : Sql.Expr) : Sql.Expr := .paren (.logical .and a b)
    both
      (both
        (both (is .eq (.column "genre") (.param "param_0"))
          (.paren (.member (.param "param_1") (.column "tags"))))
        (both (is .eq (.path ["info", "label"]) (.param "param_2"))
          (.paren (.logical .or (is .gt (.column "rating") (.param "param_3"))
            (.paren (.not (is .le (.column "plays") (.param "param_4"))))))))
      (.paren (.not (.column "sold")))
  params := some (.ofList [("param_0", .int64 1), ("param_1", .string "live"),
    ("param_2", .string "Blue"), ("param_3", .int64 3), ("param_4", .int64 (-1))])

def frames (genre : Int64) (tags : List Value) (label plays sold rating : Value) : List (String × Row) := [
  ("Album", .ofFields [("genre", .int64 genre), ("tags", .array tags), ("info", .struct [("label", label)]),
    ("plays", plays), ("sold", sold)]),
  ("Singer", .ofFields [("rating", rating), ("plays", .int64 (-9))])]

def live : List Value := [.null, .string "live"]

def runs : List (List (String × Row) × Outcome) := [
  (frames 1 live (.string "Blue") (.int64 3) (.bool false) .null, .ok (.bool true)),
  (frames 1 live (.string "Blue") (.string "many") (.bool false) (.int64 4), .ok (.bool true)),
  (frames 1 live (.string "Blue") (.int64 3) (.bool true) .null, .ok (.bool false)),
  (frames 2 live (.string "Blue") (.int64 3) (.int64 7) .null, .ok (.bool false)),
  (frames 1 [.string "studio"] .null (.int64 3) (.int64 7) .null, .ok (.bool false)),
  (frames 1 [.null] (.string "Blue") (.int64 3) (.bool false) .null, .ok .null),
  (frames 1 live .null (.int64 3) (.bool false) .null, .ok .null),
  (frames 1 live (.string "Blue") (.int64 (-2)) (.bool false) .null, .ok .null),
  (frames 1 live (.string "Blue") (.int64 (-2)) (.bool true) .null, .ok (.bool false)),
  (frames 1 live (.string "Blue") (.int64 3) .null .null, .ok .null),
  (frames 1 live (.string "Blue") (.int64 (-2)) (.bool false) (.int64 2), .ok (.bool false)),
  (frames 1 live (.string "Blue") (.int64 3) (.int64 7) .null, .error (.notBoolean (.int64 7))),
  (frames 1 live (.string "Blue") (.string "many") (.bool false) .null,
    .error (.notComparable (.string "many") (.int64 (-1))))]

end Live

/-- A number that nothing settles before it where a condition is due, and a comparison of unlike values,
end the evaluation. Where the genre is another one, neither is looked at. -/
theorem eval_predicate_sample : predicate (some Live.checked) ⟨false, none⟩ = .ok Live.bound ∧
    Live.checked.root.Plain ⟨false, none⟩ ["Album", "Singer"] ∧
      ∀ run ∈ Live.runs, eval ⟨Live.bound.params.getD .empty, run.1⟩ Live.bound.predicate = run.2 := by
  have hbound : predicate (some Live.checked) ⟨false, none⟩ = .ok Live.bound := rfl
  have hplain : Live.checked.root.Plain ⟨false, none⟩ ["Album", "Singer"] := by
    constructor <;> decide
  refine ⟨hbound, hplain, ?_⟩
  have htables : ∀ run ∈ Live.runs, run.1.map Prod.fst = ["Album", "Singer"] := by
    simp [Live.runs, Live.frames]
  have hvalues : ∀ run ∈ Live.runs,
      Live.checked.root.value ⟨Live.checked.types, ⟨false, none⟩⟩ (columnOf run.1) = run.2 := by
    simp only [Live.runs, List.forall_mem_cons]
    exact ⟨rfl, rfl, rfl, rfl, rfl, rfl, rfl, rfl, rfl, rfl, rfl, rfl, rfl, by simp⟩
  intro run hrun
  rw [← hvalues run hrun]
  exact eval_predicate hbound (by rwa [htables run hrun])

end RowForest.Filter
