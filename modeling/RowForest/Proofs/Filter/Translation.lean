import RowForest.Proofs.Filter.Meaning

namespace RowForest.Filter

/-- The predicate of a node where `vs` are bound already, with all that is bound after it. -/
inductive Translates (cx : Context) : Node → List Value → Sql.Expr → List Value → Prop
  | column {id : Int} {type : NodeType} {name : String} {vs : List Value} (htype : cx.types.find? id = some type)
      (hname : enumNumber? cx.types id name = none) : Translates cx (.ident id name) vs (.column name) vs
  | enum {id n : Int} {name : String} {vs : List Value} (hname : enumNumber? cx.types id name = some n) :
      Translates cx (.ident id name) vs (.param (paramName vs.length))
        (vs ++ [if cx.options.enumNames then .string name else .int64 (.ofInt n)])
  | const {id : Int} {c : Constant} {vs : List Value} :
      Translates cx (.const id c) vs (.param (paramName vs.length)) (vs ++ [c.toValue])
  | select {id : Int} {e : Node} {field : String} {a p : Sql.Expr} {vs us ws : List Value}
      (ha : Translates cx e vs a us) (hp : Filter.select a field us = .ok (p, ws)) :
      Translates cx (.select id e field) vs p ws
  | pattern {id i j : Int} {function name s : String} {vs : List Value}
      (hf : Function.ofName? function = some (.compare .eq)) (hstar : hasWildcard s = true)
      (hinner : '*' ∉ stripWildcards s.toList) :
      Translates cx (.call id function [.ident i name, .const j (.string s)]) vs
        (.paren (.compare .like (.column name) (.param (paramName vs.length)))) (vs ++ [.string (likePattern s)])
  | compare {id : Int} {function : String} {op : Sql.Comparison} {l r : Node} {a b : Sql.Expr}
      {vs us ws : List Value} (hf : Function.ofName? function = some (.compare op))
      (hw : (if op = .eq then wildcardMatch [l, r] else none) = none)
      (ha : Translates cx l vs a us) (hb : Translates cx r us b ws) :
      Translates cx (.call id function [l, r]) vs (.paren (.compare op a b)) ws
  | logical {id : Int} {function : String} {op : Sql.Connective} {l r : Node} {a b : Sql.Expr}
      {vs us ws : List Value} (hf : Function.ofName? function = some (.logical op))
      (hl : isCondition cx l = true) (hr : isCondition cx r = true)
      (ha : Translates cx l vs a us) (hb : Translates cx r us b ws) :
      Translates cx (.call id function [l, r]) vs (.paren (.logical op a b)) ws
  | not {id : Int} {function : String} {e : Node} {a : Sql.Expr} {vs ws : List Value}
      (hf : Function.ofName? function = some .not) (he : isCondition cx e = true) (ha : Translates cx e vs a ws) :
      Translates cx (.call id function [e]) vs (.paren (.not a)) ws
  | has {id i j : Int} {function name : String} {c : Constant} {item : NodeType} {vs : List Value}
      (hf : Function.ofName? function = some .has) (htype : cx.types.find? i = some (.list item))
      (hitem : item.isPrimitive = true) :
      Translates cx (.call id function [.ident i name, .const j c]) vs
        (.paren (.member (.param (paramName vs.length)) (.column name))) (vs ++ [c.toValue])
  | timestamp {id j : Int} {function text : String} {t : Timestamp} {vs : List Value}
      (hf : Function.ofName? function = some .timestamp) (ht : Calendar.readTimestamp text = .ok t) :
      Translates cx (.call id function [.const j (.string text)]) vs (.paren (.param (paramName vs.length)))
        (vs ++ [.timestamp t])
  | search {id : Int} {function : String} {args : List Node} {p : Sql.Expr} {vs ws : List Value}
      (hf : Function.ofName? function = none) (hsearch : cx.options.search = some function)
      (hp : Filter.search function args vs = .ok (p, ws)) : Translates cx (.call id function args) vs (.paren p) ws

variable {cx : Context} {e l r : Node} {args : List Node} {a b p : Sql.Expr} {vs ws : List Value}
  {function name : String} {id : Int} {α β : Type}

theorem Binder.bind_eq_ok {x : Binder α} {f : α → Binder β} {r : β} :
    (x >>= f) vs = .ok (r, ws) ↔ ∃ a us, x vs = .ok (a, us) ∧ f a us = .ok (r, ws) := by
  have hbind : (x >>= f) vs = (x vs >>= fun r => f r.1 r.2) := rfl
  simp only [hbind, Except.bind_eq_ok, Prod.exists]

theorem Binder.pure_eq_ok {x y : α} : (pure x : Binder α) vs = .ok (y, ws) ↔ x = y ∧ vs = ws := by
  have hpure : (pure x : Binder α) vs = .ok (x, vs) := rfl
  rw [hpure, Except.ok.injEq, Prod.mk.injEq]

theorem fail_ne_ok {fault : Fault} {r : α × List Value} : (fail fault : Binder α) vs ≠ .ok r := by
  intro h
  cases h

theorem ident_of_type {type : NodeType} (h : cx.types.find? id = some type) :
    ident cx id name =
      match enumNumber? cx.types id name with
      | some n => bindValue (if cx.options.enumNames then .string name else .int64 (.ofInt n))
      | none => return .column name := by
  rw [ident, enumNumber?, h]
  cases type <;> rfl

theorem ident_translates (h : ident cx id name vs = .ok (p, ws)) : Translates cx (.ident id name) vs p ws := by
  cases htype : cx.types.find? id with
  | none =>
      rw [ident, htype] at h
      exact absurd h fail_ne_ok
  | some type =>
      rw [ident_of_type htype] at h
      cases hname : enumNumber? cx.types id name with
      | some n =>
          rw [hname] at h
          cases h
          exact .enum hname
      | none =>
          rw [hname] at h
          obtain ⟨rfl, rfl⟩ := Binder.pure_eq_ok.1 h
          exact .column htype hname

theorem wildcardMatch_eq_some {s : String} (h : wildcardMatch args = some (name, s)) :
    ∃ i j, args = [.ident i name, .const j (.string s)] ∧ hasWildcard s = true := by
  unfold wildcardMatch at h
  split at h
  · split_ifs at h with hstar
    cases h
    exact ⟨_, _, rfl, hstar⟩
  · cases h

theorem pattern_translates {op : Sql.Comparison} {s : String} (hf : Function.ofName? function = some (.compare op))
    (hw : (if op = .eq then wildcardMatch args else none) = some (name, s))
    (h : substring function name s vs = .ok (p, ws)) : Translates cx (.call id function args) vs (.paren p) ws := by
  split_ifs at hw with hop
  subst hop
  obtain ⟨i, j, rfl, hstar⟩ := wildcardMatch_eq_some hw
  unfold substring at h
  split_ifs at h with hinner
  · exact absurd h fail_ne_ok
  · obtain ⟨b, us, hb, h⟩ := Binder.bind_eq_ok.1 h
    obtain ⟨rfl, rfl⟩ := Binder.pure_eq_ok.1 h
    cases hb
    exact .pattern hf hstar hinner

theorem has_translates (hf : Function.ofName? function = some .has) (h : has cx args vs = .ok (p, ws)) :
    Translates cx (.call id function args) vs (.paren p) ws := by
  unfold has at h
  split at h
  · next i name j c =>
    cases htype : cx.types.find? i with
    | none =>
        rw [htype] at h
        exact absurd h fail_ne_ok
    | some type =>
        rw [htype] at h
        cases type with
        | list item =>
            -- a list is no enum, so the name binds nothing before the constant
            have hcolumn : ident cx i name = pure (.column name) := by rw [ident, htype]
            simp only [hcolumn] at h
            split_ifs at h with hitem
            · simp only [Binder.bind_eq_ok] at h
              obtain ⟨array, us, harray, b, us', hb, h⟩ := h
              obtain ⟨rfl, rfl⟩ := Binder.pure_eq_ok.1 harray
              obtain ⟨rfl, rfl⟩ := Binder.pure_eq_ok.1 h
              cases hb
              exact .has hf htype hitem
            · exact absurd h fail_ne_ok
        | _ => exact absurd h fail_ne_ok
  · exact absurd h fail_ne_ok
  · exact absurd h fail_ne_ok

theorem timestamp_translates (hf : Function.ofName? function = some .timestamp)
    (h : timestamp function args vs = .ok (p, ws)) : Translates cx (.call id function args) vs (.paren p) ws := by
  unfold timestamp at h
  split at h
  · next j text =>
    cases ht : Calendar.readTimestamp text with
    | ok t =>
        rw [ht] at h
        cases h
        exact .timestamp hf ht
    | error fault =>
        rw [ht] at h
        exact absurd h fail_ne_ok
  · exact absurd h fail_ne_ok
  · exact absurd h fail_ne_ok

theorem requireSides_eq_ok {u : Unit} (h : requireSides cx function l r a b vs = .ok (u, ws)) :
    isCondition cx l = true ∧ isCondition cx r = true ∧ ws = vs := by
  unfold requireSides at h
  split_ifs at h with hl hr
  · exact absurd h fail_ne_ok
  · exact absurd h fail_ne_ok
  · exact ⟨by simpa using hl, by simpa using hr, (Binder.pure_eq_ok.1 h).2.symm⟩

theorem exprOf_translates (h : exprOf cx e vs = .ok (p, ws)) : Translates cx e vs p ws := by
  induction e using exprOf.induct cx generalizing vs ws p with
  | case1 id name => exact ident_translates h
  | case2 id c =>
      cases h
      exact .const
  | case3 id operand field ih =>
      simp only [exprOf, Binder.bind_eq_ok] at h
      obtain ⟨a, us, ha, hp⟩ := h
      exact .select (ih ha) hp
  | case4 id function args op hf name s hw =>
      rw [exprOf.eq_def] at h
      simp only [hf, hw, Binder.bind_eq_ok, Binder.pure_eq_ok] at h
      obtain ⟨a, us, ha, rfl, rfl⟩ := h
      exact pattern_translates hf hw ha
  | case5 id function op hf l r hw ihl ihr =>
      rw [exprOf.eq_def] at h
      simp only [hf, hw, Binder.bind_eq_ok, Binder.pure_eq_ok] at h
      obtain ⟨a, us, ha, b, ws', hb, rfl, rfl⟩ := h
      exact .compare hf hw (ihl ha) (ihr hb)
  | case6 id function op hf args hargs hw =>
      rw [exprOf.eq_def] at h
      simp only [hf, hw] at h
      exact absurd h fail_ne_ok
  | case7 id function op hf l r ihl ihr =>
      rw [exprOf.eq_def] at h
      simp only [hf, Binder.bind_eq_ok, Binder.pure_eq_ok] at h
      obtain ⟨a, us, ha, b, ws', hb, _, us', hsides, rfl, rfl⟩ := h
      obtain ⟨hl, hr, rfl⟩ := requireSides_eq_ok hsides
      exact .logical hf hl hr (ihl ha) (ihr hb)
  | case8 id function op hf args hargs =>
      rw [exprOf.eq_def] at h
      simp only [hf] at h
      exact absurd h fail_ne_ok
  | case9 id function hf e ih =>
      rw [exprOf.eq_def] at h
      simp only [hf, Binder.bind_eq_ok] at h
      obtain ⟨a, us, ha, h⟩ := h
      split_ifs at h with he
      · obtain ⟨rfl, rfl⟩ := Binder.pure_eq_ok.1 h
        exact .not hf he (ih ha)
      · exact absurd h fail_ne_ok
  | case10 id function hf args hargs =>
      rw [exprOf.eq_def] at h
      simp only [hf] at h
      exact absurd h fail_ne_ok
  | case11 id function args hf =>
      rw [exprOf.eq_def] at h
      simp only [hf, Binder.bind_eq_ok, Binder.pure_eq_ok] at h
      obtain ⟨a, us, ha, rfl, rfl⟩ := h
      exact has_translates hf ha
  | case12 id function args hf =>
      rw [exprOf.eq_def] at h
      simp only [hf, Binder.bind_eq_ok, Binder.pure_eq_ok] at h
      obtain ⟨a, us, ha, rfl, rfl⟩ := h
      exact timestamp_translates hf ha
  | case13 id function args hf hsearch =>
      rw [exprOf.eq_def] at h
      simp only [hf, hsearch, if_true, Binder.bind_eq_ok, Binder.pure_eq_ok] at h
      obtain ⟨a, us, ha, rfl, rfl⟩ := h
      exact .search hf hsearch ha
  | case14 id function args hf hsearch =>
      rw [exprOf.eq_def] at h
      simp only [hf, hsearch, if_false] at h
      exact absurd h fail_ne_ok

end RowForest.Filter
