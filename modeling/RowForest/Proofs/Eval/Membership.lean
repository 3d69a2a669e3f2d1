import RowForest.Proofs.Eval.Boolean
import RowForest.Proofs.Eval.Sorting
import RowForest.Proofs.Value.Equality

namespace RowForest

namespace Value

variable {v w : Value} {vs ws : List Value} {o : Ordering}

mutual

/-- Whether there is no float in a value, neither the value itself nor an item of it. -/
def Floatless : Value → Prop
  | float64 _ => False
  | array items => ItemsFloatless items
  | _ => True
termination_by structural x => x

def ItemsFloatless : List Value → Prop
  | [] => True
  | v :: vs => v.Floatless ∧ ItemsFloatless vs
termination_by structural x => x

end

theorem compareText_eq {s t : String} : compareText s t = .eq ↔ s = t := by
  rw [compareText, Std.LawfulEqOrd.compare_eq_iff_eq]
  exact ⟨Utf8.encode_injective, fun h => h ▸ rfl⟩

theorem timestamp_compare_eq {s t : Timestamp} (h : s.compare t = .eq) : s = t := by
  rw [Timestamp.compare, Ordering.then_eq_eq, Std.LawfulEqOrd.compare_eq_iff_eq,
    Std.LawfulEqOrd.compare_eq_iff_eq] at h
  cases s
  cases t
  simp_all

mutual

theorem eq_of_equal : ∀ {v w : Value} {o : Ordering}, w.equal v = true → v.compare? w = some o → o = .eq
  | array as, w, o, h, ho => by
    cases w with
    | array bs =>
        rw [equal] at h
        rw [compare?] at ho
        exact eqItems_of_equal h ho
    | _ => simp [equal] at h
  | struct fs, w, o, h, ho => by
    cases w with
    | struct gs => simp [compare?] at ho
    | _ => simp [equal] at h
  | null, w, o, h, ho | bool _, w, o, h, ho | int64 _, w, o, h, ho | float64 _, w, o, h, ho
  | string _, w, o, h, ho | bytes _, w, o, h, ho | date _, w, o, h, ho | timestamp _, w, o, h, ho
  | numeric _, w, o, h, ho | json _, w, o, h, ho => by
    obtain rfl := (equal_iff (.inr (by simp [Scalar, isNull, baseType?]))).1 h
    have hself := congrArg (Option.getD · .eq) ho
    rwa [compare?_self, Option.getD_some, eq_comm] at hself

theorem eqItems_of_equal : ∀ {vs ws : List Value} {o : Ordering}, equalItems ws vs = true →
    compareItems? vs ws = some o → o = .eq
  | [], ws, o, h, ho => by
    cases ws with
    | nil => exact (Option.some.inj ho).symm
    | cons w ws => simp [equalItems] at h
  | v :: vs, ws, o, h, ho => by
    cases ws with
    | nil => simp [equalItems] at h
    | cons w ws =>
        rw [equalItems, Bool.and_eq_true] at h
        rw [compareItems?] at ho
        split at ho
        · exact eqItems_of_equal h.2 ho
        · exact eq_of_equal h.1 ho

end

mutual

theorem equal_of_compare? : ∀ {v w : Value}, v.Floatless → w.Floatless → v.compare? w = some .eq →
    w.equal v = true
  | array as, w, hv, hw, h => by
    cases w with
    | array bs =>
        rw [compare?] at h
        rw [equal]
        exact equalItems_of_compare? hv hw h
    | _ => simp [compare?] at h
  | int64 a, w, _, hw, h => by
    cases w with
    | int64 b =>
        have heq : a = b := by simpa [compare?, Int64.toInt_inj] using h
        simp [equal, heq]
    | float64 y => exact hw.elim
    | _ => simp [compare?] at h
  | float64 x, w, hv, _, _ => hv.elim
  | date d, w, _, _, h => by
    cases w with
    | date e =>
        have heq : d.days = e.days := by simpa [compare?] using h
        cases d
        cases e
        simp_all [equal]
    | _ => simp [compare?] at h
  | timestamp t, w, _, _, h => by
    cases w with
    | timestamp u =>
        rw [compare?, Option.some_inj] at h
        simp [equal, timestamp_compare_eq h]
    | _ => simp [compare?] at h
  | null, w, _, _, h | bool a, w, _, _, h | string s, w, _, _, h | bytes bs, w, _, _, h
  | numeric s, w, _, _, h | json s, w, _, _, h | struct fs, w, _, _, h => by
    cases w <;> simp [compare?, compareText_eq, equal] at h ⊢
    all_goals exact h.symm

theorem equalItems_of_compare? : ∀ {vs ws : List Value}, ItemsFloatless vs → ItemsFloatless ws →
    compareItems? vs ws = some .eq → equalItems ws vs = true
  | [], ws, _, _, h => by cases ws <;> simp [compareItems?, equalItems] at h ⊢
  | v :: vs, ws, hv, hw, h => by
    cases ws with
    | nil => simp [compareItems?] at h
    | cons w ws =>
        rw [compareItems?] at h
        rw [equalItems, Bool.and_eq_true]
        cases hhead : v.compare? w with
        | none =>
            rw [hhead] at h
            cases h
        | some o =>
            rw [hhead] at h
            cases o with
            | eq => exact ⟨equal_of_compare? hv.1 hw.1 hhead, equalItems_of_compare? hv.2 hw.2 h⟩
            | lt | gt => cases h

end

end Value

namespace Sql.Expr

/-- The predicate that an operand equals one of some others: false of none, and otherwise the equations joined
with `OR`. -/
def oneOf (e : Expr) : List Expr → Expr
  | [] => .not .always
  | [f] => .equals e f
  | f :: fs => .or (.equals e f) (oneOf e fs)

end Sql.Expr

namespace Eval

variable {sc : Scope} {e f array : Sql.Expr} {fs : List Sql.Expr} {v x : Value} {items : List Value}
  {o : Option Bool} {os : List (Option Bool)}

def equates (x v : Value) : Option Bool :=
  if x.isNull || v.isNull then none else some (x.compare? v = some .eq)

theorem eval_equals (hx : eval sc e = .ok x) (hv : eval sc f = .ok v)
    (hdefined : ∃ w, eval sc (.equals e f) = .ok w) : eval sc (.equals e f) = .ok (ofTruth (equates x v)) := by
  obtain ⟨w, hw⟩ := hdefined
  simp only [Sql.Expr.equals, eval, hx, hv, Except.ok_bind, equates] at hw ⊢
  split_ifs at hw ⊢ with hnull
  · rfl
  · rw [Eval.compare, if_neg (by simp)] at hw ⊢
    cases hcompare : x.compare? v with
    | none => simp [hcompare] at hw
    | some o => simp [holds, ofTruth]

theorem isSome_compare? (hx : eval sc e = .ok x) (hv : eval sc f = .ok v)
    (hdefined : ∃ w, eval sc (.equals e f) = .ok w) (hnull : x.isNull = false) (hnull' : v.isNull = false) :
    (x.compare? v).isSome = true := by
  obtain ⟨w, hw⟩ := hdefined
  simp only [Sql.Expr.equals, eval, hx, hv, Except.ok_bind, hnull, hnull', Bool.or_self, Bool.false_eq_true,
    if_false, Eval.compare, reduceCtorEq] at hw
  cases hcompare : x.compare? v with
  | none => simp [hcompare] at hw
  | some o => rfl

theorem isSome_compare?_items (hx : eval sc e = .ok x)
    (hitems : List.Forall₂ (fun f v => eval sc f = .ok v) fs items)
    (hdefined : ∀ f ∈ fs, ∃ w, eval sc (.equals e f) = .ok w) (hnull : x.isNull = false) :
    ∀ v ∈ items, v.isNull = false → (x.compare? v).isSome = true := by
  induction hitems with
  | nil => simp
  | cons hv _ ih =>
      obtain ⟨hfirst, hrest⟩ := List.forall_mem_cons.1 hdefined
      exact List.forall_mem_cons.2 ⟨isSome_compare? hx hv hfirst hnull, ih hrest⟩

theorem eval_or {a b : Sql.Expr} {p q : Option Bool} (ha : eval sc a = .ok (ofTruth p))
    (hb : eval sc b = .ok (ofTruth q)) : eval sc (.or a b) = .ok (ofTruth (either p q)) := by
  simp only [Sql.Expr.or, eval, ha, hb, Except.ok_bind, truth_ofTruth]
  rcases p with _ | _ | _ <;> rfl

theorem either_false (p : Option Bool) : either p (some false) = p := by
  rcases p with _ | _ | _ <;> rfl

theorem foldr_either_eq_true : os.foldr either (some false) = some true ↔ some true ∈ os := by
  induction os with
  | nil => simp
  | cons p os ih =>
      rw [List.foldr_cons, List.mem_cons, ← ih]
      rcases p with _ | _ | _ <;> rcases os.foldr either (some false) with _ | _ | _ <;> simp [either]

theorem foldr_either_eq_false : os.foldr either (some false) = some false ↔ ∀ p ∈ os, p = some false := by
  induction os with
  | nil => simp
  | cons p os ih =>
      rw [List.foldr_cons, List.forall_mem_cons, ← ih]
      rcases p with _ | _ | _ <;> rcases os.foldr either (some false) with _ | _ | _ <;> simp [either]

theorem foldr_either_eq_none : os.foldr either (some false) = none ↔ some true ∉ os ∧ none ∈ os := by
  rw [← foldr_either_eq_true]
  constructor
  · intro hnone
    refine ⟨by simp [hnone], ?_⟩
    by_contra hmem
    have hfalse : os.foldr either (some false) ≠ some false := by simp [hnone]
    obtain ⟨p, hp, hne⟩ := not_forall₂.1 (mt foldr_either_eq_false.2 hfalse)
    rcases p with _ | _ | _
    · exact hmem hp
    · exact hne rfl
    · cases hnone.symm.trans (foldr_either_eq_true.2 hp)
  · rintro ⟨htrue, hmem⟩
    have hfalse : os.foldr either (some false) ≠ some false := fun h => by
      cases foldr_either_eq_false.1 h none hmem
    rcases hfold : os.foldr either (some false) with _ | _ | _
    · rfl
    · exact absurd hfold hfalse
    · exact absurd hfold htrue

theorem eval_oneOf (hx : eval sc e = .ok x) (hitems : List.Forall₂ (fun f v => eval sc f = .ok v) fs items)
    (hdefined : ∀ f ∈ fs, ∃ w, eval sc (.equals e f) = .ok w) :
    eval sc (.oneOf e fs) = .ok (ofTruth ((items.map (equates x)).foldr either (some false))) := by
  induction hitems with
  | nil => rfl
  | @cons f v fs items hv hitems ih =>
      obtain ⟨hfirst, hrest⟩ := List.forall_mem_cons.1 hdefined
      have heq := eval_equals hx hv hfirst
      cases hitems with
      | nil => rwa [Sql.Expr.oneOf, List.map_singleton, List.foldr_cons, List.foldr_nil, either_false]
      | cons _ _ =>
          rw [Sql.Expr.oneOf, List.map_cons, List.foldr_cons]
          · exact eval_or heq (ih hrest)
          · nofun

/-- Whether membership says what equality with an item says: the operand is null and there are items, or it is
the same value as an item if it compares as equal to one. -/
structure Agrees (x : Value) (items : List Value) : Prop where
  of_null : x.isNull = true → items ≠ []
  of_value : x.isNull = false → (∃ v ∈ items, x.compare? v = some .eq) → ∃ v ∈ items, v.equal x = true

theorem ofTruth_injective {p q : Option Bool} (h : ofTruth p = ofTruth q) : p = q := by
  have htruth := truth_ofTruth p
  rw [h, truth_ofTruth] at htruth
  exact (Except.ok.inj htruth).symm

theorem equates_eq_true (hnull : x.isNull = false) : equates x v = some true ↔ x.compare? v = some .eq := by
  rw [equates, hnull, Bool.false_or]
  cases hnull' : v.isNull with
  | false => simp
  | true =>
      obtain rfl := Value.isNull_iff.1 hnull'
      cases x <;> simp [Value.compare?, Value.isNull] at hnull ⊢

theorem memberOf_iff_of_null (hnull : x.isNull = true) :
    memberOf x items = ofTruth ((items.map (equates x)).foldr either (some false)) ↔ items ≠ [] := by
  have hnone : items.map (equates x) = List.replicate items.length none :=
    List.eq_replicate_iff.2 ⟨List.length_map _, by simp [equates, hnull]⟩
  have hfold : (items.map (equates x)).foldr either (some false) = none ↔ items ≠ [] := by
    rw [foldr_either_eq_none, hnone]
    simp [List.mem_replicate]
  rw [memberOf, if_pos hnull, ← hfold]
  exact ⟨fun h => (ofTruth_injective (p := none) h).symm, fun h => by rw [h, ofTruth]⟩

theorem memberOf_iff_of_value (hnull : x.isNull = false)
    (hdefined : ∀ v ∈ items, v.isNull = false → (x.compare? v).isSome = true) :
    memberOf x items = ofTruth ((items.map (equates x)).foldr either (some false)) ↔
      ((∃ v ∈ items, x.compare? v = some .eq) → ∃ v ∈ items, v.equal x = true) := by
  have htrue : some true ∈ items.map (equates x) ↔ ∃ v ∈ items, x.compare? v = some .eq := by
    simp only [List.mem_map, equates_eq_true hnull]
  have hnone : none ∈ items.map (equates x) ↔ ∃ v ∈ items, v.isNull = true := by
    simp [equates, hnull]
  have hequal : ∀ v ∈ items, v.equal x = true → x.compare? v = some .eq := by
    intro v hv heq
    have hv' : v.isNull = false := by
      cases v with
      | null => cases x <;> simp [Value.equal, Value.isNull] at heq hnull
      | _ => rfl
    obtain ⟨o, ho⟩ := Option.isSome_iff_exists.1 (hdefined v hv hv')
    rw [ho, Value.eq_of_equal heq ho]
  rw [memberOf, if_neg (by simp [hnull])]
  simp only [List.any_eq_true]
  by_cases hmatch : ∃ v ∈ items, x.compare? v = some .eq
  · rw [foldr_either_eq_true.2 (htrue.2 hmatch)]
    split_ifs <;> simp_all [ofTruth]
  · have hother : ¬∃ v ∈ items, v.equal x = true := fun ⟨v, hv, heq⟩ => hmatch ⟨v, hv, hequal v hv heq⟩
    rw [if_neg hother]
    by_cases hn : ∃ v ∈ items, v.isNull = true
    · rw [if_pos hn, foldr_either_eq_none.2 ⟨mt htrue.1 hmatch, hnone.2 hn⟩]
      exact iff_of_true rfl fun h => absurd h hmatch
    · have hfalse : ∀ p ∈ items.map (equates x), p = some false := by
        rintro (_ | _ | _) hp
        · exact absurd (hnone.1 hp) hn
        · rfl
        · exact absurd (htrue.1 hp) hmatch
      rw [if_neg hn, foldr_either_eq_false.2 hfalse]
      exact iff_of_true rfl fun h => absurd h hmatch

theorem Agrees.of_floatless (hnull : x.isNull = true → items ≠ []) (hx : x.Floatless)
    (hitems : ∀ v ∈ items, v.Floatless) : Agrees x items :=
  ⟨hnull, fun _ ⟨v, hv, h⟩ => ⟨v, hv, Value.equal_of_compare? hx (hitems v hv) h⟩⟩

/-- Membership in an array and the equations with its items joined by `OR`, wherever each of these has a value.
They have the same value exactly if `Agrees` holds, and so wherever there are no floats, a null operand and an
empty array apart. -/
theorem eval_member_eq_oneOf_iff (hx : eval sc e = .ok x) (harray : eval sc array = .ok (.array items))
    (hitems : List.Forall₂ (fun f v => eval sc f = .ok v) fs items)
    (hdefined : ∀ f ∈ fs, ∃ w, eval sc (.equals e f) = .ok w) :
    eval sc (.member e array) = .ok (memberOf x items) ∧ (∃ o, eval sc (.oneOf e fs) = .ok (ofTruth o)) ∧
      (eval sc (.member e array) = eval sc (.oneOf e fs) ↔ Agrees x items) ∧
      ((x.isNull = true → items ≠ []) → x.Floatless → (∀ v ∈ items, v.Floatless) →
        eval sc (.member e array) = eval sc (.oneOf e fs)) := by
  have hmember : eval sc (.member e array) = .ok (memberOf x items) := by
    simp [eval, hx, harray]
  have honeOf := eval_oneOf hx hitems hdefined
  have hagrees : eval sc (.member e array) = eval sc (.oneOf e fs) ↔ Agrees x items := by
    rw [hmember, honeOf, Except.ok.injEq]
    cases hnull : x.isNull with
    | true =>
        rw [memberOf_iff_of_null hnull]
        exact ⟨fun hne => ⟨fun _ => hne, fun h => absurd (hnull.symm.trans h) (by decide)⟩,
          fun h => h.of_null hnull⟩
    | false =>
        rw [memberOf_iff_of_value hnull (isSome_compare?_items hx hitems hdefined hnull)]
        exact ⟨fun h => ⟨fun h' => absurd (hnull.symm.trans h') (by decide), fun _ => h⟩,
          fun h => h.of_value hnull⟩
  exact ⟨hmember, ⟨_, honeOf⟩, hagrees, fun hnull hx hv => hagrees.2 (.of_floatless hnull hx hv)⟩

end Eval

namespace Measure

def one : Value := .float64 ⟨0x3FF0000000000000⟩

def negativeZero : Value := .float64 ⟨0x8000000000000000⟩

def scope : Eval.Scope := .ofParams (.ofList [("label", .string "b"), ("labels", .array [.string "a", .null]),
  ("first", .string "a"), ("unknown", .null), ("int", .int64 1), ("one", one), ("ones", .array [one]),
  ("zero", .float64 ⟨0⟩), ("negative", negativeZero), ("negatives", .array [negativeZero]), ("empty", .array [])])

end Measure

theorem Eval.eval_member_eq_oneOf_iff_sample :
    eval Measure.scope (.param "label") = .ok (.string "b") ∧
      eval Measure.scope (.member (.param "label") (.param "labels")) = .ok .null ∧
      eval Measure.scope (.oneOf (.param "label") [.param "first", .param "unknown"]) = .ok .null := by
  have hx : eval Measure.scope (.param "label") = .ok (.string "b") := rfl
  have harray : eval Measure.scope (.param "labels") = .ok (.array [.string "a", .null]) := rfl
  have hitems : List.Forall₂ (fun f v => eval Measure.scope f = .ok v) [.param "first", .param "unknown"]
      [.string "a", .null] := .cons rfl (.cons rfl .nil)
  have hdefined : ∀ f ∈ [.param "first", .param "unknown"],
      ∃ w, eval Measure.scope (.equals (.param "label") f) = .ok w :=
    List.forall_mem_cons.2 ⟨⟨.bool false, rfl⟩, List.forall_mem_singleton.2 ⟨.null, rfl⟩⟩
  obtain ⟨hmember, -, -, hagree⟩ := eval_member_eq_oneOf_iff hx harray hitems hdefined
  refine ⟨hx, hmember, (hagree (by decide) trivial ?_).symm.trans hmember⟩
  exact List.forall_mem_cons.2 ⟨trivial, List.forall_mem_singleton.2 trivial⟩

/-- Membership tells apart an integer and the same number as a float, and the two zeros, which equations do not;
and it has no truth value for a null operand where there is nothing to compare it with. -/
theorem Eval.eval_member_numbers :
    eval Measure.scope (.member (.param "int") (.param "ones")) = .ok (.bool false) ∧
      eval Measure.scope (.oneOf (.param "int") [.param "one"]) = .ok (.bool true) ∧
      eval Measure.scope (.member (.param "zero") (.param "negatives")) = .ok (.bool false) ∧
      eval Measure.scope (.oneOf (.param "zero") [.param "negative"]) = .ok (.bool true) ∧
      eval Measure.scope (.member (.param "unknown") (.param "empty")) = .ok .null ∧
      eval Measure.scope (.oneOf (.param "unknown") []) = .ok (.bool false) :=
  ⟨rfl, rfl, rfl, rfl, rfl, rfl⟩

end RowForest
