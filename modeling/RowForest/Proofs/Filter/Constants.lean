import RowForest.Proofs.Filter.Parameters

namespace RowForest.Filter

def givenOptions : List Node → List Bool
  | [_, _, language, count, share] =>
    [isGiven isSetText language, isGiven isSetCount count, isGiven isSetShare share]
  | _ => []

/-- Whether two nodes differ at most in constants, not even in whether a text that a name is equated
with begins or ends with a star, nor in which options a search is given. -/
inductive Node.Alike (options : Options) : Node → Node → Prop
  | ident (id : Int) (name : String) : Alike options (.ident id name) (.ident id name)
  | const (id : Int) (c d : Constant) : Alike options (.const id c) (.const id d)
  | select (id : Int) (field : String) {e f : Node} (h : Alike options e f) :
      Alike options (.select id e field) (.select id f field)
  | call (id : Int) (function : String) {as bs : List Node} (hargs : List.Forall₂ (Alike options) as bs)
      (hstar : (Node.call id function as).isWildcard = (Node.call id function bs).isWildcard)
      (hgiven : (Node.call id function as).isSearch options = true → givenOptions as = givenOptions bs) :
      Alike options (.call id function as) (.call id function bs)

/-- Whether two computations that have bound equally many values before give the same result, if both
give one, and have bound equally many values after. -/
def Binder.Agree {α : Type} (x y : Binder α) : Prop :=
  ∀ vs vs', vs.length = vs'.length → ∀ a ws b ws', x vs = .ok (a, ws) → y vs' = .ok (b, ws') →
    a = b ∧ ws.length = ws'.length

section

variable {α β : Type} {x y : Binder α} {f g : α → Binder β} {cx : Context} {types : Types} {options : Options}
  {e e' l l' r r' : Node} {args args' : List Node} {a b : Sql.Expr} {function name field : String} {id : Int}

namespace Binder.Agree

theorem pure (a : α) : Agree (Pure.pure a) (Pure.pure a) := by
  intro vs vs' hlength _ _ _ _ hx hy
  obtain ⟨rfl, rfl⟩ := Binder.pure_eq_ok.1 hx
  obtain ⟨rfl, rfl⟩ := Binder.pure_eq_ok.1 hy
  exact ⟨rfl, hlength⟩

theorem bind (hx : Agree x y) (hf : ∀ a, Agree (f a) (g a)) : Agree (x >>= f) (y >>= g) := by
  intro vs vs' hlength _ _ _ _ hx' hy'
  obtain ⟨a, us, ha, hx'⟩ := Binder.bind_eq_ok.1 hx'
  obtain ⟨b, us', hb, hy'⟩ := Binder.bind_eq_ok.1 hy'
  obtain ⟨rfl, hus⟩ := hx vs vs' hlength _ _ _ _ ha hb
  exact hf a us us' hus _ _ _ _ hx' hy'

theorem fail_left (fault : Fault) : Agree (fail fault) y :=
  fun _ _ _ _ _ _ _ hx _ => absurd hx fail_ne_ok

theorem fail_right (fault : Fault) : Agree x (fail fault) :=
  fun _ _ _ _ _ _ _ _ hy => absurd hy fail_ne_ok

theorem bindValue (v w : Value) : Agree (Filter.bindValue v) (Filter.bindValue w) := by
  intro vs vs' hlength _ _ _ _ hx hy
  cases hx
  cases hy
  exact ⟨by rw [hlength], by simp [hlength]⟩

theorem ident : Agree (Filter.ident cx id name) (Filter.ident cx id name) := by
  cases htype : cx.types.find? id with
  | none =>
      have hfail : Filter.ident cx id name = fail (.unsupported (.untypedIdent id)) := by
        rw [Filter.ident, htype]
      rw [hfail]
      exact fail_left _
  | some type =>
      rw [ident_of_type htype]
      cases enumNumber? cx.types id name with
      | some n => exact bindValue _ _
      | none => exact pure _

theorem select : Agree (Filter.select a field) (Filter.select a field) := by
  cases a with
  | column | path => exact pure _
  | _ => exact fail_left _

theorem substring {s s' : String} : Agree (substring function name s) (substring function name s') := by
  unfold Filter.substring
  split_ifs
  · exact fail_left _
  · exact fail_left _
  · exact fail_right _
  · exact (bindValue _ _).bind fun _ => pure _

theorem has (h : List.Forall₂ (Node.Alike cx.options) args args') : Agree (has cx args) (has cx args') := by
  unfold Filter.has
  split
  · next i name j c =>
    obtain _ | ⟨⟨⟩, _ | ⟨⟨⟩, ⟨⟩⟩⟩ := h
    dsimp only
    cases cx.types.find? i with
    | none => exact fail_left _
    | some type =>
        cases type with
        | list item =>
            dsimp only
            split_ifs
            · exact ident.bind fun _ => (bindValue _ _).bind fun _ => pure _
            · exact fail_left _
        | _ => exact fail_left _
  · exact fail_left _
  · exact fail_left _

theorem timestamp (h : List.Forall₂ (Node.Alike options) args args') :
    Agree (timestamp function args) (timestamp function args') := by
  unfold Filter.timestamp
  split
  · next j text =>
    obtain _ | ⟨harg, ⟨⟩⟩ := h
    cases harg with
    | const _ _ d =>
    cases d with
    | string text' =>
        dsimp only
        cases Calendar.readTimestamp text with
        | error fault => exact fail_left _
        | ok t =>
            cases Calendar.readTimestamp text' with
            | error fault => exact fail_right _
            | ok t' => exact bindValue _ _
    | _ => exact fail_right _
  · exact fail_left _
  · exact fail_left _

theorem searchOption {key : String} {isSet : Constant → Bool} (h : isGiven isSet e = isGiven isSet e') :
    Agree (searchOption key isSet e) (searchOption key isSet e') := by
  cases hgiven : isGiven isSet e with
  | false =>
      rw [searchOption_of_not_given hgiven, searchOption_of_not_given (h.symm.trans hgiven)]
      exact pure _
  | true =>
      obtain ⟨v, hv⟩ := searchOption_of_given key hgiven
      obtain ⟨w, hw⟩ := searchOption_of_given key (h.symm.trans hgiven)
      rw [hv, hw]
      exact (bindValue v w).bind fun _ => pure _

theorem searchOptions (h : List.Forall₂ (Node.Alike options) args args')
    (hcount : args.length = 0 ∨ args.length = 3)
    (hgiven : givenOptions (e :: l :: args) = givenOptions (e' :: l' :: args')) :
    Agree (searchOptions args) (searchOptions args') := by
  rcases hcount with hcount | hcount
  · obtain rfl := List.length_eq_zero_iff.1 hcount
    obtain rfl := List.forall₂_nil_left_iff.1 h
    exact pure _
  · obtain ⟨language, count, share, rfl⟩ := List.length_eq_three.1 hcount
    obtain _ | ⟨-, _ | ⟨-, _ | ⟨-, ⟨⟩⟩⟩⟩ := h
    simp only [givenOptions, List.cons.injEq, and_true] at hgiven
    obtain ⟨hlanguage, hcount, hshare⟩ := hgiven
    exact (searchOption hlanguage).bind fun _ => (searchOption hcount).bind fun _ =>
      (searchOption hshare).bind fun _ => pure _

theorem search (h : List.Forall₂ (Node.Alike options) args args') (hgiven : givenOptions args = givenOptions args') :
    Agree (search function args) (search function args') := by
  unfold Filter.search
  rw [← h.length_eq]
  by_cases hcount : (args.length != 2 && args.length != 5) = true
  · rw [if_pos hcount]
    exact fail_left _
  · rw [if_neg hcount, if_neg hcount]
    split
    · next i name j query rest =>
      cases h with
      | cons hname h =>
      cases hname
      cases h with
      | cons hquery h =>
      cases hquery with
      | const _ _ d =>
      cases d with
      | string query' =>
          dsimp only
          split_ifs
          · exact fail_left _
          · exact fail_left _
          · exact fail_right _
          · have hrest : rest.length = 0 ∨ rest.length = 3 := by
              simp only [List.length_cons, Bool.and_eq_true, bne_iff_ne] at hcount
              omega
            exact (bindValue _ _).bind fun _ => (searchOptions h hrest hgiven).bind fun _ => pure _
      | _ => exact fail_right _
    · exact fail_left _
    · exact fail_left _

theorem requireSides : Agree (requireSides cx function l r a b) (requireSides cx function l' r' a b) := by
  have hcases (l r : Node) : (∃ fault, Filter.requireSides cx function l r a b = fail fault) ∨
      Filter.requireSides cx function l r a b = Pure.pure () := by
    unfold Filter.requireSides
    split_ifs
    · exact .inl ⟨_, rfl⟩
    · exact .inl ⟨_, rfl⟩
    · exact .inr rfl
  obtain ⟨fault, hl⟩ | hl := hcases l r
  · rw [hl]
    exact fail_left fault
  · obtain ⟨fault, hr⟩ | hr := hcases l' r'
    · rw [hr]
      exact fail_right fault
    · rw [hl, hr]
      exact pure ()

end Binder.Agree

theorem isWildcard_eq : (Node.call id function args).isWildcard =
    (decide (function = "=") && (wildcardMatch args).isSome) := by
  unfold wildcardMatch
  split
  · next i name j s => cases h : hasWildcard s <;> simp [Node.isWildcard, h]
  · next hother =>
    unfold Node.isWildcard
    split
    · next i name j s heq =>
      obtain ⟨-, -, rfl⟩ := Node.call.inj heq
      exact absurd rfl (hother i name j s)
    · simp

theorem wildcardMatch_alike {op : Sql.Comparison} (hf : Function.ofName? function = some (.compare op))
    (hstar : (Node.call id function args).isWildcard = (Node.call id function args').isWildcard) :
    (if op = .eq then wildcardMatch args else none).isSome =
      (if op = .eq then wildcardMatch args' else none).isSome := by
  by_cases hop : op = .eq
  · subst hop
    obtain ⟨rfl, -⟩ := eq_spelling hf
    simpa [isWildcard_eq, Function.spelling] using hstar
  · simp [hop]

theorem exprOf_pattern {op : Sql.Comparison} {s : String} (hf : Function.ofName? function = some (.compare op))
    (hw : (if op = .eq then wildcardMatch args else none) = some (name, s)) :
    exprOf cx (.call id function args) = do return .paren (← substring function name s) := by
  rw [exprOf.eq_def]
  simp only [hf, hw]

theorem exprOf_compare {op : Sql.Comparison} (hf : Function.ofName? function = some (.compare op))
    (hw : (if op = .eq then wildcardMatch [l, r] else none) = none) :
    exprOf cx (.call id function [l, r]) = do
      let a ← exprOf cx l
      let b ← exprOf cx r
      return .paren (.compare op a b) := by
  rw [exprOf.eq_def]
  simp only [hf, hw]

theorem exprOf_logical {op : Sql.Connective} (hf : Function.ofName? function = some (.logical op)) :
    exprOf cx (.call id function [l, r]) = do
      let a ← exprOf cx l
      let b ← exprOf cx r
      requireSides cx function l r a b
      return .paren (.logical op a b) := by
  rw [exprOf.eq_def]
  simp only [hf]

theorem exprOf_not (hf : Function.ofName? function = some .not) :
    exprOf cx (.call id function [e]) = (do
      let a ← exprOf cx e
      if isCondition cx e then return .paren (.not a)
      else fail (.notBoolean (.argument function) a.text)) := by
  rw [exprOf.eq_def]
  simp only [hf]

theorem exprOf_has (hf : Function.ofName? function = some .has) :
    exprOf cx (.call id function args) = do return .paren (← has cx args) := by
  rw [exprOf.eq_def]
  simp only [hf]

theorem exprOf_timestamp (hf : Function.ofName? function = some .timestamp) :
    exprOf cx (.call id function args) = do return .paren (← timestamp function args) := by
  rw [exprOf.eq_def]
  simp only [hf]

theorem exprOf_search (hf : Function.ofName? function = none) (hsearch : cx.options.search = some function) :
    exprOf cx (.call id function args) = do return .paren (← search function args) := by
  rw [exprOf.eq_def]
  simp only [hf, hsearch, if_true]

theorem exprOf_agree (h : e.Alike cx.options e') : Binder.Agree (exprOf cx e) (exprOf cx e') := by
  induction e using exprOf.induct cx generalizing e' with
  | case1 id name =>
      cases h
      rw [exprOf]
      exact Binder.Agree.ident
  | case2 id c =>
      cases h
      rw [exprOf, exprOf]
      exact Binder.Agree.bindValue _ _
  | case3 id operand field ih =>
      cases h with
      | select _ _ h =>
      rw [exprOf, exprOf]
      exact (ih h).bind fun _ => Binder.Agree.select
  | case4 id function args op hf name s hw =>
      cases h with
      | call _ _ hargs hstar hgiven =>
      have hsome := wildcardMatch_alike hf hstar
      rw [hw, Option.isSome_some, eq_comm, Option.isSome_iff_exists] at hsome
      obtain ⟨⟨name', s'⟩, hw'⟩ := hsome
      rw [exprOf_pattern hf hw, exprOf_pattern hf hw']
      split_ifs at hw hw'
      obtain ⟨i, j, rfl, -⟩ := wildcardMatch_eq_some hw
      obtain ⟨i', j', rfl, -⟩ := wildcardMatch_eq_some hw'
      obtain _ | ⟨⟨⟩, -⟩ := hargs
      exact Binder.Agree.substring.bind fun _ => .pure _
  | case5 id function op hf l r hw ihl ihr =>
      cases h with
      | call _ _ hargs hstar hgiven =>
      have hnone := wildcardMatch_alike hf hstar
      obtain _ | ⟨hl, _ | ⟨hr, ⟨⟩⟩⟩ := hargs
      rw [hw, Option.isSome_none, eq_comm, Option.isSome_eq_false_iff, Option.isNone_iff_eq_none] at hnone
      rw [exprOf_compare hf hw, exprOf_compare hf hnone]
      exact (ihl hl).bind fun _ => (ihr hr).bind fun _ => .pure _
  | case6 id function op hf args hargs hw =>
      rw [exprOf.eq_def]
      simp only [hf, hw]
      exact Binder.Agree.fail_left _
  | case7 id function op hf l r ihl ihr =>
      cases h with
      | call _ _ hargs hstar hgiven =>
      obtain _ | ⟨hl, _ | ⟨hr, ⟨⟩⟩⟩ := hargs
      rw [exprOf_logical hf, exprOf_logical hf]
      exact (ihl hl).bind fun _ => (ihr hr).bind fun _ => Binder.Agree.requireSides.bind fun _ => .pure _
  | case8 id function op hf args hargs =>
      rw [exprOf.eq_def]
      simp only [hf]
      exact Binder.Agree.fail_left _
  | case9 id function hf e ih =>
      cases h with
      | call _ _ hargs hstar hgiven =>
      obtain _ | ⟨he, ⟨⟩⟩ := hargs
      rw [exprOf_not hf, exprOf_not hf]
      refine (ih he).bind fun a => ?_
      split_ifs
      · exact .pure _
      · exact .fail_right _
      · exact .fail_left _
      · exact .fail_left _
  | case10 id function hf args hargs =>
      rw [exprOf.eq_def]
      simp only [hf]
      exact Binder.Agree.fail_left _
  | case11 id function args hf =>
      cases h with
      | call _ _ hargs hstar hgiven =>
      rw [exprOf_has hf, exprOf_has hf]
      exact (Binder.Agree.has hargs).bind fun _ => .pure _
  | case12 id function args hf =>
      cases h with
      | call _ _ hargs hstar hgiven =>
      rw [exprOf_timestamp hf, exprOf_timestamp hf]
      exact (Binder.Agree.timestamp hargs).bind fun _ => .pure _
  | case13 id function args hf hsearch =>
      cases h with
      | call _ _ hargs hstar hgiven =>
      rw [exprOf_search hf hsearch, exprOf_search hf hsearch]
      refine (Binder.Agree.search hargs (hgiven ?_)).bind fun _ => .pure _
      simp [Node.isSearch, hf, hsearch]
  | case14 id function args hf hsearch =>
      rw [exprOf.eq_def]
      simp only [hf, hsearch, if_false]
      exact Binder.Agree.fail_left _

/-- Filters that differ at most in constants have the same predicate, and parameters of the same
names. -/
theorem predicate_alike {checked checked' : Checked} {bound bound' : BoundPredicate}
    (htypes : checked.types = checked'.types) (h : checked.root.Alike options checked'.root)
    (hbound : predicate (some checked) options = .ok bound)
    (hbound' : predicate (some checked') options = .ok bound') :
    bound.predicate = bound'.predicate ∧ bound.params.map SortedMap.keys = bound'.params.map SortedMap.keys := by
  obtain ⟨vs, hp, hparams⟩ := predicate_eq_ok hbound
  obtain ⟨ws, hp', hparams'⟩ := predicate_eq_ok hbound'
  rw [← htypes] at hp'
  have hagree : Binder.Agree (exprOf ⟨checked.types, options⟩ checked.root)
      (exprOf ⟨checked.types, options⟩ checked'.root) := exprOf_agree h
  obtain ⟨hpredicate, hlength⟩ := hagree [] [] rfl _ _ _ _ hp hp'
  refine ⟨hpredicate, ?_⟩
  have hkeys : (SortedMap.ofList (namedValues 0 vs)).keys = (SortedMap.ofList (namedValues 0 ws)).keys :=
    SortedMap.keys_congr fun name => by rw [mem_keys_namedValues, mem_keys_namedValues, hlength]
  have hempty : vs.isEmpty = ws.isEmpty := by
    rw [Bool.eq_iff_iff, List.isEmpty_iff_length_eq_zero, List.isEmpty_iff_length_eq_zero, hlength]
  rw [hparams, hparams', hempty]
  split
  · rfl
  · exact congrArg some hkeys

end

namespace Concert

def checked (minutes : Int64) (title query language : String) (share : Binary64) : Checked :=
  let long : Draft := .call ">=" [.ident "minutes" .int64, .const (.int64 minutes)]
  let named : Draft := .call "=" [.ident "title" .string, .const (.string title)]
  let found : Draft := .call "find" [.ident "notes" .string, .const (.string query),
    .const (.string language), .const (.int64 0), .const (.double share)]
  let (e, _, types) := Draft.number 0 .empty (.call "OR" [.call "AND" [long, named], found])
  ⟨e, types⟩

def boye : Checked := checked 90 "*Boye" "jazz" "no" ⟨0x3fe0000000000000⟩

/-- Its texts look like parts of a statement. -/
def hostile : Checked := checked (-1) "') OR (TRUE*" "@param_0" "`" ⟨0x3fd0000000000000⟩

def options : Options := ⟨false, some "find"⟩

end Concert

theorem predicate_alike_sample : Concert.boye.types = Concert.hostile.types ∧
    Concert.boye.root.Alike Concert.options Concert.hostile.root ∧ ∃ bound bound',
      predicate (some Concert.boye) Concert.options = .ok bound ∧
      predicate (some Concert.hostile) Concert.options = .ok bound' ∧
      bound.predicate = bound'.predicate ∧
      bound.params.map SortedMap.keys = bound'.params.map SortedMap.keys ∧
      bound.params.map SortedMap.keys =
        some ["param_0", "param_1", "param_2", "param_3", "param_4"] := by
  have htypes : Concert.boye.types = Concert.hostile.types := rfl
  have halike : Concert.boye.root.Alike Concert.options Concert.hostile.root := by
    refine .call _ _ (.cons (.call _ _ (.cons ?long (.cons ?named .nil)) rfl fun _ => rfl)
      (.cons ?found .nil)) rfl fun _ => rfl
    case long => exact .call _ _ (.cons (.ident _ _) (.cons (.const _ _ _) .nil)) rfl fun _ => rfl
    case named => exact .call _ _ (.cons (.ident _ _) (.cons (.const _ _ _) .nil)) rfl fun _ => rfl
    case found =>
      exact .call _ _ (.cons (.ident _ _) (.cons (.const _ _ _) (.cons (.const _ _ _)
        (.cons (.const _ _ _) (.cons (.const _ _ _) .nil))))) rfl fun _ => rfl
  refine ⟨htypes, halike, _, _, rfl, rfl, ?_⟩
  obtain ⟨hpredicate, hkeys⟩ := predicate_alike htypes halike rfl rfl
  exact ⟨hpredicate, hkeys, rfl⟩

end RowForest.Filter
