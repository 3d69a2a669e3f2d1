import RowForest.Proofs.Eval.Like
import RowForest.Proofs.Filter.Predicate
import RowForest.Proofs.Row

namespace RowForest.Filter

open Eval

/-- Whether a predicate is true of the texts in a column that have a property, and false of all others. -/
def BoundPredicate.Decides (bound : BoundPredicate) (column : String) (p : List Char → Prop) : Prop :=
  ∀ (frames : List (String × Row)) (v : String), Scope.column ⟨.empty, frames⟩ column = .ok (.string v) →
    ∃ b, eval ⟨bound.params.getD .empty, frames⟩ bound.predicate = .ok (.bool b) ∧ (b = true ↔ p v.toList)

def equation (id i j : Int) (column text : String) : Node :=
  .call id "=" [.ident i column, .const j (.string text)]

section

variable {cx : Context} {types : Types} {options : Options} {id i j : Int} {column text : String}
  {bound : BoundPredicate} {p q : List Char → Prop} {cs s : List Char}

theorem BoundPredicate.Decides.iff (h : bound.Decides column p) :
    bound.Decides column q ↔ ∀ v, p v ↔ q v := by
  constructor
  · intro hq v
    have hcolumn : Scope.column ⟨.empty, [("", Row.empty.set column (.string (.ofList v)))]⟩ column =
        .ok (.string (.ofList v)) := by
      simp [Scope.column, Row.get?_set]
    obtain ⟨b, heval, hb⟩ := h _ _ hcolumn
    obtain ⟨b', heval', hb'⟩ := hq _ _ hcolumn
    rw [heval, Except.ok.injEq, Value.bool.injEq] at heval'
    rw [String.toList_ofList] at hb hb'
    rw [← hb, heval', hb']
  · intro hpq frames v hcolumn
    obtain ⟨b, heval, hb⟩ := h frames v hcolumn
    exact ⟨b, heval, hb.trans (hpq _)⟩

theorem stripFirst_eq_append {b : List Char} :
    (∃ a, stripFirst cs = a ++ '*' :: b) ↔ ∃ a, a ≠ [] ∧ cs = a ++ '*' :: b := by
  cases cs with
  | nil => simp [stripFirst]
  | cons c cs =>
      by_cases hc : c = '*'
      · rw [stripFirst, if_pos hc]
        constructor
        · rintro ⟨a, rfl⟩
          exact ⟨c :: a, List.cons_ne_nil c a, rfl⟩
        · rintro ⟨_ | ⟨d, a⟩, ha, heq⟩
          · exact absurd rfl ha
          · exact ⟨a, (List.cons.inj heq).2⟩
      · rw [stripFirst, if_neg hc]
        constructor
        · rintro ⟨a, heq⟩
          refine ⟨a, ?_, heq⟩
          rintro rfl
          exact hc (List.cons.inj heq).1
        · rintro ⟨a, -, heq⟩
          exact ⟨a, heq⟩

theorem mem_stripWildcards : '*' ∈ stripWildcards cs ↔ ∃ a b, a ≠ [] ∧ b ≠ [] ∧ cs = a ++ '*' :: b := by
  rw [stripWildcards, List.mem_reverse, List.mem_iff_append]
  constructor
  · rintro ⟨d, e, h⟩
    obtain ⟨b, hb, hreverse⟩ := stripFirst_eq_append.1 ⟨d, h⟩
    rw [List.reverse_eq_iff, List.reverse_append, List.reverse_cons, List.append_assoc] at hreverse
    obtain ⟨a, ha, rfl⟩ := stripFirst_eq_append.1 ⟨_, hreverse⟩
    exact ⟨a, b.reverse, ha, by simpa using hb, rfl⟩
  · rintro ⟨a, b, ha, hb, rfl⟩
    obtain ⟨d, hd⟩ := stripFirst_eq_append.2 ⟨a, ha, rfl⟩
    obtain ⟨e, he⟩ := stripFirst_eq_append.2 ⟨b.reverse, by simpa using hb, rfl⟩
    exact ⟨e, d.reverse, by rw [hd, List.reverse_append, List.reverse_cons, List.append_assoc]; exact he⟩

theorem exprOf_equation (hstar : hasWildcard text = true) :
    exprOf cx (equation id i j column text) [] =
      if '*' ∈ stripWildcards text.toList then .error (.wildcard "=")
      else .ok (.paren (.compare .like (.column column) (.param (paramName 0))),
        [.string (likePattern text)]) := by
  have hname : Function.ofName? "=" = some (.compare .eq) := rfl
  rw [equation, exprOf.eq_def]
  simp only [hname, wildcardMatch, hstar, substring, if_true]
  split <;> rfl

theorem eval_like {ps : Params} {frames : List (String × Row)} {name v pattern : String}
    (hname : ps.find? name = some (.string pattern))
    (hcolumn : Scope.column ⟨.empty, frames⟩ column = .ok (.string v)) :
    eval ⟨ps, frames⟩ (.paren (.compare .like (.column column) (.param name))) =
      .ok (.bool (like pattern.toList v.toList)) := by
  have hleft : eval ⟨ps, frames⟩ (.column column) = .ok (.string v) := hcolumn
  have hright : eval ⟨ps, frames⟩ (.param name) = .ok (.string pattern) := by
    rw [eval, Scope.param, hname]
  rw [eval, eval, hleft, hright]
  rfl

theorem predicate_equation (hstar : hasWildcard text = true)
    (h : predicate (some ⟨equation id i j column text, types⟩) options = .ok bound) :
    bound.Decides column (Matches (tokens (likePattern text).toList)) := by
  simp only [predicate, exprOf_equation hstar] at h
  split at h
  · cases h
  · rw [Except.ok_bind] at h
    dsimp only at h
    split at h
    · cases h
      refine fun frames v hcolumn => ⟨_, eval_like ?_ hcolumn, like_iff⟩
      exact binds_ofList [.string (likePattern text)] 0 _ rfl
    · cases h

theorem predicate_equation_error (hstar : hasWildcard text = true) :
    predicate (some ⟨equation id i j column text, types⟩) options = .error (.wildcard "=") ↔
      '*' ∈ stripWildcards text.toList := by
  simp only [predicate, exprOf_equation hstar]
  split
  · next hmem => exact iff_of_true rfl hmem
  · next hnone =>
    refine iff_of_false (fun h => ?_) hnone
    rw [Except.ok_bind] at h
    dsimp only at h
    split at h <;> cases h

theorem map_star (h : '*' ∉ s) : s.map (fun c => if c = '*' then '%' else c) = s := by
  have hself : ∀ c ∈ s, (if c = '*' then '%' else c) = c := by
    intro c hc
    exact if_neg fun (heq : c = '*') => h (heq ▸ hc)
  rw [List.map_congr_left hself, List.map_id']

/-- An equation with a text that begins or ends with a star is refused exactly if there is a star at
neither end. If it has a predicate, that one takes the text as a pattern, with its stars for any text.
So it finds the texts that contain the text between the stars, end with the text after a star or begin
with the text before one, exactly if no other character of it has a meaning in patterns. -/
theorem eval_equation (types : Types) (options : Options) (id i j : Int) (column : String)
    (hstar : hasWildcard text = true) :
    (predicate (some ⟨equation id i j column text, types⟩) options = .error (.wildcard "=") ↔
      ∃ a b, a ≠ [] ∧ b ≠ [] ∧ text.toList = a ++ '*' :: b) ∧
    ∀ bound, predicate (some ⟨equation id i j column text, types⟩) options = .ok bound →
      bound.Decides column (Matches (tokens (likePattern text).toList)) ∧
      ∀ s, '*' ∉ s →
        (text.toList = '*' :: (s ++ ['*']) →
          (bound.Decides column (s <:+: ·) ↔ '%' ∉ s ∧ '_' ∉ s ∧ '\\' ∉ s)) ∧
        (text.toList = '*' :: s →
          (bound.Decides column (s <:+ ·) ↔ '%' ∉ s ∧ '_' ∉ s ∧ '\\' ∉ s.dropLast)) ∧
        (text.toList = s ++ ['*'] →
          (bound.Decides column (s <+: ·) ↔ '%' ∉ s ∧ '_' ∉ s ∧ '\\' ∉ s)) := by
  refine ⟨(predicate_equation_error hstar).trans mem_stripWildcards, fun bound hbound => ?_⟩
  have hdecides := predicate_equation hstar hbound
  have hpattern : (likePattern text).toList = text.toList.map (fun c => if c = '*' then '%' else c) :=
    String.toList_ofList
  refine ⟨hdecides, fun s hs => ⟨fun htext => ?_, fun htext => ?_, fun htext => ?_⟩⟩
  · have hwhole : (likePattern text).toList = '%' :: (s ++ ['%']) := by
      simp [hpattern, htext, map_star hs]
    rw [hdecides.iff, hwhole, contains_iff]
  · have hwhole : (likePattern text).toList = '%' :: s := by
      simp [hpattern, htext, map_star hs]
    rw [hdecides.iff, hwhole, ends_iff]
  · have hwhole : (likePattern text).toList = s ++ ['%'] := by
      simp [hpattern, htext, map_star hs]
    rw [hdecides.iff, hwhole, starts_iff]

end

namespace Title

def types : Types := .ofList [(1, .string), (2, .string), (3, .bool)]

def checked (text : String) : Checked := ⟨equation 3 1 2 "title" text, types⟩

def row (title : String) : Row := .ofFields [("title", .string title)]

end Title

theorem eval_equation_sample : hasWildcard "*Boye*" = true ∧
    ∃ bound, predicate (some (Title.checked "*Boye*")) ⟨false, none⟩ = .ok bound ∧
      bound.Decides "title" ("Boye".toList <:+: ·) := by
  have hstar : hasWildcard "*Boye*" = true := by decide
  obtain ⟨bound, hbound⟩ : ∃ bound, predicate (some (Title.checked "*Boye*")) ⟨false, none⟩ = .ok bound :=
    ⟨_, rfl⟩
  have hdecides := (eval_equation Title.types ⟨false, none⟩ 3 1 2 "title" hstar).2 bound hbound
  exact ⟨hstar, bound, hbound, ((hdecides.2 "Boye".toList (by decide)).1 (by decide)).2 (by decide)⟩

/-- A percent sign in a text that is looked for is found in texts that have none. -/
theorem eval_equation_percent : ∃ bound,
    predicate (some (Title.checked "*50%*")) ⟨false, none⟩ = .ok bound ∧
      eval ⟨bound.params.getD .empty, [("Album", Title.row "501")]⟩ bound.predicate = .ok (.bool true) ∧
      ¬"50%".toList <:+: "501".toList :=
  ⟨_, rfl, rfl, by decide⟩

end RowForest.Filter
