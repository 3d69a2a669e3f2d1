import RowForest.Proofs.Value.Equality
import RowForest.Value.Feed

namespace RowForest.Value

variable {c : String} {v w : Value} {vs ws : List Value} {fs gs : List (String × Value)}

theorem fieldsWithin_cons_cons (hc : c ∉ fs.map Prod.fst) :
    fieldsWithin ((c, v) :: fs) ((c, w) :: gs) = true ↔ v.equal w = true ∧ fieldsWithin fs gs = true := by
  rw [fieldsWithin_iff, fieldsWithin_iff, List.forall_mem_cons]
  refine and_congr (by simp) (forall₂_congr fun f hf => ?_)
  have hne : f.1 ≠ c := by
    rintro rfl
    exact hc (List.mem_map_of_mem hf)
  rw [Fields.lookup_cons_of_ne hne]

mutual

/-- What equal values feed goes on alike only where the values are the same, the order of columns included. -/
theorem feed_append_inj : ∀ {v w : Value} {ps qs : List Piece}, v.Distinct → v.equal w = true →
    v.feed ++ ps = w.feed ++ qs → v = w ∧ ps = qs
  | array as, w, ps, qs, hv, h, hfeed => by
    cases w with
    | array bs =>
      obtain ⟨rfl, hrest⟩ := feedItems_append_inj hv h (List.cons.inj (List.cons.inj hfeed).2).2
      exact ⟨rfl, hrest⟩
    | _ => cases h
  | struct fs, w, ps, qs, hv, h, hfeed => by
    cases w with
    | struct gs =>
      rw [equal, Bool.and_eq_true, decide_eq_true_eq] at h
      obtain ⟨rfl, hrest⟩ := feedFields_append_inj hv.1 hv.2 h.1 h.2 (List.cons.inj hfeed).2
      exact ⟨rfl, hrest⟩
    | _ => cases h
  | null, w, _, _, _, h, hfeed | bool _, w, _, _, _, h, hfeed | int64 _, w, _, _, _, h, hfeed
  | float64 _, w, _, _, _, h, hfeed | string _, w, _, _, _, h, hfeed | bytes _, w, _, _, _, h, hfeed
  | date _, w, _, _, _, h, hfeed | timestamp _, w, _, _, _, h, hfeed | numeric _, w, _, _, _, h, hfeed
  | json _, w, _, _, _, h, hfeed => by
    obtain rfl := (equal_iff (.inl (by simp [Scalar, isNull, baseType?]))).1 h
    exact ⟨rfl, List.append_cancel_left hfeed⟩
termination_by structural v => v

theorem feedItems_append_inj : ∀ {as bs : List Value} {ps qs : List Piece}, ItemsDistinct as →
    equalItems as bs = true → feedItems as ++ ps = feedItems bs ++ qs → as = bs ∧ ps = qs
  | [], bs, _, _, _, h, hfeed => by
    cases bs with
    | nil => exact ⟨rfl, hfeed⟩
    | cons b bs => cases h
  | a :: as, bs, _, _, has, h, hfeed => by
    cases bs with
    | nil => cases h
    | cons b bs =>
      rw [equalItems, Bool.and_eq_true] at h
      rw [feedItems, feedItems, List.append_assoc, List.append_assoc] at hfeed
      obtain ⟨rfl, htail⟩ := feed_append_inj has.1 h.1 hfeed
      obtain ⟨rfl, hrest⟩ := feedItems_append_inj has.2 h.2 htail
      exact ⟨rfl, hrest⟩
termination_by structural as => as

theorem feedFields_append_inj : ∀ {fs gs : List (String × Value)} {ps qs : List Piece}, (fs.map Prod.fst).Nodup →
    FieldsDistinct fs → fs.length = gs.length → fieldsWithin fs gs = true →
      feedFields fs ++ ps = feedFields gs ++ qs → fs = gs ∧ ps = qs
  | [], gs, _, _, _, _, hlength, _, hfeed => by
    obtain rfl := List.length_eq_zero_iff.1 hlength.symm
    exact ⟨rfl, hfeed⟩
  | (c, v) :: fs, gs, _, _, hfs, hv, hlength, h, hfeed => by
    cases gs with
    | nil => cases hlength
    | cons g gs =>
      obtain ⟨d, w⟩ := g
      obtain ⟨hname, hpieces⟩ := List.cons.inj hfeed
      obtain rfl : c = d := Piece.text.inj hname
      obtain ⟨hequal, hwithin⟩ := (fieldsWithin_cons_cons (List.nodup_cons.1 hfs).1).1 h
      rw [List.append_eq, List.append_eq, List.append_assoc, List.append_assoc] at hpieces
      obtain ⟨rfl, htail⟩ := feed_append_inj hv.1 hequal hpieces
      obtain ⟨rfl, hrest⟩ := feedFields_append_inj hfs.tail hv.2 (Nat.succ.inj hlength) hwithin htail
      exact ⟨rfl, hrest⟩
termination_by structural fs => fs

end

theorem feed_eq_iff (hv : v.Distinct) (h : v.equal w = true) : v.feed = w.feed ↔ v = w :=
  ⟨fun hfeed => (feed_append_inj hv h (congrArg (· ++ []) hfeed)).1, congrArg feed⟩

theorem coincides_iff (hv : v.Distinct) : v.coincides w = true ↔ v = w := by
  rw [coincides, Bool.and_eq_true, decide_eq_true_eq]
  constructor
  · rintro ⟨hequal, hfeed⟩
    exact (feed_eq_iff hv hequal).1 hfeed
  · rintro rfl
    exact ⟨equal_self hv, rfl⟩

theorem any_coincides_iff (hv : v.Distinct) : ws.any v.coincides = true ↔ v ∈ ws := by
  simp only [List.any_eq_true, coincides_iff hv, exists_eq_right']

theorem foldl_distinct (hvs : ∀ v ∈ vs, v.Distinct) (hnodup : ws.Nodup) :
    (vs.foldl (fun seen v => if seen.any v.coincides then seen else seen ++ [v]) ws).Nodup ∧
      ∀ w, w ∈ vs.foldl (fun seen v => if seen.any v.coincides then seen else seen ++ [v]) ws ↔ w ∈ ws ∨ w ∈ vs := by
  induction vs generalizing ws with
  | nil => exact ⟨hnodup, by simp⟩
  | cons v vs ih =>
      rw [List.forall_mem_cons] at hvs
      rw [List.foldl_cons]
      by_cases hv : v ∈ ws
      · rw [if_pos ((any_coincides_iff hvs.1).2 hv)]
        obtain ⟨hout, hmem⟩ := ih hvs.2 hnodup
        refine ⟨hout, fun w => (hmem w).trans ?_⟩
        rw [List.mem_cons]
        refine or_congr_right' fun hw => ⟨.inr, fun h => h.resolve_left ?_⟩
        rintro rfl
        exact hw hv
      · rw [if_neg (mt (any_coincides_iff hvs.1).1 hv)]
        have hadded : (ws ++ [v]).Nodup := by
          rw [← List.concat_eq_append]
          exact hnodup.concat hv
        obtain ⟨hout, hmem⟩ := ih hvs.2 hadded
        refine ⟨hout, fun w => (hmem w).trans ?_⟩
        rw [List.mem_append, List.mem_singleton, List.mem_cons, or_assoc]

/-- Of equal values those feed the same that are the same, the order of columns included. So everything equal to a
value feeds the same as it exactly if no struct within it has more than one column, and a hash set, which holds
each value once, holds values that differ in the order of columns beside each other. -/
theorem feed_congr_iff (hv : v.Distinct) :
    (∀ w : Value, v.equal w = true → (v.feed = w.feed ↔ v = w)) ∧
      ((∀ w : Value, w.Distinct → v.equal w = true → v.feed = w.feed) ↔ v.Narrow) ∧
      ∀ vs : List Value, (∀ w ∈ vs, w.Distinct) → (distinct vs).Nodup ∧ ∀ w, w ∈ distinct vs ↔ w ∈ vs := by
  refine ⟨fun w => feed_eq_iff hv, ⟨fun h => ?_, fun h w hw hequal => ?_⟩, fun vs hvs => ?_⟩
  · have hfeed := h v.reversed (distinct_reversed hv) (equal_reversed hv)
    exact narrow_of_reversed hv ((feed_eq_iff hv (equal_reversed hv)).1 hfeed).symm
  · rw [eq_of_narrow h hequal]
  · obtain ⟨hnodup, hmem⟩ := @foldl_distinct vs [] hvs .nil
    exact ⟨hnodup, fun w => (hmem w).trans (by simp)⟩

namespace Sample

def row : Value := struct [("id", int64 1), ("tags", array [struct [("name", string "a")], null])]

def turned : Value := struct [("tags", array [struct [("name", string "a")], null]), ("id", int64 1)]

end Sample

theorem feed_congr_iff_sample : Sample.row.Distinct ∧ Sample.row.equal Sample.turned = true ∧
    Sample.row.feed ≠ Sample.turned.feed := by
  have hrow : Sample.row.Distinct := by
    simp [Sample.row, Distinct, FieldsDistinct, ItemsDistinct]
  have hequal : Sample.row.equal Sample.turned = true := by decide
  exact ⟨hrow, hequal, mt ((feed_congr_iff hrow).1 Sample.turned hequal).1 (by decide)⟩

/-- Two equal rows that differ in the order of their columns, both of which a hash set holds. -/
theorem feed_congr_permuted :
    let r := Row.ofFields [("a", int64 1), ("b", int64 2)]
    let s := Row.ofFields [("b", int64 2), ("a", int64 1)]
    r.equal s = true ∧ r.toValue.feed ≠ s.toValue.feed ∧
      distinct [r.toValue, s.toValue] = [r.toValue, s.toValue] := by
  decide

end RowForest.Value
