import RowForest.Row
import Mathlib.Data.List.Nodup

namespace RowForest

namespace Fields

variable {α κ : Type} [DecidableEq κ]

theorem put_of_not_mem {c : String} {a : α} {fs : List (String × α)} (h : c ∉ fs.map Prod.fst) :
    put c a fs = fs ++ [(c, a)] := by
  induction fs with
  | nil => rfl
  | cons f fs ih =>
      rw [List.map_cons, List.mem_cons, not_or] at h
      have hne : ¬f.1 = c := fun hc => h.1 hc.symm
      simp [put, hne, ih h.2]

theorem put_append_of_not_mem {c : String} {a b : α} {fs gs : List (String × α)}
    (h : c ∉ fs.map Prod.fst) : put c a (fs ++ (c, b) :: gs) = fs ++ (c, a) :: gs := by
  induction fs with
  | nil => simp [put]
  | cons f fs ih =>
      rw [List.map_cons, List.mem_cons, not_or] at h
      have hne : ¬f.1 = c := fun hc => h.1 hc.symm
      simp [put, hne, ih h.2]

theorem lookup_cons_of_ne {c d : κ} (h : d ≠ c) (a : α) (fs : List (κ × α)) :
    ((c, a) :: fs).lookup d = fs.lookup d := by
  have hb : (d == c) = false := by simpa using h
  simp [List.lookup_cons, hb]

theorem lookup_put (c d : String) (a : α) (fs : List (String × α)) :
    (put c a fs).lookup d = if d = c then some a else fs.lookup d := by
  induction fs with
  | nil =>
      by_cases h : d = c
      · simp [put, h]
      · simp [put, h, lookup_cons_of_ne h]
  | cons f fs ih =>
      obtain ⟨b, x⟩ := f
      by_cases hb : b = c
      · subst hb
        by_cases h : d = b
        · simp [put, h]
        · simp [put, h, lookup_cons_of_ne h]
      · by_cases h : d = b
        · subst h
          simp [put, hb]
        · simp [put, hb, lookup_cons_of_ne h, ih]

theorem lookup_eq_some {fs : List (κ × α)} (hfs : (fs.map Prod.fst).Nodup) {c : κ} {a : α} :
    fs.lookup c = some a ↔ (c, a) ∈ fs := by
  induction fs with
  | nil => simp
  | cons f fs ih =>
      obtain ⟨b, x⟩ := f
      rw [List.map_cons, List.nodup_cons] at hfs
      by_cases h : c = b
      · subst h
        have hnot : (c, a) ∉ fs := fun hm => hfs.1 (List.mem_map.2 ⟨_, hm, rfl⟩)
        simp [hnot, eq_comm]
      · simp [lookup_cons_of_ne h, h, ih hfs.2]

theorem lookup_eq_none {fs : List (κ × α)} {c : κ} :
    fs.lookup c = none ↔ c ∉ fs.map Prod.fst := by
  induction fs with
  | nil => simp
  | cons f fs ih =>
      obtain ⟨b, x⟩ := f
      by_cases h : c = b
      · simp [h]
      · rw [lookup_cons_of_ne h, ih, List.map_cons, List.mem_cons, not_or]
        exact ⟨fun hc => ⟨h, hc⟩, And.right⟩

end Fields

namespace Row

variable {r s : Row} {c d : String} {v : Value}

@[ext] theorem ext (h : r.fields = s.fields) : r = s := by
  cases r
  cases s
  simpa using h

theorem nodup_columns (r : Row) : r.columns.Nodup := r.distinct

theorem fields_set_of_not_mem (h : c ∉ r.columns) : (r.set c v).fields = r.fields ++ [(c, v)] :=
  Fields.put_of_not_mem h

theorem get?_set (r : Row) (c d : String) (v : Value) :
    (r.set c v).get? d = if d = c then some v else r.get? d :=
  Fields.lookup_put c d v r.fields

theorem get?_eq_some : r.get? c = some v ↔ (c, v) ∈ r.fields :=
  Fields.lookup_eq_some r.distinct

theorem get_of_mem (h : (c, v) ∈ r.fields) : r.get c = v := by
  rw [get, get?_eq_some.2 h]
  rfl

theorem get?_of_mem (h : c ∈ r.columns) : r.get? c = some (r.get c) := by
  obtain ⟨⟨_, v⟩, hf, rfl⟩ := List.mem_map.1 h
  rw [get_of_mem hf]
  exact get?_eq_some.2 hf

theorem mem_columns_of_get? (h : r.get? c = some v) : c ∈ r.columns :=
  List.mem_map.2 ⟨_, get?_eq_some.1 h, rfl⟩

/-- Setting fields one by one appends them, as long as no name comes twice. -/
theorem fields_foldl_set (fs : List (String × Value)) (r : Row)
    (h : ((r.fields ++ fs).map Prod.fst).Nodup) :
    (fs.foldl (fun r f => r.set f.1 f.2) r).fields = r.fields ++ fs := by
  induction fs generalizing r with
  | nil => simp
  | cons f fs ih =>
      have hfresh : f.1 ∉ r.columns := by
        rw [List.map_append, List.nodup_append] at h
        intro hf
        exact h.2.2 f.1 hf f.1 (by simp) rfl
      have hset := fields_set_of_not_mem (v := f.2) hfresh
      rw [List.foldl_cons, ih, hset, List.append_assoc, List.singleton_append]
      rw [hset, List.append_assoc, List.singleton_append]
      exact h

theorem fields_ofFields {fs : List (String × Value)} (h : (fs.map Prod.fst).Nodup) :
    (ofFields fs).fields = fs :=
  fields_foldl_set fs empty (by simpa [empty] using h)

theorem get?_foldl_set (fs : List (String × Value)) (h : (fs.map Prod.fst).Nodup) (r : Row) (c : String) :
    (fs.foldl (fun r f => r.set f.1 f.2) r).get? c = (fs.lookup c).or (r.get? c) := by
  induction fs generalizing r with
  | nil => rfl
  | cons f fs ih =>
      obtain ⟨d, v⟩ := f
      rw [List.map_cons, List.nodup_cons] at h
      rw [List.foldl_cons, ih h.2, get?_set]
      by_cases hc : c = d
      · subst hc
        have habsent := Fields.lookup_eq_none.2 h.1
        simp [habsent]
      · rw [if_neg hc, Fields.lookup_cons_of_ne hc]

theorem columns_foldl_set (fs : List (String × Value)) (h : (fs.map Prod.fst).Nodup) (r : Row) :
    (fs.foldl (fun r f => r.set f.1 f.2) r).columns =
      r.columns ++ (fs.map Prod.fst).filter (fun c => c ∉ r.columns) := by
  induction fs generalizing r with
  | nil => simp
  | cons f fs ih =>
      rw [List.map_cons, List.nodup_cons] at h
      have hset : (r.set f.1 f.2).columns = if f.1 ∈ r.columns then r.columns else r.columns ++ [f.1] :=
        Fields.names_put f.1 f.2 r.fields
      rw [List.foldl_cons, ih h.2, hset, List.map_cons]
      by_cases hf : f.1 ∈ r.columns
      · simp [hf]
      · have hrest : (fs.map Prod.fst).filter (fun c => c ∉ r.columns ++ [f.1]) =
            (fs.map Prod.fst).filter (fun c => c ∉ r.columns) := by
          refine List.filter_congr fun c hc => ?_
          have hne : c ≠ f.1 := fun hcf => h.1 (hcf ▸ hc)
          simp [hne]
        simp only [hf, not_false_eq_true, decide_true, List.filter_cons_of_pos, hrest, if_false]
        rw [List.append_assoc, List.singleton_append]

theorem get?_merge (r s : Row) (c : String) : (r.merge s).get? c = (s.get? c).or (r.get? c) :=
  get?_foldl_set s.fields s.distinct r c

theorem mem_columns_merge : c ∈ (r.merge s).columns ↔ c ∈ r.columns ∨ c ∈ s.columns := by
  rw [merge, columns_foldl_set s.fields s.distinct, List.mem_append, List.mem_filter, columns, columns]
  by_cases hc : c ∈ r.fields.map Prod.fst <;> simp [hc]

theorem fields_eq_map (r : Row) : r.fields = r.columns.map (fun c => (c, r.get c)) := by
  have hself : ∀ f ∈ r.fields, (f.1, r.get f.1) = f := fun f hf => by rw [get_of_mem hf]
  rw [columns, List.map_map]
  exact ((List.map_congr_left hself).trans (List.map_id _)).symm

theorem fields_project {cs : List String} (h : cs.Nodup) (r : Row) :
    (r.project cs).fields = cs.map (fun c => (c, r.get c)) := by
  apply fields_ofFields
  simpa [Function.comp_def] using h

theorem get_project {cs : List String} (h : cs.Nodup) (r : Row) (hc : c ∈ cs) :
    (r.project cs).get c = r.get c := by
  refine get_of_mem ?_
  rw [fields_project h]
  exact List.mem_map.2 ⟨c, hc, rfl⟩

theorem project_congr {cs : List String} (h : ∀ c ∈ cs, r.get c = s.get c) : r.project cs = s.project cs := by
  rw [project, project, List.map_congr_left (fun c hc => by rw [h c hc])]

theorem project_columns (r : Row) : r.project r.columns = r := by
  apply ext
  rw [fields_project r.nodup_columns, ← fields_eq_map]

end Row

end RowForest
