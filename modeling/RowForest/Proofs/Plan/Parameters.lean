import RowForest.Proofs.Key.Predicate

namespace RowForest

namespace Key

variable {label : String} {k : Key} {t : Table} {ps ps' : Params}

theorem parameterName_starts (label : String) (i : Nat) : label.toList <+: (parameterName label i).toList := by
  rw [parameterName, String.append_assoc, String.toList_append]
  exact List.prefix_append _ _

theorem parameterName_injective {i i' j j' : Nat}
    (h : parameterName (parameterName label i) j = parameterName (parameterName label i') j') :
    i = i' ∧ j = j' := by
  simp only [parameterName, String.append_assoc, String.append_right_inj] at h
  have hchars := congrArg String.toList h
  rw [String.toList_append, String.toList_append, String.toList_append, String.toList_append,
    show "_".toList = ['_'] from rfl, List.singleton_append, List.singleton_append,
    List.append_cons_inj_of_notMem (by simp) (by simp)] at hchars
  obtain ⟨hi, -, hj⟩ := hchars
  exact ⟨Nat.repr_inj.1 (String.toList_inj.1 hi), Nat.repr_inj.1 (String.toList_inj.1 hj)⟩

theorem mem_bindings {i : Nat} {parts : List (String × Value)} {b : String × Value} :
    b ∈ bindings label i parts ↔ ∃ part ∈ parts.zipIdx i, part.1.2.isNull = false ∧
      b = (parameterName label part.2, part.1.2) := by
  induction parts generalizing i with
  | nil => simp [bindings]
  | cons part parts ih =>
      rw [bindings, List.zipIdx_cons, List.exists_mem_cons_iff, ← ih]
      cases part.2.isNull <;> simp

theorem Bound.congr {i : Nat} (h : k.Bound t (parameterName label i) ps)
    (hsame : ∀ name, label.toList <+: name.toList → ps'.find? name = ps.find? name) :
    k.Bound t (parameterName label i) ps' := by
  intro part hpart hnull
  have hstarts := (parameterName_starts label i).trans (parameterName_starts _ part.2)
  rw [hsame _ hstarts, h part hpart hnull]

end Key

namespace Transaction

variable {label : String} {t : Table} {ks : List Key}

theorem keyPredicates_eq (i : Nat) : keyPredicates label t i ks =
    (ks.zipIdx i).map (fun e => e.1.predicate t (Key.parameterName label e.2)) := by
  induction ks generalizing i with
  | nil => rfl
  | cons k ks ih => rw [keyPredicates, ih, List.zipIdx_cons, List.map_cons]

theorem keyBindings_eq (i : Nat) (ps : Params) : keyBindings label t i ks ps =
    ps.insertAll ((ks.zipIdx i).flatMap (fun e =>
      Key.bindings (Key.parameterName label e.2) 0 (t.keyColumns.zip e.1.values))) := by
  induction ks generalizing i ps with
  | nil => rfl
  | cons k ks ih =>
      rw [keyBindings, ih, List.zipIdx_cons, List.flatMap_cons, Key.bind]
      exact (List.foldl_append ..).symm

theorem zipIdx_unique {α : Type} {as : List α} {a b : α} {i : Nat} (ha : (a, i) ∈ as.zipIdx)
    (hb : (b, i) ∈ as.zipIdx) : a = b := by
  rw [List.mem_zipIdx_iff_getElem?] at ha hb
  exact Option.some.inj (ha.symm.trans hb)

/-- The parameters of several keys do not get in each other's way. -/
theorem bound_keyBindings {k : Key} {i : Nat} (hk : (k, i) ∈ ks.zipIdx) :
    k.Bound t (Key.parameterName label i) (keyBindings label t 0 ks .empty) := by
  intro part hpart hnull
  rw [keyBindings_eq]
  refine SortedMap.find?_insertAll_of_mem (List.mem_flatMap.2 ⟨_, hk, ?_⟩) fun w hw => ?_
  · exact Key.mem_bindings.2 ⟨part, hpart, hnull, rfl⟩
  · obtain ⟨⟨l, j⟩, hl, hw⟩ := List.mem_flatMap.1 hw
    obtain ⟨part', hpart', -, hsame⟩ := Key.mem_bindings.1 hw
    obtain ⟨hname, rfl⟩ := Prod.mk.inj hsame
    obtain ⟨rfl, hposition⟩ := Key.parameterName_injective hname
    obtain rfl := zipIdx_unique hk hl
    obtain ⟨value, position⟩ := part
    obtain ⟨value', position'⟩ := part'
    obtain rfl : position = position' := hposition
    rw [zipIdx_unique hpart hpart']

end Transaction

namespace ReadSettings

structure NamesApart (s : ReadSettings) : Prop where
  limit_ne_offset : s.limitParam ≠ s.offsetParam
  limit_free : ¬s.keyParamLabel.toList <+: s.limitParam.toList
  offset_free : ¬s.keyParamLabel.toList <+: s.offsetParam.toList

theorem namesApart_default : NamesApart {} := ⟨by decide, by decide, by decide⟩

variable {s : ReadSettings} {q : Listing} {ps : Params}

theorem find?_of_statementParams (h : s.statementParams q = .ok ps) (name : String) :
    ps.find? name = if q.isPaged = true ∧ name = s.offsetParam then some (.int64 q.offset)
      else if q.isPaged = true ∧ name = s.limitParam then some (.int64 (q.limit.getD Int64.maxValue))
      else (q.params.insertAll q.keyParams.toList).find? name := by
  unfold statementParams at h
  split at h
  · cases h
  · cases h
    cases q.isPaged with
    | false => simp
    | true => simp only [if_true, SortedMap.find?_insert, true_and]

theorem find?_of_starts (hs : s.NamesApart) (h : s.statementParams q = .ok ps) {name : String}
    (hname : s.keyParamLabel.toList <+: name.toList) :
    ps.find? name = (q.params.insertAll q.keyParams.toList).find? name := by
  have hoffset : name ≠ s.offsetParam := fun heq => hs.offset_free (heq ▸ hname)
  have hlimit : name ≠ s.limitParam := fun heq => hs.limit_free (heq ▸ hname)
  rw [find?_of_statementParams h, if_neg (fun h => hoffset h.2), if_neg (fun h => hlimit h.2)]

theorem isReserved_iff {name : String} : s.isReserved name = true ↔
    name = s.limitParam ∨ name = s.offsetParam ∨ s.keyParamLabel.toList <+: name.toList := by
  rw [isReserved, Bool.or_eq_true, Bool.or_eq_true, decide_eq_true_eq, decide_eq_true_eq,
    List.isPrefixOf_iff_prefix, or_assoc]

theorem isReserved_of_statementParams (h : s.statementParams q = .ok ps) :
    ∀ name ∈ q.params.keys, s.isReserved name = false := by
  unfold statementParams at h
  split at h
  · cases h
  · next hnone => simpa using hnone

theorem exists_statementParams (h : ∀ name ∈ q.params.keys, s.isReserved name = false) :
    ∃ ps, s.statementParams q = .ok ps := by
  have hnone : q.params.keys.find? s.isReserved = none :=
    List.find?_eq_none.2 fun name hname => by simp [h name hname]
  rw [statementParams, hnone]
  exact ⟨_, rfl⟩

end ReadSettings

end RowForest
