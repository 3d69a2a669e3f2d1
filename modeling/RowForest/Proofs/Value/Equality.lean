import RowForest.Proofs.KeyFormat
import RowForest.Proofs.RowFormat

namespace RowForest.Value

variable {v w : Value} {vs ws : List Value} {fs gs : List (String × Value)}

theorem equal_iff {v w : Value} (h : v.Scalar ∨ w.Scalar) : v.equal w = true ↔ v = w := by
  cases v <;> cases w <;> simp [equal] at h ⊢

theorem equalItems_iff {vs ws : List Value}
    (h : (∀ v ∈ vs, v.Scalar) ∨ ∀ w ∈ ws, w.Scalar) : equalItems vs ws = true ↔ vs = ws := by
  induction vs generalizing ws with
  | nil => cases ws <;> simp [equalItems]
  | cons v vs ih =>
      cases ws with
      | nil => simp [equalItems]
      | cons w ws =>
          simp only [List.forall_mem_cons] at h
          rw [equalItems, Bool.and_eq_true, equal_iff (h.imp And.left And.left),
            ih (h.imp And.right And.right), List.cons_eq_cons]

theorem fieldsWithin_iff : fieldsWithin fs gs = true ↔
    ∀ f ∈ fs, ∃ w, gs.lookup f.1 = some w ∧ f.2.equal w = true := by
  induction fs with
  | nil => simp [fieldsWithin]
  | cons f fs ih =>
      rw [fieldsWithin, Bool.and_eq_true, Option.any_eq_true, ih, List.forall_mem_cons]

theorem fieldsDistinct_iff : FieldsDistinct fs ↔ ∀ f ∈ fs, f.2.Distinct := by
  induction fs with
  | nil => simp [FieldsDistinct]
  | cons f fs ih => rw [FieldsDistinct, ih, List.forall_mem_cons]

mutual

theorem equal_self : ∀ {v : Value}, v.Distinct → v.equal v = true
  | array as, h => by
    rw [equal]
    exact equalItems_self h
  | struct fs, h => by
    rw [equal, Bool.and_eq_true, decide_eq_true_eq, fieldsWithin_iff]
    exact ⟨rfl, fun f hf => ⟨f.2, (Fields.lookup_eq_some h.1).2 hf, equalFields_self h.2 f hf⟩⟩
  | null, _ | bool _, _ | int64 _, _ | float64 _, _ | string _, _ | bytes _, _ | date _, _ | timestamp _, _
  | numeric _, _ | json _, _ => by simp [equal]
termination_by structural v => v

theorem equalItems_self : ∀ {as : List Value}, ItemsDistinct as → equalItems as as = true
  | [], _ => rfl
  | a :: as, h => by rw [equalItems, equal_self h.1, equalItems_self h.2, Bool.and_self]
termination_by structural as => as

theorem equalFields_self : ∀ {fs : List (String × Value)}, FieldsDistinct fs → ∀ f ∈ fs, f.2.equal f.2 = true
  | [], _ => by simp
  | _ :: _, h => List.forall_mem_cons.2 ⟨equal_self h.1, equalFields_self h.2⟩
termination_by structural fs => fs

end

mutual

def reversed : Value → Value
  | array items => array (reversedItems items)
  | struct fields => struct (reversedFields fields).reverse
  | v => v
termination_by structural x => x

def reversedItems : List Value → List Value
  | [] => []
  | v :: vs => v.reversed :: reversedItems vs
termination_by structural x => x

def reversedFields : List (String × Value) → List (String × Value)
  | [] => []
  | (c, v) :: fs => (c, v.reversed) :: reversedFields fs
termination_by structural x => x

end

mutual

/-- Whether no struct within a value has more than one column. -/
def Narrow : Value → Prop
  | array items => ItemsNarrow items
  | struct fields => fields.length ≤ 1 ∧ FieldsNarrow fields
  | _ => True
termination_by structural x => x

def ItemsNarrow : List Value → Prop
  | [] => True
  | v :: vs => v.Narrow ∧ ItemsNarrow vs
termination_by structural x => x

def FieldsNarrow : List (String × Value) → Prop
  | [] => True
  | (_, v) :: fs => v.Narrow ∧ FieldsNarrow fs
termination_by structural x => x

end

theorem reversedFields_eq_map (fs : List (String × Value)) :
    reversedFields fs = fs.map fun f => (f.1, f.2.reversed) := by
  induction fs with
  | nil => rfl
  | cons f fs ih => rw [reversedFields, ih, List.map_cons]

theorem names_reversedFields (fs : List (String × Value)) :
    (reversedFields fs).map Prod.fst = fs.map Prod.fst := by
  rw [reversedFields_eq_map, List.map_map]
  rfl

mutual

theorem distinct_reversed : ∀ {v : Value}, v.Distinct → v.reversed.Distinct
  | array as, h => itemsDistinct_reversed h
  | struct fs, h => by
    refine ⟨?_, ?_⟩
    · rw [List.map_reverse, List.nodup_reverse, names_reversedFields]
      exact h.1
    · have hfields := fieldsDistinct_reversed h.2
      rw [fieldsDistinct_iff] at hfields ⊢
      exact fun f hf => hfields f (List.mem_reverse.1 hf)
  | null, h | bool _, h | int64 _, h | float64 _, h | string _, h | bytes _, h | date _, h | timestamp _, h
  | numeric _, h | json _, h => h
termination_by structural v => v

theorem itemsDistinct_reversed : ∀ {as : List Value}, ItemsDistinct as → ItemsDistinct (reversedItems as)
  | [], _ => trivial
  | _ :: _, h => ⟨distinct_reversed h.1, itemsDistinct_reversed h.2⟩
termination_by structural as => as

theorem fieldsDistinct_reversed : ∀ {fs : List (String × Value)}, FieldsDistinct fs → FieldsDistinct (reversedFields fs)
  | [], _ => trivial
  | _ :: _, h => ⟨distinct_reversed h.1, fieldsDistinct_reversed h.2⟩
termination_by structural fs => fs

end

mutual

theorem equal_reversed : ∀ {v : Value}, v.Distinct → v.equal v.reversed = true
  | array as, h => by
    rw [reversed, equal]
    exact equalItems_reversed h
  | struct fs, h => by
    have hnodup : ((reversedFields fs).reverse.map Prod.fst).Nodup := by
      rw [List.map_reverse, List.nodup_reverse, names_reversedFields]
      exact h.1
    rw [reversed, equal, Bool.and_eq_true, decide_eq_true_eq, fieldsWithin_iff]
    refine ⟨by rw [List.length_reverse, reversedFields_eq_map, List.length_map], fun f hf => ?_⟩
    refine ⟨f.2.reversed, (Fields.lookup_eq_some hnodup).2 ?_, equalFields_reversed h.2 f hf⟩
    rw [List.mem_reverse, reversedFields_eq_map]
    exact List.mem_map.2 ⟨f, hf, rfl⟩
  | null, _ | bool _, _ | int64 _, _ | float64 _, _ | string _, _ | bytes _, _ | date _, _ | timestamp _, _
  | numeric _, _ | json _, _ => by simp [reversed, equal]
termination_by structural v => v

theorem equalItems_reversed : ∀ {as : List Value}, ItemsDistinct as → equalItems as (reversedItems as) = true
  | [], _ => rfl
  | a :: as, h => by rw [reversedItems, equalItems, equal_reversed h.1, equalItems_reversed h.2, Bool.and_self]
termination_by structural as => as

theorem equalFields_reversed : ∀ {fs : List (String × Value)}, FieldsDistinct fs →
    ∀ f ∈ fs, f.2.equal f.2.reversed = true
  | [], _ => by simp
  | _ :: _, h => List.forall_mem_cons.2 ⟨equal_reversed h.1, equalFields_reversed h.2⟩
termination_by structural fs => fs

end

theorem length_le_one_of_reverse {α : Type} {as : List α} (has : as.Nodup) (h : as.reverse = as) : as.length ≤ 1 := by
  match as with
  | [] | [_] => simp
  | a :: b :: as =>
    have hlast := congrArg List.head? h
    rw [List.head?_reverse, List.getLast?_cons_cons, List.head?_cons] at hlast
    exact absurd (List.mem_of_getLast? hlast) (List.nodup_cons.1 has).1

theorem reverse_of_length_le_one {α : Type} {as : List α} (h : as.length ≤ 1) : as.reverse = as := by
  match as with
  | [] | [_] => rfl

mutual

theorem narrow_of_reversed : ∀ {v : Value}, v.Distinct → v.reversed = v → v.Narrow
  | array as, h, heq => itemsNarrow_of_reversed h (Value.array.inj heq)
  | struct fs, h, heq => by
    have hfields : (reversedFields fs).reverse = fs := Value.struct.inj heq
    have hnames := congrArg (List.map Prod.fst) hfields
    rw [List.map_reverse, names_reversedFields] at hnames
    have hshort := length_le_one_of_reverse h.1 hnames
    rw [List.length_map] at hshort
    refine ⟨hshort, fieldsNarrow_of_reversed h.2 ?_⟩
    rwa [reverse_of_length_le_one (by rwa [reversedFields_eq_map, List.length_map])] at hfields
  | null, _, _ | bool _, _, _ | int64 _, _, _ | float64 _, _, _ | string _, _, _ | bytes _, _, _ | date _, _, _
  | timestamp _, _, _ | numeric _, _, _ | json _, _, _ => trivial
termination_by structural v => v

theorem itemsNarrow_of_reversed : ∀ {as : List Value}, ItemsDistinct as → reversedItems as = as → ItemsNarrow as
  | [], _, _ => trivial
  | _ :: _, h, heq => ⟨narrow_of_reversed h.1 (List.cons.inj heq).1, itemsNarrow_of_reversed h.2 (List.cons.inj heq).2⟩
termination_by structural as => as

theorem fieldsNarrow_of_reversed : ∀ {fs : List (String × Value)}, FieldsDistinct fs → reversedFields fs = fs →
    FieldsNarrow fs
  | [], _, _ => trivial
  | _ :: _, h, heq =>
    ⟨narrow_of_reversed h.1 (congrArg Prod.snd (List.cons.inj heq).1),
      fieldsNarrow_of_reversed h.2 (List.cons.inj heq).2⟩
termination_by structural fs => fs

end

mutual

theorem eq_of_narrow : ∀ {v w : Value}, v.Narrow → v.equal w = true → v = w
  | array as, w, hv, h => by
    cases w with
    | array bs => rw [eqItems_of_narrow hv h]
    | _ => cases h
  | struct fs, w, hv, h => by
    cases w with
    | struct gs =>
      rw [equal, Bool.and_eq_true, decide_eq_true_eq] at h
      rw [eqFields_of_narrow hv.1 hv.2 h.1 h.2]
    | _ => cases h
  | null, w, _, h | bool _, w, _, h | int64 _, w, _, h | float64 _, w, _, h
  | string _, w, _, h | bytes _, w, _, h | date _, w, _, h | timestamp _, w, _, h
  | numeric _, w, _, h | json _, w, _, h => (equal_iff (.inl (by simp [Scalar, isNull, baseType?]))).1 h
termination_by structural v => v

theorem eqItems_of_narrow : ∀ {as bs : List Value}, ItemsNarrow as → equalItems as bs = true → as = bs
  | [], bs, _, h => by
    cases bs with
    | nil => rfl
    | cons b bs => cases h
  | a :: as, bs, has, h => by
    cases bs with
    | nil => cases h
    | cons b bs =>
      rw [equalItems, Bool.and_eq_true] at h
      rw [eq_of_narrow has.1 h.1, eqItems_of_narrow has.2 h.2]
termination_by structural as => as

theorem eqFields_of_narrow : ∀ {fs gs : List (String × Value)}, fs.length ≤ 1 → FieldsNarrow fs →
    fs.length = gs.length → fieldsWithin fs gs = true → fs = gs
  | [], gs, _, _, hlength, _ => (List.length_eq_zero_iff.1 hlength.symm).symm
  | (c, v) :: fs, gs, hone, hv, hlength, h => by
    obtain rfl : fs = [] := List.length_eq_zero_iff.1 (Nat.le_zero.1 (Nat.le_of_succ_le_succ hone))
    obtain ⟨⟨d, w⟩, rfl⟩ := List.length_eq_one_iff.1 hlength.symm
    rw [fieldsWithin_iff, List.forall_mem_singleton] at h
    obtain ⟨x, hx, hequal⟩ := h
    by_cases hname : c = d
    · subst hname
      rw [List.lookup_cons_self, Option.some.injEq] at hx
      rw [eq_of_narrow hv.1 (hx ▸ hequal)]
    · rw [Fields.lookup_cons_of_ne hname] at hx
      cases hx
termination_by structural fs => fs

end

end RowForest.Value
