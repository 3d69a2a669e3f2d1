import RowForest.Proofs.Eval.Rows
import RowForest.Proofs.Key.ByteOrder

namespace RowForest

namespace Value

def isNaN : Value → Bool
  | float64 x => x.isNaN
  | _ => false

/-- One value for all that the order does not tell apart: there is one zero, and documents
have no order at all. -/
def canonical : Value → Value
  | float64 x => float64 (if x.isZero then ⟨0⟩ else x)
  | json _ => json ""
  | v => v

structure Comparable (v w : Value) : Prop where
  left : v.Scalar ∧ v.isNaN = false
  right : w.Scalar ∧ w.isNaN = false
  alike : v.isNull = true ∨ w.isNull = true ∨ v.baseType? = w.baseType?

structure Regular (v : Value) : Prop where
  number : v.isNaN = false
  canonical : v.canonical = v
  ordered : v.baseType? ≠ some .json

end Value

namespace KeyFormat

/-- From zero down to the first number below it, keys go one step and so do ranks. -/
theorem floatKey_canonical (x : Binary64) : (floatKey (if x.isZero then ⟨0⟩ else x) : Int) =
    if 0 ≤ x.rank then 2 ^ 63 + x.rank else 2 ^ 63 - 1 + x.rank := by
  have hbits := x.bits.toNat_lt
  unfold Binary64.isZero Binary64.rank Binary64.negative Binary64.magnitude
  by_cases hzero : x.bits.toNat % 2 ^ 63 = 0
  · have hkey : floatKey ⟨0⟩ = 2 ^ 63 := rfl
    simp only [hzero, decide_true, if_true, hkey]
    split_ifs <;> omega
  · simp only [hzero, decide_false, Bool.false_eq_true, if_false, decide_eq_true_eq, floatKey]
    split_ifs <;> omega

theorem compare_floatKey (x y : Binary64) :
    compare (floatKey (if x.isZero then ⟨0⟩ else x)) (floatKey (if y.isZero then ⟨0⟩ else y)) =
      compare x.rank y.rank := by
  rw [← compare_int_nat, floatKey_canonical, floatKey_canonical]
  refine compare_of_strictMono (f := fun k => if 0 ≤ k then 2 ^ 63 + k else 2 ^ 63 - 1 + k) ?_ _ _
  intro i j h
  split_ifs <;> omega

def rank (v : Value) : Bytes := (encodeValue v.canonical).toOption.getD []

theorem encodeValue_canonical {v : Value} (h : v.Scalar) : encodeValue v.canonical = .ok (rank v) := by
  have hcanonical : v.canonical.Scalar := by cases v <;> exact h
  obtain ⟨bs, hbs⟩ := exists_encodeValue.2 hcanonical
  rw [rank, hbs]
  rfl

theorem encodeValue_rank {v : Value} (hscalar : v.Scalar) (hv : v.canonical = v) :
    encodeValue v = .ok (rank v) := by
  rw [← encodeValue_canonical hscalar, hv]

theorem compare_rank {v w : Value} (h : v.Comparable w) :
    (v.compare? w).getD .eq = compare (rank v) (rank w) := by
  obtain ⟨⟨hv, hv'⟩, ⟨hw, hw'⟩, hnull | hnull | hbase⟩ := h <;>
    rw [compare_encodeValue (encodeValue_canonical hv) (encodeValue_canonical hw)]
  · cases v with
    | null => cases w <;> rfl
    | _ => cases hnull
  · cases w with
    | null => cases v <;> rfl
    | _ => cases hnull
  · cases v with
    | float64 x =>
        cases w with
        | float64 y =>
            have hx : x.isNaN = false := hv'
            have hy : y.isNaN = false := hw'
            rw [Value.compare?, Binary64.compare?, hx, hy]
            exact ((compare_floatKey_total _ _).symm.trans (compare_floatKey x y)).symm
        | _ => cases hbase
    | array items => simp at hv
    | struct fields => simp at hv
    | _ => cases w <;> first | rfl | cases hbase

def partOrder (p : KeyPart) (a b : Row) : Ordering :=
  if p.desc then (compare (rank (a.get p.column)) (rank (b.get p.column))).swap
  else compare (rank (a.get p.column)) (rank (b.get p.column))

def rowOrder : List KeyPart → Row → Row → Ordering
  | [], _, _ => .eq
  | p :: ps, a, b => (partOrder p a b).then (rowOrder ps a b)

instance (p : KeyPart) : Std.TransCmp (partOrder p) := by
  obtain ⟨column, desc⟩ := p
  have hforth : Std.TransCmp (compareOn (fun r : Row => rank (r.get column))) := inferInstance
  cases desc with
  | false => exact hforth
  | true =>
      have hback : partOrder ⟨column, true⟩ =
          fun a b => compareOn (fun r : Row => rank (r.get column)) b a := by
        funext a b
        exact Std.OrientedOrd.eq_swap.symm
      rw [hback]
      infer_instance

instance (ps : List KeyPart) : Std.TransCmp (rowOrder ps) := by
  induction ps with
  | nil =>
      exact { eq_swap := rfl, isLE_trans := fun _ _ => rfl }
  | cons p ps ih => exact inferInstanceAs (Std.TransCmp (compareLex (partOrder p) (rowOrder ps)))

theorem compareKeys_eq (ps : List KeyPart) {a b : Row}
    (h : ∀ p ∈ ps, (a.get p.column).Comparable (b.get p.column)) :
    Eval.compareKeys (ps.map (fun p => ⟨.column p.column, p.desc⟩)) (ps.map (fun p => a.get p.column))
      (ps.map (fun p => b.get p.column)) = rowOrder ps a b := by
  induction ps with
  | nil => rfl
  | cons p ps ih =>
      have hrank := compare_rank (h p List.mem_cons_self)
      have hrest := ih (fun q hq => h q (List.mem_cons_of_mem _ hq))
      rw [List.map_cons, List.map_cons, List.map_cons, Eval.compareKeys, hrest, rowOrder, partOrder,
        ← hrank]
      obtain ⟨column, desc⟩ := p
      cases (a.get column).compare? (b.get column) with
      | none => cases desc <;> rfl
      | some o => cases o <;> cases desc <;> rfl

theorem compare?_of_regular {v w : Value} (h : v.Comparable w) (hv : v.Regular) (hw : w.Regular)
    (hv' : v.isNull = false) (hw' : w.isNull = false) :
    ∃ o, v.compare? w = some o ∧ (o = .eq ↔ v = w) := by
  have hbase : v.baseType? = w.baseType? := by simpa [hv', hw'] using h.alike
  have hsome : (v.compare? w).isSome = true := by
    have hscalar := h.left.1
    cases v with
    | null => cases hv'
    | json a => exact absurd rfl hv.ordered
    | array items => simp at hscalar
    | struct fields => simp at hscalar
    | float64 x =>
        cases w with
        | float64 y =>
            have hx : x.isNaN = false := hv.number
            have hy : y.isNaN = false := hw.number
            simp [Value.compare?, Binary64.compare?, hx, hy]
        | _ => cases hbase
    | _ => cases w <;> first | rfl | cases hbase
  obtain ⟨o, ho⟩ := Option.isSome_iff_exists.1 hsome
  refine ⟨o, ho, ?_⟩
  have hrank := compare_rank h
  rw [ho, Option.getD_some] at hrank
  rw [hrank, Std.LawfulEqOrd.compare_eq_iff_eq]
  constructor
  · intro heq
    have hev := encodeValue_rank h.left.1 hv.canonical
    rw [heq] at hev
    exact encodeValue_injective hev (encodeValue_rank h.right.1 hw.canonical)
  · rintro rfl
    rfl

theorem compare_encodeParts {ps : List KeyPart} {a b : Row} {as bs : Bytes}
    (ha : encodeParts ((ps.map (fun p => a.get p.column)).zip (ps.map KeyPart.desc)) = .ok as)
    (hb : encodeParts ((ps.map (fun p => b.get p.column)).zip (ps.map KeyPart.desc)) = .ok bs)
    (ha' : ∀ p ∈ ps, (a.get p.column).canonical = a.get p.column)
    (hb' : ∀ p ∈ ps, (b.get p.column).canonical = b.get p.column) :
    compare as bs = rowOrder ps a b := by
  induction ps generalizing as bs with
  | nil =>
      cases ha
      cases hb
      rfl
  | cons p ps ih =>
      obtain ⟨as₁, as₂, hv, has, rfl⟩ := encodeParts_cons.1 ha
      obtain ⟨bs₁, bs₂, hw, hbs, rfl⟩ := encodeParts_cons.1 hb
      have hrest := ih has hbs (fun q hq => ha' q (List.mem_cons_of_mem _ hq))
        (fun q hq => hb' q (List.mem_cons_of_mem _ hq))
      have hrank {r : Row} {cs : Bytes} (hr : (r.get p.column).canonical = r.get p.column)
          (hcs : encodeValue (r.get p.column) = .ok cs) : rank (r.get p.column) = cs := by
        rw [rank, hr, hcs]
        rfl
      rw [compare_part hv hw, hrest, rowOrder, partOrder,
        hrank (ha' p List.mem_cons_self) hv, hrank (hb' p List.mem_cons_self) hw]

end KeyFormat

/-- Whether rows are sorted by their table's key, those that the order does not tell apart in
the order they came in. -/
structure Table.Sorts (t : Table) (rows sorted : List Row) : Prop where
  perm : sorted.Perm rows
  ordered : sorted.Pairwise (fun a b => t.keyLE a b = true)
  stable : ∀ a b, t.keyLE a b = true → [a, b].Sublist rows → [a, b].Sublist sorted

namespace Table

variable {t : Table} {rows : List Row}

theorem compareKeys_ofRow {a b : Row} (h : ∀ c ∈ t.keyColumns, (a.get c).Comparable (b.get c)) :
    Eval.compareKeys (Key.order t) (Key.ofRow t a).values (Key.ofRow t b).values =
      KeyFormat.rowOrder t.primaryKey a b := by
  have hkeys := KeyFormat.compareKeys_eq t.primaryKey (a := a) (b := b)
    (fun p hp => h p.column (List.mem_map.2 ⟨p, hp, rfl⟩))
  rw [Key.order, Key.ofRow, Key.ofRow, keyColumns, List.map_map, List.map_map, ← hkeys]
  rfl

theorem keyLE_eq {a b : Row} (h : ∀ c ∈ t.keyColumns, (a.get c).Comparable (b.get c)) :
    t.keyLE a b = (KeyFormat.rowOrder t.primaryKey a b).isLE := by
  rw [keyLE, compareKeys_ofRow h]

theorem mergeSort_sorts (h : ∀ a ∈ rows, ∀ b ∈ rows, ∀ c ∈ t.keyColumns,
    (a.get c).Comparable (b.get c)) : t.Sorts rows (rows.mergeSort t.keyLE) := by
  have hle : ∀ a ∈ rows, ∀ b ∈ rows, t.keyLE a b = (KeyFormat.rowOrder t.primaryKey a b).isLE :=
    fun a ha b hb => keyLE_eq (h a ha b hb)
  have hsort : rows.mergeSort t.keyLE =
      rows.mergeSort (fun a b => (KeyFormat.rowOrder t.primaryKey a b).isLE) := by
    simpa using List.map_mergeSort (f := id) hle
  have htrans : ∀ a b c : Row, (KeyFormat.rowOrder t.primaryKey a b).isLE →
      (KeyFormat.rowOrder t.primaryKey b c).isLE → (KeyFormat.rowOrder t.primaryKey a c).isLE :=
    fun _ _ _ => Std.TransCmp.isLE_trans
  have htotal : ∀ a b : Row, (KeyFormat.rowOrder t.primaryKey a b).isLE ||
      (KeyFormat.rowOrder t.primaryKey b a).isLE := by
    intro a b
    have hswap : KeyFormat.rowOrder t.primaryKey b a = (KeyFormat.rowOrder t.primaryKey a b).swap :=
      Std.OrientedCmp.eq_swap
    rw [hswap]
    cases KeyFormat.rowOrder t.primaryKey a b <;> rfl
  refine ⟨List.mergeSort_perm _ _, ?_, ?_⟩
  · rw [hsort]
    refine (List.pairwise_mergeSort htrans htotal rows).imp_of_mem fun {a b} ha hb hab => ?_
    rw [hle a (List.mem_mergeSort.1 ha) b (List.mem_mergeSort.1 hb)]
    exact hab
  · intro a b hab hsub
    rw [hle a (hsub.subset (by simp)) b (hsub.subset (by simp))] at hab
    rw [hsort]
    exact List.pair_sublist_mergeSort htrans htotal hab hsub

end Table

end RowForest
