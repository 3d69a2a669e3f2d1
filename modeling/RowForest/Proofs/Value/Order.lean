import RowForest.Proofs.Binary64
import RowForest.Proofs.Eval.Sorting

namespace Std.TransCmp

theorem eq_then {α : Type} {cmp : α → α → Ordering} [Std.TransCmp cmp] {a b c : α} (hab : (cmp a b).isLE = true)
    (hbc : (cmp b c).isLE = true) : cmp a c = (cmp a b).then (cmp b c) := by
  cases h : cmp a b with
  | lt => exact lt_of_lt_of_isLE h hbc
  | eq => exact congr_left h
  | gt => simp [h] at hab

end Std.TransCmp

namespace RowForest

namespace Binary64

variable {x y z : Binary64} {o p : Ordering}

theorem compare?_swap (x y : Binary64) : y.compare? x = (x.compare? y).map Ordering.swap := by
  rw [compare?, compare?, Bool.or_comm]
  split
  · rfl
  · rw [Option.map_some, ← Std.OrientedOrd.eq_swap]

theorem compare?_eq_some : x.compare? y = some o ↔
    (x.isNaN = false ∧ y.isNaN = false) ∧ compare x.rank y.rank = o := by
  rw [compare?]
  cases x.isNaN <;> cases y.isNaN <;> simp

theorem compare?_chain (ho : x.compare? y = some o) (hp : y.compare? z = some p) (hle : o.isLE = true)
    (hle' : p.isLE = true) : x.compare? z = some (o.then p) := by
  obtain ⟨⟨hx, -⟩, rfl⟩ := compare?_eq_some.1 ho
  obtain ⟨⟨-, hz⟩, rfl⟩ := compare?_eq_some.1 hp
  exact compare?_eq_some.2 ⟨⟨hx, hz⟩, Std.TransCmp.eq_then hle hle'⟩

end Binary64

namespace Value

open Binary64 (ofInt)

mutual

theorem compare?_swap : ∀ v w : Value, w.compare? v = (v.compare? w).map Ordering.swap
  | array vs, w => by
    cases w with
    | array ws => exact compareItems?_swap vs ws
    | _ => rfl
  | int64 i, w => by
    cases w with
    | int64 j => rw [compare?, compare?, Option.map_some, ← Std.OrientedOrd.eq_swap]
    | float64 y => exact Binary64.compare?_swap (ofInt i) y
    | _ => rfl
  | float64 x, w => by
    cases w with
    | int64 j => exact Binary64.compare?_swap x (ofInt j)
    | float64 y => exact Binary64.compare?_swap x y
    | _ => rfl
  | timestamp t, w => by
    cases w with
    | timestamp u =>
        rw [compare?, compare?, Option.map_some, Timestamp.compare, Timestamp.compare, Ordering.swap_then,
          ← Std.OrientedOrd.eq_swap, ← Std.OrientedOrd.eq_swap]
    | _ => rfl
  | null, w | json _, w | struct _, w => by cases w <;> rfl
  | bool _, w | string _, w | bytes _, w | date _, w | numeric _, w => by
    cases w <;> simp only [compare?, compareText, Option.map_none, Option.map_some, Ordering.swap_gt,
      ← Std.OrientedOrd.eq_swap]

theorem compareItems?_swap : ∀ vs ws : List Value, compareItems? ws vs = (compareItems? vs ws).map Ordering.swap
  | [], ws => by cases ws <;> rfl
  | _ :: _, [] => rfl
  | v :: vs, w :: ws => by
    rw [compareItems?, compareItems?, compare?_swap v w]
    rcases v.compare? w with _ | _ | _ | _
    · rfl
    · rfl
    · exact compareItems?_swap vs ws
    · rfl

end

mutual

/-- Whether the integers in a value, be it one itself or have them for items at any depth, satisfy `I`, and the
floats `F`. -/
def Over (I : Int64 → Prop) (F : Binary64 → Prop) : Value → Prop
  | int64 i => I i
  | float64 x => F x
  | array items => ItemsOver I F items
  | _ => True
termination_by structural x => x

def ItemsOver (I : Int64 → Prop) (F : Binary64 → Prop) : List Value → Prop
  | [] => True
  | v :: vs => v.Over I F ∧ ItemsOver I F vs
termination_by structural x => x

end

/-- Whether no two integers of `I` compare as equal to one float of `F`. -/
def Separate (I : Int64 → Prop) (F : Binary64 → Prop) : Prop :=
  ∀ i j x, I i → I j → F x → (int64 i).compare? (float64 x) = some .eq →
    (int64 j).compare? (float64 x) = some .eq → i = j

/-- Whether the first of three values comes before the last, or is equal to it, if each of them does so to the next
one, and before it as soon as one of them comes before the next. -/
def Chains (a b c : Value) : Prop :=
  ∀ o p, a.compare? b = some o → b.compare? c = some p → o.isLE = true → p.isLE = true →
    ∃ q, a.compare? c = some q ∧ q.isLE = true ∧ (o = .lt ∨ p = .lt → q = .lt)

variable {a b c : Value} {o p : Ordering} {I : Int64 → Prop} {F : Binary64 → Prop} {i j : Int64} {x : Binary64}

theorem compare?_int_float (hx : x.isNaN = false) :
    (int64 i).compare? (float64 x) = some (compare (ofInt i).rank x.rank) :=
  Binary64.compare?_eq_some.2 ⟨⟨Binary64.isNaN_ofInt i, hx⟩, rfl⟩

theorem Separate.eq (h : Separate I F) (hi : I i) (hj : I j) (hx : F x) (hx' : x.isNaN = false)
    (hix : (ofInt i).rank = x.rank) (hjx : (ofInt j).rank = x.rank) : i = j := by
  refine h i j x hi hj hx ?_ ?_
  · rw [compare?_int_float hx', hix, Std.ReflOrd.compare_self]
  · rw [compare?_int_float hx', hjx, Std.ReflOrd.compare_self]

theorem chain_int_int_float (h : Separate I F) (hi : I i) (hj : I j) (hx : F x)
    (hle : (compare i.toInt j.toInt).isLE = true) (hp : (ofInt j).compare? x = some p) (hle' : p.isLE = true) :
    (ofInt i).compare? x = some ((compare i.toInt j.toInt).then p) := by
  obtain ⟨⟨-, hx'⟩, rfl⟩ := Binary64.compare?_eq_some.1 hp
  refine Binary64.compare?_eq_some.2 ⟨⟨Binary64.isNaN_ofInt i, hx'⟩, ?_⟩
  rcases lt_or_eq_of_le (Int.isLE_compare.1 hle) with hlt | heq
  · have hij := Binary64.rank_ofInt_mono hlt.le
    have hjx := Int.isLE_compare.1 hle'
    have hix : (ofInt i).rank ≠ x.rank := by
      intro heq
      obtain rfl := h.eq hi hj hx hx' heq (by omega)
      exact hlt.ne rfl
    rw [compare_lt_iff_lt.2 hlt, Ordering.lt_then, compare_lt_iff_lt]
    omega
  · obtain rfl := Int64.toInt_inj.1 heq
    rw [Std.ReflOrd.compare_self, Ordering.eq_then]

theorem chain_float_int_int (h : Separate I F) (hi : I i) (hj : I j) (hx : F x) (ho : x.compare? (ofInt i) = some o)
    (hle : o.isLE = true) (hle' : (compare i.toInt j.toInt).isLE = true) :
    x.compare? (ofInt j) = some (o.then (compare i.toInt j.toInt)) := by
  obtain ⟨⟨hx', -⟩, rfl⟩ := Binary64.compare?_eq_some.1 ho
  refine Binary64.compare?_eq_some.2 ⟨⟨hx', Binary64.isNaN_ofInt j⟩, ?_⟩
  rcases lt_or_eq_of_le (Int.isLE_compare.1 hle') with hlt | heq
  · have hij := Binary64.rank_ofInt_mono hlt.le
    have hxi := Int.isLE_compare.1 hle
    have hxj : (ofInt j).rank ≠ x.rank := by
      intro heq
      obtain rfl := h.eq hi hj hx hx' (by omega) heq
      exact hlt.ne rfl
    have hxj' : x.rank < (ofInt j).rank := by omega
    rw [compare_lt_iff_lt.2 hlt, compare_lt_iff_lt.2 hxj']
    cases hcmp : compare x.rank (ofInt i).rank <;> simp_all
  · obtain rfl := Int64.toInt_inj.1 heq
    rw [Std.ReflOrd.compare_self, Ordering.then_eq]

theorem chain_int_float_int (h : Separate I F) (hi : I i) (hj : I j) (hx : F x) (ho : (ofInt i).compare? x = some o)
    (hp : x.compare? (ofInt j) = some p) (hle : o.isLE = true) (hle' : p.isLE = true) :
    compare i.toInt j.toInt = o.then p := by
  obtain ⟨⟨-, hx'⟩, rfl⟩ := Binary64.compare?_eq_some.1 ho
  obtain ⟨-, rfl⟩ := Binary64.compare?_eq_some.1 hp
  rw [← Std.TransCmp.eq_then hle hle']
  have hix := Int.isLE_compare.1 hle
  have hxj := Int.isLE_compare.1 hle'
  rcases lt_or_eq_of_le (hix.trans hxj) with hlt | heq
  · rw [compare_lt_iff_lt.2 hlt, compare_lt_iff_lt.2 (Binary64.lt_of_rank_ofInt hlt)]
  · obtain rfl := h.eq hi hj hx hx' (by omega) (by omega)
    rw [Std.ReflOrd.compare_self, Std.ReflOrd.compare_self]

def isNumber : Value → Bool
  | int64 _ | float64 _ => true
  | _ => false

theorem isNumber_of_compare? (ha : a.isNumber = true) (ho : a.compare? b = some o) (hle : o.isLE = true) :
    b.isNumber = true := by
  cases a with
  | int64 _ | float64 _ =>
      cases b with
      | int64 j => rfl
      | float64 y => rfl
      | null =>
          obtain rfl := Option.some.inj ho
          cases hle
      | _ => cases ho
  | _ => cases ha

theorem chain_numbers (h : Separate I F) (ha : a.Over I F) (hb : b.Over I F) (hc : c.Over I F)
    (ha' : a.isNumber = true) (ho : a.compare? b = some o) (hp : b.compare? c = some p) (hle : o.isLE = true)
    (hle' : p.isLE = true) : a.compare? c = some (o.then p) := by
  have hb' := isNumber_of_compare? ha' ho hle
  have hc' := isNumber_of_compare? hb' hp hle'
  cases a with
  | int64 i =>
      cases b with
      | int64 j =>
          obtain rfl := Option.some.inj ho
          cases c with
          | int64 k =>
              obtain rfl := Option.some.inj hp
              exact congrArg some (Std.TransCmp.eq_then hle hle')
          | float64 z => exact chain_int_int_float h ha hb hc hle hp hle'
          | _ => cases hc'
      | float64 y =>
          cases c with
          | int64 k => exact congrArg some (chain_int_float_int h ha hc hb ho hp hle hle')
          | float64 z => exact Binary64.compare?_chain ho hp hle hle'
          | _ => cases hc'
      | _ => cases hb'
  | float64 x =>
      cases b with
      | int64 j =>
          cases c with
          | int64 k =>
              obtain rfl := Option.some.inj hp
              exact chain_float_int_int h hb hc ha ho hle hle'
          | float64 z => exact Binary64.compare?_chain ho hp hle hle'
          | _ => cases hc'
      | float64 y =>
          cases c with
          | int64 k => exact Binary64.compare?_chain ho hp hle hle'
          | float64 z => exact Binary64.compare?_chain ho hp hle hle'
          | _ => cases hc'
      | _ => cases hb'
  | _ => cases ha'

theorem chain_null (ho : null.compare? b = some o) (hp : b.compare? c = some p) (hle' : p.isLE = true) :
    null.compare? c = some (o.then p) := by
  cases b with
  | null =>
      obtain rfl := Option.some.inj ho
      exact hp
  | _ =>
      obtain rfl := Option.some.inj ho
      cases c with
      | null =>
          obtain rfl := Option.some.inj hp
          cases hle'
      | _ => rfl

variable {t : BaseType}

theorem baseType?_of_compare? (ha : a.baseType? = some t) (ht : t ≠ .int64 ∧ t ≠ .float64)
    (ho : a.compare? b = some o) (hle : o.isLE = true) : b.baseType? = some t ∧ a.isDocument = false := by
  cases a with
  | int64 i => simp [baseType?, ht.1.symm] at ha
  | float64 x => simp [baseType?, ht.2.symm] at ha
  | null | array items | struct fields => cases ha
  | _ =>
      obtain rfl := Option.some.inj ha
      cases b with
      | null =>
          obtain rfl := Option.some.inj ho
          cases hle
      | _ => first | exact ⟨rfl, rfl⟩ | cases ho

theorem comparable_of_baseType? (ha : a.baseType? = some t) (hb : b.baseType? = some t) (ht : t ≠ .float64) :
    a.Comparable b := by
  have hscalar {v : Value} (hv : v.baseType? = some t) : v.Scalar ∧ v.isNaN = false := by
    refine ⟨.inr (by rw [hv]; rfl), ?_⟩
    cases v with
    | float64 x => exact absurd (Option.some.inj hv).symm ht
    | _ => rfl
  exact ⟨hscalar ha, hscalar hb, .inr (.inr (ha.trans hb.symm))⟩

theorem eq_compare_rank (hab : a.Comparable b) (ho : a.compare? b = some o) :
    o = compare (KeyFormat.rank a) (KeyFormat.rank b) := by
  rw [← KeyFormat.compare_rank hab, ho, Option.getD_some]

theorem chain_scalars (ha : a.baseType? = some t) (ht : t ≠ .int64 ∧ t ≠ .float64) (ho : a.compare? b = some o)
    (hp : b.compare? c = some p) (hle : o.isLE = true) (hle' : p.isLE = true) : a.compare? c = some (o.then p) := by
  obtain ⟨hb, hdocument⟩ := baseType?_of_compare? ha ht ho hle
  obtain ⟨hc, -⟩ := baseType?_of_compare? hb ht hp hle'
  have hac := comparable_of_baseType? ha hc ht.2
  obtain rfl := eq_compare_rank (comparable_of_baseType? ha hb ht.2) ho
  obtain rfl := eq_compare_rank (comparable_of_baseType? hb hc ht.2) hp
  rcases compare?_cases hac with ⟨hdocument', -⟩ | ⟨q, hq, -⟩
  · cases hdocument.symm.trans hdocument'
  · rw [hq, eq_compare_rank hac hq, Std.TransCmp.eq_then hle hle']

theorem compareItems?_cons {as bs : List Value} (ho : compareItems? (a :: as) (b :: bs) = some o)
    (hle : o.isLE = true) :
    a.compare? b = some .lt ∧ o = .lt ∨ a.compare? b = some .eq ∧ compareItems? as bs = some o := by
  rw [compareItems?] at ho
  rcases h : a.compare? b with _ | _ | _ | _
  · simp [h] at ho
  · simp_all
  · simp_all
  · simp [h] at ho
    subst ho
    cases hle

theorem exists_items_of_compare? {as : List Value} (ho : (array as).compare? b = some o) (hle : o.isLE = true) :
    ∃ bs, b = array bs ∧ compareItems? as bs = some o := by
  cases b with
  | array bs => exact ⟨bs, rfl, ho⟩
  | null =>
      obtain rfl := Option.some.inj ho
      cases hle
  | _ => cases ho

mutual

/-- Comparisons are chained where no two integers meet at a float. -/
theorem chain (h : Separate I F) : ∀ {a b c : Value} {o p : Ordering}, a.Over I F → b.Over I F → c.Over I F →
    a.compare? b = some o → b.compare? c = some p → o.isLE = true → p.isLE = true →
      a.compare? c = some (o.then p)
  | array as, b, c, o, p, ha, hb, hc, ho, hp, hle, hle' => by
    obtain ⟨bs, rfl, ho⟩ := exists_items_of_compare? ho hle
    obtain ⟨cs, rfl, hp⟩ := exists_items_of_compare? hp hle'
    exact chainItems h ha hb hc ho hp hle hle'
  | null, _, _, _, _, _, _, _, ho, hp, _, hle' => chain_null ho hp hle'
  | int64 _, _, _, _, _, ha, hb, hc, ho, hp, hle, hle' | float64 _, _, _, _, _, ha, hb, hc, ho, hp, hle, hle' =>
    chain_numbers h ha hb hc rfl ho hp hle hle'
  | bool _, _, _, _, _, _, _, _, ho, hp, hle, hle' | string _, _, _, _, _, _, _, _, ho, hp, hle, hle'
  | bytes _, _, _, _, _, _, _, _, ho, hp, hle, hle' | date _, _, _, _, _, _, _, _, ho, hp, hle, hle'
  | timestamp _, _, _, _, _, _, _, _, ho, hp, hle, hle' | numeric _, _, _, _, _, _, _, _, ho, hp, hle, hle'
  | json _, _, _, _, _, _, _, _, ho, hp, hle, hle' => chain_scalars rfl (by decide) ho hp hle hle'
  | struct _, b, _, _, _, _, _, _, ho, hp, hle, _ => by
    cases b with
    | null =>
        obtain rfl := Option.some.inj ho
        cases hle
    | _ => cases ho

theorem chainItems (h : Separate I F) : ∀ {as bs cs : List Value} {o p : Ordering}, ItemsOver I F as →
    ItemsOver I F bs → ItemsOver I F cs → compareItems? as bs = some o → compareItems? bs cs = some p →
      o.isLE = true → p.isLE = true → compareItems? as cs = some (o.then p)
  | [], bs, cs, o, p, _, _, _, ho, hp, _, hle' => by
    cases bs with
    | nil =>
        obtain rfl := Option.some.inj ho
        exact hp
    | cons b bs =>
        obtain rfl := Option.some.inj ho
        cases cs with
        | nil =>
            obtain rfl := Option.some.inj hp
            cases hle'
        | cons c cs => rfl
  | a :: as, bs, cs, o, p, ha, hb, hc, ho, hp, hle, hle' => by
    cases bs with
    | nil =>
        obtain rfl := Option.some.inj ho
        cases hle
    | cons b bs =>
        cases cs with
        | nil =>
            obtain rfl := Option.some.inj hp
            cases hle'
        | cons c cs =>
            rw [compareItems?]
            rcases compareItems?_cons ho hle with ⟨hab, rfl⟩ | ⟨hab, hos⟩ <;>
              rcases compareItems?_cons hp hle' with ⟨hbc, rfl⟩ | ⟨hbc, hps⟩ <;>
              rw [chain h ha.1 hb.1 hc.1 hab hbc rfl rfl]
            · rfl
            · rfl
            · cases o <;> first | rfl | cases hle
            · exact chainItems h ha.2 hb.2 hc.2 hos hps hle hle'

end

theorem chains_of_separate (h : Separate I F) (ha : a.Over I F) (hb : b.Over I F) (hc : c.Over I F) :
    Chains a b c := by
  intro o p ho hp hle hle'
  refine ⟨_, chain h ha hb hc ho hp hle hle', ?_, ?_⟩ <;> cases o <;> cases p <;> simp_all

/-- The integer that is larger, the float both round to, and the other integer stand in a row that breaks. -/
theorem separate_of_chains (h : ∀ a b c : Value, a.Over I F → b.Over I F → c.Over I F → Chains a b c) :
    Separate I F := by
  have hle {i j : Int64} {x : Binary64} (hi : I i) (hj : I j) (hx : F x)
      (hix : (int64 i).compare? (float64 x) = some .eq) (hjx : (int64 j).compare? (float64 x) = some .eq) :
      i.toInt ≤ j.toInt := by
    have hxj : (float64 x).compare? (int64 j) = some .eq := by rw [compare?_swap, hjx]; rfl
    obtain ⟨q, hq, hle, -⟩ := h (int64 i) (float64 x) (int64 j) hi hx hj _ _ hix hxj rfl rfl
    obtain rfl := Option.some.inj hq
    exact Int.isLE_compare.1 hle
  intro i j x hi hj hx hix hjx
  exact Int64.toInt_inj.1 ((hle hi hj hx hix hjx).antisymm (hle hj hi hx hjx hix))

theorem separate_of_small (hI : ∀ i, I i → i.toInt.natAbs ≤ 2 ^ 53) : Separate I F := by
  intro i j x hi hj _ hix hjx
  have hrank {k : Int64} (hk : (int64 k).compare? (float64 x) = some .eq) : (ofInt k).rank = x.rank :=
    compare_eq_iff_eq.1 (Binary64.compare?_eq_some.1 hk).2
  exact Binary64.eq_of_rank_ofInt (hI i hi) (hI j hj) ((hrank hix).trans (hrank hjx).symm)

/-- Turned round, a comparison always gives the reverse. It is an order on the values with integers of one set and
floats of another, arrays of them included, exactly if no two of the integers compare as equal to one of the floats;
so it is one without floats, and one with integers up to `2 ^ 53` and any floats. -/
theorem compare?_chains_iff (I : Int64 → Prop) (F : Binary64 → Prop) :
    (∀ a b : Value, b.compare? a = (a.compare? b).map Ordering.swap) ∧
      ((∀ a b c : Value, a.Over I F → b.Over I F → c.Over I F → Chains a b c) ↔
        ∀ i j x, I i → I j → F x → (int64 i).compare? (float64 x) = some .eq →
          (int64 j).compare? (float64 x) = some .eq → i = j) ∧
      ((∀ x, ¬F x) ∨ (∀ i, I i → i.toInt.natAbs ≤ 2 ^ 53) →
        ∀ a b c : Value, a.Over I F → b.Over I F → c.Over I F → Chains a b c) := by
  refine ⟨compare?_swap, ⟨separate_of_chains, fun h a b c => chains_of_separate h⟩, ?_⟩
  rintro (hF | hI) a b c
  · exact chains_of_separate fun _ _ x _ _ hx => absurd hx (hF x)
  · exact chains_of_separate (separate_of_small hI)

/-- An integer past `2 ^ 53` and the one before it both round to `2 ^ 53`. -/
theorem compare?_chains_rounded :
    (int64 9007199254740993).compare? (float64 ⟨0x4340000000000000⟩) = some .eq ∧
      (float64 ⟨0x4340000000000000⟩).compare? (int64 9007199254740992) = some .eq ∧
      (int64 9007199254740993).compare? (int64 9007199254740992) = some .gt ∧
      ¬Chains (int64 9007199254740993) (float64 ⟨0x4340000000000000⟩) (int64 9007199254740992) := by
  have hfirst : (int64 9007199254740993).compare? (float64 ⟨0x4340000000000000⟩) = some .eq := by decide
  have hsecond : (float64 ⟨0x4340000000000000⟩).compare? (int64 9007199254740992) = some .eq := by decide
  have hends : (int64 9007199254740993).compare? (int64 9007199254740992) = some .gt := by decide
  refine ⟨hfirst, hsecond, hends, fun h => ?_⟩
  obtain ⟨q, hq, hle, -⟩ := h _ _ hfirst hsecond rfl rfl
  rw [hends] at hq
  obtain rfl := Option.some.inj hq
  cases hle

end Value

end RowForest
