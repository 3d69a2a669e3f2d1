import RowForest.Value.Order
import RowForest.Proofs.Key.Parts

namespace RowForest

/-- The order of all bit patterns: the negative ones first, and of those the larger magnitudes.
It tells the two zeros apart and has the NaNs of either sign at its ends. -/
def Binary64.totalOrder (x y : Binary64) : Ordering :=
  match x.negative, y.negative with
  | true, true => compare y.magnitude x.magnitude
  | true, false => .lt
  | false, true => .gt
  | false, false => compare x.magnitude y.magnitude

namespace Value

def kindRank : Value → Nat
  | null => 0
  | bool _ => 1
  | int64 _ => 2
  | float64 _ => 3
  | string _ => 4
  | bytes _ => 5
  | date _ => 6
  | timestamp _ => 7
  | numeric _ => 8
  | json _ => 9
  | array _ => 10
  | struct _ => 11

/-- The order of key values. Other than `compare?` it orders documents, takes numerics as texts,
and has a place for NaN. -/
def keyOrder : Value → Value → Ordering
  | bool a, bool b => compare a b
  | int64 a, int64 b => compare a.toInt b.toInt
  | float64 x, float64 y => x.totalOrder y
  | string a, string b => compareText a b
  | bytes a, bytes b => compare a b
  | date a, date b => compare a.days b.days
  | timestamp a, timestamp b => (compare a.seconds b.seconds).then (compare a.nanos b.nanos)
  | numeric a, numeric b => compareText a b
  | json a, json b => compareText a b
  | v, w => compare v.kindRank w.kindRank

def keysOrder : List Bool → List Value → List Value → Ordering
  | desc :: descs, v :: vs, w :: ws =>
    (if desc then (v.keyOrder w).swap else v.keyOrder w).then (keysOrder descs vs ws)
  | _, _, _ => .eq

theorem keyOrder_of_kindRank_ne {v w : Value} (h : v.kindRank ≠ w.kindRank) :
    v.keyOrder w = compare v.kindRank w.kindRank := by
  cases v <;> cases w <;> first | rfl | exact absurd rfl h

end Value

namespace KeyFormat

theorem floatKey_of_negative {x : Binary64} (h : x.negative = true) :
    floatKey x = 2 ^ 63 - 1 - x.magnitude := by
  have hbits := x.bits.toNat_lt
  simp only [Binary64.negative, decide_eq_true_eq] at h
  simp only [floatKey, if_pos h, Binary64.magnitude]
  omega

theorem floatKey_of_not_negative {x : Binary64} (h : x.negative = false) :
    floatKey x = 2 ^ 63 + x.magnitude := by
  simp only [Binary64.negative, decide_eq_false_iff_not] at h
  simp only [floatKey, if_neg h, Binary64.magnitude]
  omega

theorem magnitude_lt (x : Binary64) : x.magnitude < 2 ^ 63 := Nat.mod_lt _ (by decide)

theorem compare_add_left (k a b : Nat) : compare (k + a) (k + b) = compare a b := by
  simp only [compare, compareOfLessAndEq, Nat.add_lt_add_iff_left, Nat.add_left_cancel_iff]

theorem compare_sub_left {k a b : Nat} (ha : a ≤ k) (hb : b ≤ k) :
    compare (k - a) (k - b) = compare b a := by
  rcases Nat.lt_trichotomy a b with hlt | rfl | hgt
  · rw [Nat.compare_eq_gt.2 hlt, Nat.compare_eq_gt.2 (by omega)]
  · rw [Nat.compare_eq_eq.2 rfl, Nat.compare_eq_eq.2 rfl]
  · rw [Nat.compare_eq_lt.2 hgt, Nat.compare_eq_lt.2 (by omega)]

theorem compare_floatKey_total (x y : Binary64) :
    compare (floatKey x) (floatKey y) = x.totalOrder y := by
  have hx := magnitude_lt x
  have hy := magnitude_lt y
  unfold Binary64.totalOrder
  cases hnx : x.negative with
  | true =>
      rw [floatKey_of_negative hnx]
      cases hny : y.negative with
      | true =>
          rw [floatKey_of_negative hny]
          exact compare_sub_left (by omega) (by omega)
      | false =>
          rw [floatKey_of_not_negative hny]
          exact Nat.compare_eq_lt.2 (by omega)
  | false =>
      rw [floatKey_of_not_negative hnx]
      cases hny : y.negative with
      | true =>
          rw [floatKey_of_negative hny]
          exact Nat.compare_eq_gt.2 (by omega)
      | false =>
          rw [floatKey_of_not_negative hny]
          exact compare_add_left _ _ _

theorem encodeValue_tag {v : Value} {bs : Bytes} (h : encodeValue v = .ok bs) :
    v.kindRank < 10 ∧ ∃ rest, bs = .ofNat v.kindRank :: rest := by
  cases v <;> cases h <;> exact ⟨by simp [Value.kindRank], _, rfl⟩

theorem compare_encodeValue {v w : Value} {as bs : Bytes} (hv : encodeValue v = .ok as)
    (hw : encodeValue w = .ok bs) : compare as bs = v.keyOrder w := by
  by_cases hkind : v.kindRank = w.kindRank
  · cases v with
    | null =>
        cases w with
        | null =>
            cases hv
            cases hw
            rfl
        | _ => cases hkind
    | bool a =>
        cases w with
        | bool b =>
            cases hv
            cases hw
            cases a <;> cases b <;> rfl
        | _ => cases hkind
    | int64 a =>
        cases w with
        | int64 b =>
            cases hv
            cases hw
            have hbounds (i : Int64) := And.intro i.le_toInt i.toInt_lt
            exact (compare_tag _ _ _).trans (compare_encodeInt (hbounds a) (hbounds b))
        | _ => cases hkind
    | float64 x =>
        cases w with
        | float64 y =>
            cases hv
            cases hw
            rw [compare_tag, Bytes.compare_bigEndian_of_lt (w := 8) (floatKey_lt x) (floatKey_lt y)]
            exact compare_floatKey_total x y
        | _ => cases hkind
    | string a =>
        cases w with
        | string b =>
            cases hv
            cases hw
            exact (compare_tag _ _ _).trans (compare_escaped _ _)
        | _ => cases hkind
    | bytes a =>
        cases w with
        | bytes b =>
            cases hv
            cases hw
            exact (compare_tag _ _ _).trans (compare_escaped _ _)
        | _ => cases hkind
    | date a =>
        cases w with
        | date b =>
            cases hv
            cases hw
            exact (compare_tag _ _ _).trans (compare_encodeInt (days_bounds a) (days_bounds b))
        | _ => cases hkind
    | timestamp a =>
        cases w with
        | timestamp b =>
            cases hv
            cases hw
            exact (compare_tag _ _ _).trans (compare_encodeTimestamp a b)
        | _ => cases hkind
    | numeric a =>
        cases w with
        | numeric b =>
            cases hv
            cases hw
            exact (compare_tag _ _ _).trans (compare_escaped _ _)
        | _ => cases hkind
    | json a =>
        cases w with
        | json b =>
            cases hv
            cases hw
            exact (compare_tag _ _ _).trans (compare_escaped _ _)
        | _ => cases hkind
    | array items => cases hv
    | struct fields => cases hv
  · obtain ⟨hv', as, rfl⟩ := encodeValue_tag hv
    obtain ⟨hw', bs, rfl⟩ := encodeValue_tag hw
    have htags : compare (UInt8.ofNat v.kindRank) (UInt8.ofNat w.kindRank) =
        compare v.kindRank w.kindRank := by
      have hbyte {n : Nat} (hn : n < 10) : (UInt8.ofNat n).toNat = n :=
        UInt8.toNat_ofNat_of_lt' (hn.trans (by decide))
      rw [Bytes.compare_toNat, hbyte hv', hbyte hw']
    rw [List.compare_cons_cons, htags, Value.keyOrder_of_kindRank_ne hkind]
    rcases Nat.lt_or_gt_of_ne hkind with hlt | hgt
    · rw [Nat.compare_eq_lt.2 hlt]
      rfl
    · rw [Nat.compare_eq_gt.2 hgt]
      rfl

theorem compare_encodeParts_values {ds : List Bool} {vs ws : List Value} {as bs : Bytes}
    (hlength : vs.length = ws.length) (ha : encodeParts (vs.zip ds) = .ok as)
    (hb : encodeParts (ws.zip ds) = .ok bs) : compare as bs = Value.keysOrder ds vs ws := by
  induction ds generalizing vs ws as bs with
  | nil =>
      rw [List.zip_nil_right] at ha hb
      cases ha
      cases hb
      rfl
  | cons d ds ih =>
      cases vs with
      | nil =>
          obtain rfl := List.length_eq_zero_iff.1 hlength.symm
          cases ha
          cases hb
          rfl
      | cons v vs =>
          cases ws with
          | nil => cases hlength
          | cons w ws =>
              obtain ⟨as₁, as₂, hv, has, rfl⟩ := encodeParts_cons.1 ha
              obtain ⟨bs₁, bs₂, hw, hbs, rfl⟩ := encodeParts_cons.1 hb
              rw [compare_part hv hw, compare_encodeValue hv hw,
                ih (Nat.succ.inj hlength) has hbs]
              rfl

/-- The byte order of keys of a table is the order of their values, position by position,
turned round where the key is descending. -/
theorem compare_encode (table : String) (ds : List Bool) {vs ws : List Value}
    (hlength : vs.length = ws.length) (hvs : ∀ v ∈ vs, v.Scalar) (hws : ∀ w ∈ ws, w.Scalar) :
    ∃ as bs, encode table (vs.zip ds) = .ok as ∧ encode table (ws.zip ds) = .ok bs ∧
      compare as bs = Value.keysOrder ds vs ws := by
  have hencodes (us : List Value) (hus : ∀ u ∈ us, u.Scalar) :
      ∃ bs, encodeParts (us.zip ds) = .ok bs :=
    exists_encodeParts.2 fun p hp => hus p.1 (List.of_mem_zip hp).1
  obtain ⟨as, has⟩ := hencodes vs hvs
  obtain ⟨bs, hbs⟩ := hencodes ws hws
  refine ⟨_, _, encode_eq_ok.2 ⟨as, has, rfl⟩, encode_eq_ok.2 ⟨bs, hbs, rfl⟩, ?_⟩
  have hname : Bytes.Apart (encodeName table) (encodeName table) := fun _ => rfl
  rw [Bytes.compare_append hname, Std.ReflOrd.compare_self]
  exact compare_encodeParts_values hlength has hbs

/-- Descending, a negative zero comes after the other one. -/
theorem compare_encode_sample : ∃ as bs,
    encode "Song" [(.string "a", false), (.float64 ⟨0x8000000000000000⟩, true)] = .ok as ∧
      encode "Song" [(.string "a", false), (.float64 ⟨0⟩, true)] = .ok bs ∧ compare as bs = .gt := by
  have horder : Value.keysOrder [false, true] [.string "a", .float64 ⟨0x8000000000000000⟩]
      [.string "a", .float64 ⟨0⟩] = .gt := by cbv
  have hscalar (x : Binary64) : ∀ v ∈ [Value.string "a", .float64 x], v.Scalar := by
    simp [Value.Scalar, Value.baseType?]
  rw [← horder]
  exact compare_encode "Song" [false, true] (by rfl) (hscalar ⟨0x8000000000000000⟩) (hscalar ⟨0⟩)

end KeyFormat

end RowForest
