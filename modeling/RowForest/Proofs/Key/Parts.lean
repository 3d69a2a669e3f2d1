import RowForest.Proofs.KeyFormat

namespace RowForest.KeyFormat

theorem compare_int_nat (m n : Nat) : compare (m : Int) (n : Int) = compare m n := by
  simp only [compare, compareOfLessAndEq, Int.ofNat_lt, Int.ofNat_inj]

theorem compare_of_strictMono {f : Int → Int} (hf : ∀ i j, i < j → f i < f j) (i j : Int) :
    compare (f i) (f j) = compare i j := by
  simp only [compare, compareOfLessAndEq]
  rcases Int.lt_trichotomy i j with hlt | rfl | hgt
  · rw [if_pos (hf i j hlt), if_pos hlt]
  · simp
  · have hback := hf j i hgt
    rw [if_neg (by omega), if_neg (by omega), if_neg (by omega), if_neg (by omega)]

theorem compare_encodeInt {i j : Int} (hi : -2 ^ 63 ≤ i ∧ i < 2 ^ 63) (hj : -2 ^ 63 ≤ j ∧ j < 2 ^ 63) :
    compare (encodeInt i) (encodeInt j) = compare i j := by
  have hraise (k : Int) (hk : -2 ^ 63 ≤ k ∧ k < 2 ^ 63) : (k + 2 ^ 63).toNat < 256 ^ 8 := by omega
  rw [encodeInt, encodeInt, Bytes.compare_bigEndian_of_lt (hraise i hi) (hraise j hj), ← compare_int_nat,
    Int.toNat_of_nonneg (by omega), Int.toNat_of_nonneg (by omega)]
  exact compare_of_strictMono (f := fun k => k + 2 ^ 63) (fun _ _ h => by omega) i j

theorem compare_encodeTimestamp (a b : Timestamp) :
    compare (encodeInt a.seconds ++ Bytes.bigEndian 4 a.nanos)
      (encodeInt b.seconds ++ Bytes.bigEndian 4 b.nanos) =
      (compare a.seconds b.seconds).then (compare a.nanos b.nanos) := by
  have hnanos (t : Timestamp) : t.nanos < 256 ^ 4 := by
    have hlt := t.nanos_lt
    omega
  have hlength : (encodeInt a.seconds).length = (encodeInt b.seconds).length := by simp [encodeInt]
  rw [Bytes.compare_append (Bytes.apart_of_length hlength),
    compare_encodeInt (seconds_bounds a) (seconds_bounds b),
    Bytes.compare_bigEndian_of_lt (hnanos a) (hnanos b)]

theorem compare_zero_of_ne {b : UInt8} (hb : b ≠ 0) : compare 0 b = .lt ∧ compare b 0 = .gt := by
  have hpos : 0 < b.toNat := by
    rw [Nat.pos_iff_ne_zero]
    exact fun h => hb (UInt8.toNat_inj.1 h)
  constructor
  · rw [Bytes.compare_toNat]
    exact Nat.compare_eq_lt.2 hpos
  · rw [Bytes.compare_toNat]
    exact Nat.compare_eq_gt.2 hpos

theorem compare_escaped (as bs : Bytes) : compare (escaped as) (escaped bs) = compare as bs := by
  induction as generalizing bs with
  | nil =>
      cases bs with
      | nil => rfl
      | cons b bs =>
          by_cases hb : b = 0
          · subst hb
            rfl
          · simp [escaped, hb, List.compare_cons_cons, compare_zero_of_ne hb]
  | cons a as ih =>
      cases bs with
      | nil =>
          by_cases ha : a = 0
          · subst ha
            rfl
          · simp [escaped, ha, List.compare_cons_cons, compare_zero_of_ne ha]
      | cons b bs =>
          by_cases ha : a = 0
          · by_cases hb : b = 0
            · simp [escaped, ha, hb, List.compare_cons_cons, ih]
            · simp [escaped, ha, hb, List.compare_cons_cons, compare_zero_of_ne hb]
          · by_cases hb : b = 0
            · simp [escaped, ha, hb, List.compare_cons_cons, compare_zero_of_ne ha]
            · simp [escaped, ha, hb, List.compare_cons_cons, ih]

theorem compare_tag (tag : UInt8) (as bs : Bytes) : compare (tag :: as) (tag :: bs) = compare as bs := by
  simp [List.compare_cons_cons]

theorem encodeValue_apart {v w : Value} {as bs : Bytes} (ha : encodeValue v = .ok as)
    (hb : encodeValue w = .ok bs) : Bytes.Apart as bs := by
  have hread {v w : Value} {as bs : Bytes} (ha : encodeValue v = .ok as) (hb : encodeValue w = .ok bs)
      (h : as <+: bs) : as = bs := by
    obtain ⟨rest, rfl⟩ := h
    have hw := decodeValue_append hb false []
    rw [List.append_nil, List.map_append, decodeValue_append ha] at hw
    obtain ⟨-, hrest⟩ := Prod.mk.inj (Except.ok.inj hw)
    rw [List.map_eq_nil_iff.1 hrest, List.append_nil]
  rintro (h | h)
  · exact hread ha hb h
  · exact (hread hb ha h).symm

theorem compare_complement (a b : UInt8) : compare (~~~a) (~~~b) = (compare a b).swap := by
  have ha := a.toNat_lt
  have hb := b.toNat_lt
  rw [Bytes.compare_toNat, Bytes.compare_toNat, UInt8.toNat_not, UInt8.toNat_not, UInt8.size]
  rcases Nat.lt_trichotomy a.toNat b.toNat with hlt | heq | hgt
  · rw [Nat.compare_eq_lt.2 hlt, Nat.compare_eq_gt.2 (by omega)]
    rfl
  · rw [heq, Nat.compare_eq_eq.2 rfl, Nat.compare_eq_eq.2 rfl]
    rfl
  · rw [Nat.compare_eq_gt.2 hgt, Nat.compare_eq_lt.2 (by omega)]
    rfl

/-- Inverting texts turns their order around, unless one is the beginning of the other. -/
theorem compare_turn {as bs : Bytes} (h : Bytes.Apart as bs) (desc : Bool) :
    compare (as.map (turn desc)) (bs.map (turn desc)) =
      if desc then (compare as bs).swap else compare as bs := by
  cases desc with
  | false =>
      have hid (cs : Bytes) : cs.map (turn false) = cs := List.map_id cs
      rw [hid, hid, if_neg Bool.false_ne_true]
  | true =>
      rw [if_pos rfl]
      induction as generalizing bs with
      | nil =>
          cases bs with
          | nil => rfl
          | cons b bs => exact absurd h (Bytes.not_apart_nil b bs).1
      | cons a as ih =>
          cases bs with
          | nil => exact absurd h (Bytes.not_apart_nil a as).2
          | cons b bs =>
              have hbyte : compare (turn true a) (turn true b) = (compare a b).swap :=
                compare_complement a b
              rw [List.map_cons, List.map_cons, List.compare_cons_cons, List.compare_cons_cons, hbyte,
                Ordering.swap_then]
              by_cases hab : a = b
              · subst hab
                rw [ih h.tail]
              · have hne : compare a b ≠ .eq := fun heq => hab (Bytes.compare_eq_eq.1 heq)
                cases hcompare : compare a b <;> simp_all

theorem apart_turn {as bs : Bytes} (h : Bytes.Apart as bs) (desc : Bool) :
    Bytes.Apart (as.map (turn desc)) (bs.map (turn desc)) := by
  have hback {cs ds : Bytes} (hcd : cs.map (turn desc) <+: ds.map (turn desc)) : cs <+: ds := by
    have hmap := hcd.map (turn desc)
    rwa [map_turn_turn, map_turn_turn] at hmap
  rintro (hstarts | hstarts)
  · rw [h (.inl (hback hstarts))]
  · rw [h (.inr (hback hstarts))]

theorem compare_part {v w : Value} {as bs : Bytes} (hv : encodeValue v = .ok as)
    (hw : encodeValue w = .ok bs) {desc : Bool} {x y : Bytes} :
    compare (as.map (turn desc) ++ x) (bs.map (turn desc) ++ y) =
      (if desc then (compare as bs).swap else compare as bs).then (compare x y) := by
  have hapart := encodeValue_apart hv hw
  rw [Bytes.compare_append (apart_turn hapart desc), compare_turn hapart]

theorem encodeValue_injective {v w : Value} {bs : Bytes} (hv : encodeValue v = .ok bs)
    (hw : encodeValue w = .ok bs) : v = w := by
  have hread := decodeValue_append hv false []
  rw [decodeValue_append hw] at hread
  exact (Prod.mk.inj (Except.ok.inj hread)).1.symm

end RowForest.KeyFormat
