import RowForest.Bytes
import Mathlib.Tactic.Ring
import Mathlib.Data.List.Nodup

namespace RowForest.Bytes

@[simp] theorem length_littleEndian (w n : Nat) : (littleEndian w n).length = w := by
  induction w generalizing n with
  | zero => rfl
  | succ w ih => simp [littleEndian, ih]

@[simp] theorem length_bigEndian (w n : Nat) : (bigEndian w n).length = w := by
  induction w generalizing n with
  | zero => rfl
  | succ w ih => simp [bigEndian, ih]

theorem ofLittleEndian_littleEndian {w n : Nat} (h : n < 256 ^ w) :
    ofLittleEndian (littleEndian w n) = n := by
  induction w generalizing n with
  | zero => simp [littleEndian, ofLittleEndian] at h ⊢; omega
  | succ w ih =>
      have hdiv : n / 256 < 256 ^ w := by
        rw [Nat.pow_succ] at h
        omega
      simp only [littleEndian, ofLittleEndian, ih hdiv, UInt8.toNat_ofNat']
      omega

theorem foldl_bigEndian (w n a : Nat) :
    (bigEndian w n).foldl (fun n b => 256 * n + b.toNat) a = a * 256 ^ w + n % 256 ^ w := by
  induction w generalizing a with
  | zero => simp [bigEndian, Nat.mod_one]
  | succ w ih =>
      have hsplit : n % 256 ^ (w + 1) = n % 256 ^ w + 256 ^ w * (n / 256 ^ w % 256) := by
        rw [Nat.pow_succ, Nat.mod_mul]
      simp only [bigEndian, List.foldl_cons, ih, UInt8.toNat_ofNat', hsplit]
      ring

theorem ofBigEndian_bigEndian {w n : Nat} (h : n < 256 ^ w) : ofBigEndian (bigEndian w n) = n := by
  rw [ofBigEndian, foldl_bigEndian, Nat.mod_eq_of_lt h]
  simp

theorem foldl_ofBigEndian (bs : Bytes) (a : Nat) :
    bs.foldl (fun n b => 256 * n + b.toNat) a = a * 256 ^ bs.length + ofBigEndian bs := by
  induction bs generalizing a with
  | nil => simp [ofBigEndian]
  | cons b bs ih =>
      rw [ofBigEndian, List.foldl_cons, List.foldl_cons, ih, ih, List.length_cons]
      ring

theorem ofBigEndian_cons (b : UInt8) (bs : Bytes) :
    ofBigEndian (b :: bs) = b.toNat * 256 ^ bs.length + ofBigEndian bs := by
  rw [ofBigEndian, List.foldl_cons, foldl_ofBigEndian, Nat.mul_zero, Nat.zero_add]

theorem ofBigEndian_lt (bs : Bytes) : ofBigEndian bs < 256 ^ bs.length := by
  induction bs with
  | nil => exact Nat.one_pos
  | cons b bs ih =>
      have hmul : (b.toNat + 1) * 256 ^ bs.length ≤ 256 * 256 ^ bs.length :=
        Nat.mul_le_mul_right _ b.toNat_lt
      rw [ofBigEndian_cons, List.length_cons, Nat.pow_succ']
      rw [Nat.succ_mul] at hmul
      omega

theorem bigEndian_mul_add (w a n : Nat) : bigEndian w (a * 256 ^ w + n) = bigEndian w n := by
  induction w generalizing a with
  | zero => rfl
  | succ w ih =>
      have hsplit : a * 256 ^ (w + 1) + n = a * 256 * 256 ^ w + n := by ring
      have hhead : (a * 256 * 256 ^ w + n) / 256 ^ w = a * 256 + n / 256 ^ w := by
        rw [Nat.add_comm, Nat.add_mul_div_right _ _ (Nat.pow_pos (by omega)), Nat.add_comm]
      have hbyte : UInt8.ofNat (a * 256 + n / 256 ^ w) = .ofNat (n / 256 ^ w) := by
        rw [← UInt8.toNat_inj, UInt8.toNat_ofNat', UInt8.toNat_ofNat']
        omega
      rw [bigEndian, bigEndian, hsplit, ih, hhead, hbyte]

theorem bigEndian_ofBigEndian {w : Nat} {bs : Bytes} (h : bs.length = w) : bigEndian w (ofBigEndian bs) = bs := by
  subst h
  induction bs with
  | nil => rfl
  | cons b bs ih =>
      have hdiv : (b.toNat * 256 ^ bs.length + ofBigEndian bs) / 256 ^ bs.length = b.toNat := by
        rw [Nat.add_comm, Nat.add_mul_div_right _ _ (Nat.pow_pos (by omega)),
          Nat.div_eq_of_lt (ofBigEndian_lt bs), Nat.zero_add]
      rw [ofBigEndian_cons, List.length_cons, bigEndian, hdiv, bigEndian_mul_add, ih, UInt8.ofNat_toNat]

theorem compare_toNat (a b : UInt8) : compare a b = compare a.toNat b.toNat := by
  simp only [compare, compareOfLessAndEq, UInt8.lt_iff_toNat_lt, ← UInt8.toNat_inj]

theorem compare_eq_lt {a b : UInt8} : compare a b = .lt ↔ a.toNat < b.toNat := by
  rw [compare_toNat, Nat.compare_eq_lt]

theorem compare_eq_eq {a b : UInt8} : compare a b = .eq ↔ a = b := by
  rw [compare_toNat, Nat.compare_eq_eq, UInt8.toNat_inj]

theorem compare_digit {k a b h g : Nat} (ha : a < k) (hb : b < k) :
    compare (a + k * h) (b + k * g) = (compare h g).then (compare a b) := by
  rcases Nat.lt_trichotomy h g with hlt | rfl | hgt
  · have hmul : k * (h + 1) ≤ k * g := Nat.mul_le_mul_left k hlt
    rw [Nat.mul_succ] at hmul
    rw [Nat.compare_eq_lt.2 hlt, Nat.compare_eq_lt.2 (by omega)]
    rfl
  · rw [Nat.compare_eq_eq.2 rfl]
    simp only [Ordering.then]
    rcases Nat.lt_trichotomy a b with hab | rfl | hab
    · rw [Nat.compare_eq_lt.2 hab, Nat.compare_eq_lt.2 (by omega)]
    · rw [Nat.compare_eq_eq.2 rfl, Nat.compare_eq_eq.2 rfl]
    · rw [Nat.compare_eq_gt.2 hab, Nat.compare_eq_gt.2 (by omega)]
  · have hmul : k * (g + 1) ≤ k * h := Nat.mul_le_mul_left k hgt
    rw [Nat.mul_succ] at hmul
    rw [Nat.compare_eq_gt.2 hgt, Nat.compare_eq_gt.2 (by omega)]
    rfl

theorem compare_bigEndian (w m n : Nat) :
    compare (bigEndian w m) (bigEndian w n) = compare (m % 256 ^ w) (n % 256 ^ w) := by
  induction w with
  | zero => simp [bigEndian, Nat.mod_one]
  | succ w ih =>
      have hpos : 0 < 256 ^ w := Nat.pow_pos (by omega)
      rw [bigEndian, bigEndian, List.compare_cons_cons, ih, Nat.pow_succ, Nat.mod_mul, Nat.mod_mul,
        compare_digit (Nat.mod_lt _ hpos) (Nat.mod_lt _ hpos), compare_toNat]
      simp only [UInt8.toNat_ofNat']

theorem compare_bigEndian_of_lt {w m n : Nat} (hm : m < 256 ^ w) (hn : n < 256 ^ w) :
    compare (bigEndian w m) (bigEndian w n) = compare m n := by
  rw [compare_bigEndian, Nat.mod_eq_of_lt hm, Nat.mod_eq_of_lt hn]

/-- Whether two texts differ before one of them ends, if they differ. -/
def Apart (as bs : Bytes) : Prop := as <+: bs ∨ bs <+: as → as = bs

variable {as bs x y : Bytes}

theorem apart_of_length (h : as.length = bs.length) : Apart as bs := by
  rintro (hstarts | hstarts)
  · exact hstarts.eq_of_length h
  · exact (hstarts.eq_of_length h.symm).symm

theorem Apart.tail {a : UInt8} (h : Apart (a :: as) (a :: bs)) : Apart as bs := by
  intro hstarts
  have hlonger (xs ys : Bytes) (hxy : xs <+: ys) : a :: xs <+: a :: ys :=
    List.cons_prefix_cons.2 ⟨rfl, hxy⟩
  exact (List.cons.inj (h (hstarts.imp (hlonger as bs) (hlonger bs as)))).2

theorem not_apart_nil (b : UInt8) (bs : Bytes) : ¬Apart [] (b :: bs) ∧ ¬Apart (b :: bs) [] := by
  constructor
  · intro h
    simpa using h (.inl List.nil_prefix)
  · intro h
    simpa using h (.inr List.nil_prefix)

theorem compare_append (h : Apart as bs) :
    compare (as ++ x) (bs ++ y) = (compare as bs).then (compare x y) := by
  induction as generalizing bs with
  | nil =>
      cases bs with
      | nil => rfl
      | cons b bs => exact absurd h (not_apart_nil b bs).1
  | cons a as ih =>
      cases bs with
      | nil => exact absurd h (not_apart_nil a as).2
      | cons b bs =>
          by_cases hab : a = b
          · subst hab
            simp [List.compare_cons_cons, ih h.tail]
          · have hne : compare a b ≠ .eq := fun heq => hab (compare_eq_eq.1 heq)
            simp only [List.cons_append, List.compare_cons_cons]
            cases hcompare : compare a b <;> simp_all

end RowForest.Bytes
