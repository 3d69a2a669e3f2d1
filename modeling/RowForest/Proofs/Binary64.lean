import RowForest.Binary64
import Mathlib.Algebra.Order.Ring.Nat
import Mathlib.Tactic.Linarith
import Mathlib.Tactic.Ring

namespace RowForest.Binary64

variable {k m n d : Nat}

theorem fractions_pos : 0 < fractions := Nat.two_pow_pos 52

theorem div_le_roundHalfEven (n d : Nat) : n / d ≤ roundHalfEven n d := by
  unfold roundHalfEven
  dsimp only
  split <;> omega

theorem roundHalfEven_le (n d : Nat) : roundHalfEven n d ≤ n / d + 1 := by
  unfold roundHalfEven
  dsimp only
  split <;> omega

theorem roundHalfEven_mono (h : m ≤ n) (d : Nat) : roundHalfEven m d ≤ roundHalfEven n d := by
  rcases Nat.lt_or_eq_of_le (Nat.div_le_div_right (c := d) h) with hlt | heq
  · calc roundHalfEven m d ≤ m / d + 1 := roundHalfEven_le m d
      _ ≤ n / d := hlt
      _ ≤ roundHalfEven n d := div_le_roundHalfEven n d
  · have hmod : m % d ≤ n % d := by
      have hm := Nat.div_add_mod m d
      have hn := Nat.div_add_mod n d
      rw [heq] at hm
      omega
    -- of one quotient, the larger rest is not rounded down where the smaller one is rounded up
    unfold roundHalfEven
    dsimp only
    rw [heq]
    split <;> split <;> simp_all only [Nat.compare_eq_lt, Nat.compare_eq_gt, Nat.compare_eq_eq] <;> omega

theorem roundHalfEven_mul (q : Nat) (hd : 0 < d) : roundHalfEven (q * d) d = q := by
  have hlow : compare 0 d = .lt := Nat.compare_eq_lt.2 hd
  simp only [roundHalfEven, Nat.mul_div_cancel _ hd, Nat.mul_mod_left, Nat.mul_zero, hlow]

theorem log2_bounds (hn : 0 < n) : 2 ^ n.log2 ≤ n ∧ n < 2 ^ (n.log2 + 1) :=
  ⟨Nat.log2_self_le hn.ne', Nat.lt_log2_self⟩

theorem log2_mono (hm : 0 < m) (h : m ≤ n) : m.log2 ≤ n.log2 := by
  rw [Nat.le_log2 (hm.trans_le h).ne']
  exact (log2_bounds hm).1.trans h

/-- A magnitude lies in the binade of its integer, or is the beginning of the next one. -/
theorem magnitudeOf_bounds (hn : 0 < n) : (n.log2 + 1023) * fractions ≤ magnitudeOf n ∧
    magnitudeOf n ≤ (n.log2 + 1024) * fractions := by
  obtain ⟨hlo, hhi⟩ := log2_bounds hn
  have hpos := Nat.two_pow_pos n.log2
  have hfrom : fractions ≤ roundHalfEven (n * fractions) (2 ^ n.log2) := by
    refine le_trans ?_ (div_le_roundHalfEven _ _)
    rw [Nat.le_div_iff_mul_le hpos, Nat.mul_comm]
    exact Nat.mul_le_mul_right _ hlo
  have hto : roundHalfEven (n * fractions) (2 ^ n.log2) ≤ 2 * fractions := by
    have hmul : n * fractions ≤ 2 * fractions * 2 ^ n.log2 := by
      rw [Nat.mul_right_comm, ← Nat.pow_succ']
      exact Nat.mul_le_mul_right _ hhi.le
    exact (roundHalfEven_mono hmul _).trans (roundHalfEven_mul _ hpos).le
  unfold magnitudeOf
  dsimp only
  constructor <;> nlinarith

theorem magnitudeOf_mono (hm : 0 < m) (h : m ≤ n) : magnitudeOf m ≤ magnitudeOf n := by
  rcases Nat.lt_or_eq_of_le (log2_mono hm h) with hlt | heq
  · calc magnitudeOf m ≤ (m.log2 + 1024) * fractions := (magnitudeOf_bounds hm).2
      _ ≤ (n.log2 + 1023) * fractions := Nat.mul_le_mul_right _ (by omega)
      _ ≤ magnitudeOf n := (magnitudeOf_bounds (hm.trans_le h)).1
  · unfold magnitudeOf
    rw [heq]
    exact Nat.add_le_add_left (roundHalfEven_mono (Nat.mul_le_mul_right _ h) _) _

theorem magnitudeOf_exact (h : n.log2 ≤ 52) :
    magnitudeOf n = (n.log2 + 1022) * fractions + n * 2 ^ (52 - n.log2) := by
  have hsplit : n * fractions = n * 2 ^ (52 - n.log2) * 2 ^ n.log2 := by
    rw [Nat.mul_assoc, ← Nat.pow_add, Nat.sub_add_cancel h, fractions]
  rw [magnitudeOf, hsplit, roundHalfEven_mul _ (Nat.two_pow_pos _)]

theorem magnitudeOf_lt (hm : 0 < m) (h : m < n) (hn : n ≤ 2 ^ 53) : magnitudeOf m < magnitudeOf n := by
  have hm52 : m.log2 ≤ 52 := Nat.lt_succ_iff.1 ((Nat.log2_lt hm.ne').2 (h.trans_le hn))
  rcases Nat.lt_or_eq_of_le (log2_mono hm h.le) with hlt | heq
  · have htop : m * 2 ^ (52 - m.log2) < 2 * fractions := by
      have hmul := Nat.mul_lt_mul_of_pos_right (log2_bounds hm).2 (Nat.two_pow_pos (52 - m.log2))
      rwa [← Nat.pow_add, (by omega : m.log2 + 1 + (52 - m.log2) = 52 + 1), Nat.pow_succ'] at hmul
    calc magnitudeOf m = (m.log2 + 1022) * fractions + m * 2 ^ (52 - m.log2) := magnitudeOf_exact hm52
      _ < (m.log2 + 1022) * fractions + 2 * fractions := Nat.add_lt_add_left htop _
      _ = (m.log2 + 1 + 1023) * fractions := by ring
      _ ≤ (n.log2 + 1023) * fractions := Nat.mul_le_mul_right _ (by omega)
      _ ≤ magnitudeOf n := (magnitudeOf_bounds (hm.trans h)).1
  · rw [magnitudeOf_exact hm52, magnitudeOf_exact (heq ▸ hm52), heq]
    exact Nat.add_lt_add_left (Nat.mul_lt_mul_of_pos_right h (Nat.two_pow_pos _)) _

theorem magnitudeOf_le (hn : 0 < n) (h : n ≤ 2 ^ 63) : magnitudeOf n ≤ 1087 * fractions := by
  have hlog : n.log2 ≤ 63 := by
    rw [← Nat.lt_succ_iff, Nat.log2_lt hn.ne']
    omega
  exact (magnitudeOf_bounds hn).2.trans (Nat.mul_le_mul_right _ (by omega))

variable {i j : Int64}

theorem magnitude_ofInt_le (i : Int64) :
    (if i.toInt = 0 then 0 else magnitudeOf i.toInt.natAbs) ≤ 1087 * fractions := by
  have hlo := i.le_toInt
  have hhi := i.toInt_lt
  split_ifs with hzero
  · exact Nat.zero_le _
  · exact magnitudeOf_le (by omega) (by omega)

theorem toNat_bits_ofInt (i : Int64) : (ofInt i).bits.toNat = (if i.toInt < 0 then 2 ^ 63 else 0) +
    if i.toInt = 0 then 0 else magnitudeOf i.toInt.natAbs := by
  have hle := magnitude_ofInt_le i
  have hfractions : fractions = 2 ^ 52 := rfl
  unfold ofInt
  dsimp only
  rw [UInt64.toNat_ofNat_of_lt']
  · split_ifs <;> omega
  · split_ifs at hle ⊢ <;> simp only [UInt64.size] <;> omega

theorem magnitude_ofInt (i : Int64) :
    (ofInt i).magnitude = if i.toInt = 0 then 0 else magnitudeOf i.toInt.natAbs := by
  have hle := magnitude_ofInt_le i
  have hfractions : fractions = 2 ^ 52 := rfl
  rw [magnitude, toNat_bits_ofInt]
  split_ifs at hle ⊢ <;> omega

theorem negative_ofInt (i : Int64) : (ofInt i).negative = decide (i.toInt < 0) := by
  have hle := magnitude_ofInt_le i
  have hfractions : fractions = 2 ^ 52 := rfl
  rw [negative, toNat_bits_ofInt, decide_eq_decide]
  split_ifs at hle ⊢ <;> omega

@[simp] theorem isNaN_ofInt (i : Int64) : (ofInt i).isNaN = false := by
  have hle := magnitude_ofInt_le i
  have hpos := fractions_pos
  rw [isNaN, magnitude_ofInt, infinity, decide_eq_false_iff_not]
  omega

theorem rank_ofInt (i : Int64) : (ofInt i).rank = if i.toInt < 0 then -(magnitudeOf i.toInt.natAbs : Int)
    else if i.toInt = 0 then 0 else magnitudeOf i.toInt.natAbs := by
  simp only [rank, magnitude_ofInt, negative_ofInt, decide_eq_true_eq]
  split_ifs <;> omega

theorem magnitudeOf_natAbs_pos {k : Int} (hk : k ≠ 0) : 0 < magnitudeOf k.natAbs :=
  (Nat.mul_pos (Nat.succ_pos _) fractions_pos).trans_le (magnitudeOf_bounds (Int.natAbs_pos.2 hk)).1

theorem rank_ofInt_mono (h : i.toInt ≤ j.toInt) : (ofInt i).rank ≤ (ofInt j).rank := by
  have hup (hi : 0 < i.toInt) : magnitudeOf i.toInt.natAbs ≤ magnitudeOf j.toInt.natAbs :=
    magnitudeOf_mono (by omega) (by omega)
  have hdown (hj : j.toInt < 0) : magnitudeOf j.toInt.natAbs ≤ magnitudeOf i.toInt.natAbs :=
    magnitudeOf_mono (by omega) (by omega)
  have hi := magnitudeOf_natAbs_pos (k := i.toInt)
  have hj := magnitudeOf_natAbs_pos (k := j.toInt)
  rw [rank_ofInt, rank_ofInt]
  split_ifs <;> omega

theorem lt_of_rank_ofInt (h : (ofInt i).rank < (ofInt j).rank) : i.toInt < j.toInt := by
  by_contra hle
  exact absurd h (rank_ofInt_mono (Int.not_lt.1 hle)).not_gt

/-- Different integers up to `2 ^ 53` have different floats. -/
theorem eq_of_rank_ofInt (hi : i.toInt.natAbs ≤ 2 ^ 53) (hj : j.toInt.natAbs ≤ 2 ^ 53)
    (h : (ofInt i).rank = (ofInt j).rank) : i = j := by
  have hbefore (hne : i.toInt ≠ 0) (hlt : i.toInt.natAbs < j.toInt.natAbs) :
      magnitudeOf i.toInt.natAbs < magnitudeOf j.toInt.natAbs :=
    magnitudeOf_lt (Int.natAbs_pos.2 hne) hlt hj
  have hafter (hne : j.toInt ≠ 0) (hlt : j.toInt.natAbs < i.toInt.natAbs) :
      magnitudeOf j.toInt.natAbs < magnitudeOf i.toInt.natAbs :=
    magnitudeOf_lt (Int.natAbs_pos.2 hne) hlt hi
  have hi := magnitudeOf_natAbs_pos (k := i.toInt)
  have hj := magnitudeOf_natAbs_pos (k := j.toInt)
  rw [← Int64.toInt_inj]
  rw [rank_ofInt, rank_ofInt] at h
  split_ifs at h <;> omega

end RowForest.Binary64
