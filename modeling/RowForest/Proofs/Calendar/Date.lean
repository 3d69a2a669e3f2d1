import RowForest.Calendar.Date
import Mathlib.Tactic.IntervalCases

namespace RowForest.Date

theorem ofDays?_days (d : Date) : ofDays? d.days = some d := by
  rw [ofDays?, dif_pos ⟨d.first, d.last⟩]

/-- A day of the cycle of 400 years by its century, its group of four years, its year
there and its day of that year, which is the 366th only at the end of a leap year. -/
theorem exists_split {n : Nat} (hn : n < 146097) : ∃ e q s r,
    n = 36524 * e + 1461 * q + 365 * s + r ∧ e ≤ 3 ∧ q ≤ 24 ∧ s ≤ 3 ∧
      (r < 365 ∨ r = 365 ∧ s = 3 ∧ (q = 24 → e = 3)) := by
  obtain ⟨e, he, hlo, hhi⟩ : ∃ e ≤ 3, 36524 * e ≤ n ∧ n ≤ 36524 * e + 36523 + e / 3 :=
    ⟨min 3 (n / 36524), by omega, by omega, by omega⟩
  obtain ⟨k, rfl⟩ := Nat.exists_eq_add_of_le hlo
  have hk : k ≤ 36523 + e / 3 := by omega
  refine ⟨e, k / 1461, min 3 (k % 1461 / 365), k % 1461 - 365 * min 3 (k % 1461 / 365), ?_, he,
    ?_, ?_, ?_⟩ <;> omega

theorem year_eq {n e q s r : Nat} (hn : n = 36524 * e + 1461 * q + 365 * s + r) (he : e ≤ 3)
    (hq : q ≤ 24) (hs : s ≤ 3) (hr : r < 365 ∨ r = 365 ∧ s = 3 ∧ (q = 24 → e = 3)) :
    (n - n / 1460 + n / 36524 - n / 146096) / 365 = 100 * e + 4 * q + s := by
  have hlast : n / 146096 = if e = 3 ∧ q = 24 ∧ s = 3 ∧ r = 365 then 1 else 0 := by
    split <;> omega
  have hcentury : n / 36524 - n / 146096 = e := by omega
  have hgroup : n / 1460 = 25 * e + q + (24 * e + q + 365 * s + r) / 1460 := by omega
  omega

theorem leapYear_of_last {e q : Nat} (cycle : Int) (hq : q ≤ 24)
    (h : q = 24 → e = 3) : leapYear ((100 * e + 4 * q + 3 : Nat) + cycle * 400 + 1) = true := by
  simp only [leapYear, Bool.and_eq_true, Bool.or_eq_true, decide_eq_true_eq, bne_iff_ne]
  omega

theorem day_le_monthLength {r s q e : Nat} (cycle : Int) (hq : q ≤ 24) (hs : s ≤ 3)
    (hr : r < 365 ∨ r = 365 ∧ s = 3 ∧ (q = 24 → e = 3)) :
    r - (153 * ((5 * r + 2) / 153) + 2) / 5 + 1 ≤
      if (5 * r + 2) / 153 < 10 then
        monthLength ((100 * e + 4 * q + s : Nat) + cycle * 400) ((5 * r + 2) / 153 + 3)
      else monthLength ((100 * e + 4 * q + s : Nat) + cycle * 400 + 1) ((5 * r + 2) / 153 - 9) := by
  have hm : (5 * r + 2) / 153 ≤ 11 := by omega
  have hlast : r = 365 → leapYear ((100 * e + 4 * q + s : Nat) + cycle * 400 + 1) = true := by
    intro h
    obtain ⟨rfl, hcentury⟩ : s = 3 ∧ (q = 24 → e = 3) := by omega
    exact leapYear_of_last cycle hq hcentury
  generalize hmonth : (5 * r + 2) / 153 = m at hm ⊢
  unfold monthLength
  by_cases hleap : leapYear ((100 * e + 4 * q + s : Nat) + cycle * 400 + 1) = true
  · simp only [hleap, if_true]
    interval_cases m <;> simp <;> omega
  · have hshort : r < 365 := by
      by_contra h
      exact hleap (hlast (by omega))
    simp only [hleap]
    interval_cases m <;> simp <;> omega

theorem dayNumber_early {y m day : Nat} (cycle : Int) (hy : y < 400) (hm : m < 10) :
    dayNumber (y + cycle * 400) (m + 3) day =
      cycle * 146097 + (y * 365 + y / 4 - y / 100 + (153 * m + 2) / 5 + day : Nat) - 306 := by
  have hyear : ((y + cycle * 400 : Int) % 400).toNat = y := by omega
  have hcycle : (y + cycle * 400 : Int) / 400 = cycle := by omega
  simp only [dayNumber, if_neg (by omega : ¬m + 3 ≤ 2), hyear, hcycle, Nat.add_sub_cancel]

theorem dayNumber_late {y m day : Nat} (cycle : Int) (hy : y < 400) (hm : 10 ≤ m) (hm' : m ≤ 11) :
    dayNumber (y + cycle * 400 + 1) (m - 9) day =
      cycle * 146097 + (y * 365 + y / 4 - y / 100 + (153 * m + 2) / 5 + day : Nat) - 306 := by
  have hyear : ((y + cycle * 400 + 1 - 1 : Int) % 400).toNat = y := by omega
  have hcycle : (y + cycle * 400 + 1 - 1 : Int) / 400 = cycle := by omega
  simp only [dayNumber, if_pos (by omega : m - 9 ≤ 2), hyear, hcycle,
    Nat.sub_add_cancel (by omega : 9 ≤ m)]

theorem days_before {e q s y : Nat} (hq : q ≤ 24) (hs : s ≤ 3) (hy : 100 * e + 4 * q + s = y) :
    365 * y + y / 4 - y / 100 = 36524 * e + 1461 * q + 365 * s := by
  have hgroup : y / 4 = 25 * e + q := by omega
  have hcentury : y / 100 = e := by omega
  omega

theorem month_days (r : Nat) : (153 * ((5 * r + 2) / 153) + 2) / 5 +
    (r - (153 * ((5 * r + 2) / 153) + 2) / 5 + 1) = r + 1 := by
  have hwithin : (153 * ((5 * r + 2) / 153) + 2) / 5 ≤ r := by omega
  rw [← Nat.add_assoc, Nat.add_sub_cancel' hwithin]

theorem ofCivil?_civil (d : Date) : ofCivil? d.civil.year d.civil.month d.civil.day = some d := by
  obtain ⟨n, hn⟩ : ∃ n : Nat, ((d.days + 305) % 146097).toNat = n := ⟨_, rfl⟩
  obtain ⟨cycle, hcycle⟩ : ∃ c : Int, (d.days + 305) / 146097 = c := ⟨_, rfl⟩
  have hdays : d.days + 305 = cycle * 146097 + n := by omega
  obtain ⟨e, q, s, r, hsplit, he, hq, hs, hr⟩ := exists_split (by omega : n < 146097)
  have hyear := year_eq hsplit he hq hs hr
  have hlength := day_le_monthLength cycle hq hs hr
  obtain ⟨y, hy⟩ : ∃ y, 100 * e + 4 * q + s = y := ⟨_, rfl⟩
  have hbefore := days_before hq hs hy
  have hrest : n - (365 * y + y / 4 - y / 100) = r := by
    rw [hbefore, hsplit, Nat.add_sub_cancel_left]
  have hm : (5 * r + 2) / 153 ≤ 11 := by omega
  rw [hy] at hyear hlength
  have hcivil : d.civil = if (5 * r + 2) / 153 < 10 then
      ⟨y + cycle * 400, (5 * r + 2) / 153 + 3, r - (153 * ((5 * r + 2) / 153) + 2) / 5 + 1⟩
      else ⟨y + cycle * 400 + 1, (5 * r + 2) / 153 - 9,
        r - (153 * ((5 * r + 2) / 153) + 2) / 5 + 1⟩ := by
    simp only [civil, hn, hcycle, hyear, hrest]
  have hsum : (y * 365 + y / 4 - y / 100 + (153 * ((5 * r + 2) / 153) + 2) / 5 +
      (r - (153 * ((5 * r + 2) / 153) + 2) / 5 + 1) : Nat) = n + 1 := by
    rw [Nat.mul_comm y 365, hbefore, Nat.add_assoc, month_days, ← Nat.add_assoc, ← hsplit]
  have hnumber : cycle * 146097 + ((n + 1 : Nat) : Int) - 306 = d.days := by omega
  have hy' : y < 400 := by omega
  clear hyear hn hcycle hdays hsplit hrest hbefore
  rw [hcivil]
  split at hlength
  · next hearly =>
    have hvalid : 1 ≤ (5 * r + 2) / 153 + 3 ∧ (5 * r + 2) / 153 + 3 ≤ 12 := by omega
    rw [if_pos hearly, ofCivil?, if_pos ⟨hvalid.1, hvalid.2, Nat.le_add_left _ _, hlength⟩,
      dayNumber_early cycle hy' hearly, hsum, hnumber, ofDays?_days]
  · next hlate =>
    have hvalid : 1 ≤ (5 * r + 2) / 153 - 9 ∧ (5 * r + 2) / 153 - 9 ≤ 12 := by omega
    rw [if_neg hlate, ofCivil?, if_pos ⟨hvalid.1, hvalid.2, Nat.le_add_left _ _, hlength⟩,
      dayNumber_late cycle hy' (by omega) hm, hsum, hnumber, ofDays?_days]

end RowForest.Date
