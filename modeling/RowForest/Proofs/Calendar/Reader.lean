import RowForest.Calendar.Reader
import RowForest.Proofs.Calendar.Date
import RowForest.Proofs.Outcome

namespace RowForest.Calendar

theorem decimal_eq_ofDigitChars (cs : List Char) : decimal cs = Nat.ofDigitChars 10 cs 0 := by
  rw [Nat.ofDigitChars_eq_foldl]
  rfl

theorem toList_padded (w n : Nat) : (Date.padded w n).toList =
    List.replicate (w - (Nat.toDigits 10 n).length) '0' ++ Nat.toDigits 10 n := by
  simp [Date.padded]

theorem decimal_padded (w n : Nat) : decimal (Date.padded w n).toList = n := by
  rw [toList_padded, decimal_eq_ofDigitChars, Nat.ofDigitChars_append, Nat.ofDigitChars_replicate_zero,
    Nat.mul_zero, Nat.ofDigitChars_ten_toDigits]

theorem isDigit_of_mem_padded {w n : Nat} {c : Char} (h : c ∈ (Date.padded w n).toList) :
    c.isDigit = true := by
  rw [toList_padded] at h
  rcases List.mem_append.1 h with hc | hc
  · rw [List.eq_of_mem_replicate hc]
    rfl
  · exact Nat.isDigit_of_mem_toDigits (by omega) (by omega) hc

theorem length_padded {w n : Nat} (hw : 0 < w) (hn : n < 10 ^ w) : (Date.padded w n).toList.length = w := by
  have hle := (Nat.length_toDigits_le_iff (b := 10) (by omega) hw).2 hn
  rw [toList_padded, List.length_append, List.length_replicate]
  omega

theorem padded_ne_nil (w n : Nat) : (Date.padded w n).toList ≠ [] := by
  rw [toList_padded]
  simp [Nat.toDigits_ne_nil]

theorem number_append {ds rest : List Char} {width : Nat} (hne : ds ≠ [])
    (hds : ∀ c ∈ ds, c.isDigit = true) (hwidth : ds.length ≤ width)
    (hrest : ds.length = width ∨ ∀ c ∈ rest.head?, c.isDigit = false) :
    number width (ds ++ rest) = .ok (decimal ds, rest) := by
  obtain ⟨d, ds', rfl⟩ := List.exists_cons_of_ne_nil hne
  have htake : ((d :: ds' ++ rest).take width).takeWhile Char.isDigit = d :: ds' := by
    rw [List.take_append, List.take_of_length_le hwidth, List.takeWhile_append_of_pos hds]
    rcases hrest with hfull | hstop
    · simp [hfull]
    · cases hk : rest.take (width - (d :: ds').length) with
      | nil => simp
      | cons c cs =>
          have hhead : (rest.take (width - (d :: ds').length)).head? = some c := by rw [hk]; rfl
          have hc : c ∈ rest.head? := by
            rw [List.head?_take] at hhead
            split at hhead
            · cases hhead
            · exact hhead
          simp [hstop c hc]
  have hd : d.isDigit = true := hds d List.mem_cons_self
  simp only [number, List.cons_append, hd, if_true] at htake ⊢
  rw [htake]
  simp

theorem trimStart_of_not_blank {c : Char} {cs : List Char} (h : isBlank c = false) :
    trimStart (c :: cs) = c :: cs := by
  simp [trimStart, h]

theorem isBlank_of_isDigit {c : Char} (h : c.isDigit = true) : isBlank c = false := by
  simp only [Char.isDigit, Bool.and_eq_true, decide_eq_true_eq, UInt32.le_iff_toNat_le] at h
  have hlo : 48 ≤ c.toNat := h.1
  have hhi : c.toNat ≤ 57 := h.2
  simp [isBlank]
  omega

theorem literal_trimStart {c : Char} (hc : isBlank c = false) (cs : List Char) :
    literal c (trimStart (c :: cs)) = .ok cs := by
  simp [trimStart_of_not_blank hc, literal]

theorem trimStart_padded (w n : Nat) (rest : List Char) :
    trimStart ((Date.padded w n).toList ++ rest) = (Date.padded w n).toList ++ rest := by
  obtain ⟨c, cs, hcs⟩ := List.exists_cons_of_ne_nil (padded_ne_nil w n)
  rw [hcs, List.cons_append]
  apply trimStart_of_not_blank
  exact isBlank_of_isDigit (isDigit_of_mem_padded (by rw [hcs]; exact List.mem_cons_self))

theorem number_padded {w n : Nat} (hw : 0 < w) (hn : n < 10 ^ w) (rest : List Char) :
    number w ((Date.padded w n).toList ++ rest) = .ok (n, rest) := by
  have hlength := length_padded hw hn
  rw [number_append (padded_ne_nil w n) (fun c => isDigit_of_mem_padded) hlength.le (.inl hlength),
    decimal_padded]

theorem freeField_padded {lo hi n : Nat} (hlo : lo ≤ n) (hhi : n ≤ hi) (hn : n < 100)
    (rest : List Char) : freeField lo hi ((Date.padded 2 n).toList ++ rest) = .ok (n, rest) := by
  have hrange : ¬(n < lo ∨ hi < n) := by omega
  simp [freeField, trimStart_padded, number_padded (w := 2) (by omega) hn, hrange]

theorem padded_cons (w n : Nat) :
    ∃ c cs, (Date.padded w n).toList = c :: cs ∧ c.isDigit = true := by
  obtain ⟨c, cs, hcs⟩ := List.exists_cons_of_ne_nil (padded_ne_nil w n)
  exact ⟨c, cs, hcs, isDigit_of_mem_padded (by rw [hcs]; exact List.mem_cons_self)⟩

theorem freeYear_yearText {y : Int} (hlo : -2147483648 ≤ y) (hhi : y ≤ 2147483647)
    {rest : List Char} (hrest : ∀ c ∈ rest.head?, c.isDigit = false) :
    freeYear ((Date.yearText y).toList ++ rest) = .ok (y, rest) := by
  have hrange : ¬(y < -2147483648 ∨ 2147483647 < y) := by omega
  have hsigned : number ((Date.padded 4 y.natAbs).toList ++ rest).length
      ((Date.padded 4 y.natAbs).toList ++ rest) = .ok (y.natAbs, rest) := by
    rw [number_append (padded_ne_nil _ _) (fun c => isDigit_of_mem_padded) (by simp) (.inr hrest),
      decimal_padded]
  have hminus : isBlank '-' = false := by decide
  have hplus : isBlank '+' = false := by decide
  unfold Date.yearText
  split
  · next hplain =>
    obtain ⟨c, cs, hcs, hc⟩ := padded_cons 4 y.toNat
    have hnumber := number_padded (w := 4) (n := y.toNat) (by omega) (by omega) rest
    have htrim := trimStart_padded 4 y.toNat rest
    rw [hcs, List.cons_append] at hnumber htrim ⊢
    have hy : (y.toNat : Int) = y := by omega
    unfold freeYear
    rw [htrim]
    split
    · next heq =>
      rw [(List.cons.inj heq).1] at hc
      exact absurd hc (by decide)
    · next heq =>
      rw [(List.cons.inj heq).1] at hc
      exact absurd hc (by decide)
    · simp only [hnumber, Except.ok_bind, hy, if_neg hrange]
      rfl
  · next hsign =>
    by_cases hneg : y < 0
    · have hy : -(y.natAbs : Int) = y := by omega
      simp only [hneg, if_true, String.toList_append]
      show freeYear ('-' :: ((Date.padded 4 y.natAbs).toList ++ rest)) = _
      unfold freeYear
      rw [trimStart_of_not_blank hminus]
      simp only [hsigned, Except.ok_bind, hy, if_neg hrange]
      rfl
    · have hy : (y.natAbs : Int) = y := by omega
      simp only [hneg, if_false, String.toList_append]
      show freeYear ('+' :: ((Date.padded 4 y.natAbs).toList ++ rest)) = _
      unfold freeYear
      rw [trimStart_of_not_blank hplus]
      simp only [hsigned, Except.ok_bind, hy, if_neg hrange]
      rfl

theorem year_bounds (d : Date) : -2147483648 ≤ d.civil.year ∧ d.civil.year ≤ 2147483647 := by
  have hfirst := d.first
  have hlast := d.last
  unfold Date.civil
  dsimp only
  split <;> dsimp only <;> omega

theorem monthLength_le (y : Int) (m : Nat) : Date.monthLength y m ≤ 31 := by
  unfold Date.monthLength
  split_ifs <;> omega

theorem civil_bounds (d : Date) : 1 ≤ d.civil.month ∧ d.civil.month ≤ 12 ∧
    1 ≤ d.civil.day ∧ d.civil.day ≤ 31 := by
  have hvalid := Date.ofCivil?_civil d
  unfold Date.ofCivil? at hvalid
  split at hvalid
  · next h =>
    exact ⟨h.1, h.2.1, h.2.2.1, h.2.2.2.trans (monthLength_le _ _)⟩
  · cases hvalid

theorem freeDate_text (d : Date) (rest : List Char) : freeDate (d.text.toList ++ rest) =
    .ok ((d.civil.year, d.civil.month, d.civil.day), rest) := by
  obtain ⟨hyear, hyear'⟩ := year_bounds d
  obtain ⟨hmonth, hmonth', hday, hday'⟩ := civil_bounds d
  have hdash : isBlank '-' = false := by decide
  have htext : d.text.toList ++ rest = (Date.yearText d.civil.year).toList ++
      '-' :: ((Date.padded 2 d.civil.month).toList ++
        '-' :: ((Date.padded 2 d.civil.day).toList ++ rest)) := by
    simp [Date.text]
  rw [htext, freeDate, freeYear_yearText hyear hyear' (by simp)]
  simp only [Except.ok_bind, literal_trimStart hdash]
  rw [freeField_padded hmonth hmonth' (by omega)]
  simp only [Except.ok_bind, literal_trimStart hdash]
  rw [freeField_padded hday hday' (by omega)]
  rfl

theorem readFreeDate_text (d : Date) : readFreeDate d.text = .ok d := by
  have hdate := freeDate_text d []
  rw [List.append_nil] at hdate
  rw [readFreeDate, hdate]
  simp only [Except.ok_bind]
  rw [Date.ofCivil?_civil]
  rfl

theorem fractionText_cases {n : Nat} (hn : n < 1000000000) :
    n = 0 ∧ Timestamp.fractionText n = "" ∨ ∃ w m, Timestamp.fractionText n = "." ++ Date.padded w m ∧
      0 < w ∧ w ≤ 9 ∧ m < 10 ^ w ∧ m * 10 ^ (9 - w) = n := by
  unfold Timestamp.fractionText
  split_ifs with hzero hmilli hmicro
  · exact .inl ⟨hzero, rfl⟩
  · exact .inr ⟨3, n / 1000000, rfl, by omega, by omega, by omega, by omega⟩
  · exact .inr ⟨6, n / 1000, rfl, by omega, by omega, by omega, by omega⟩
  · exact .inr ⟨9, n, rfl, by omega, by omega, by omega, by omega⟩

theorem fraction_padded {w n : Nat} (hw : 0 < w) (hw' : w ≤ 9) (hn : n < 10 ^ w) :
    fraction ((Date.padded w n).toList ++ ['Z']) = .ok (n * 10 ^ (9 - w), ['Z']) := by
  have hlength := length_padded hw hn
  have hletter : ∀ c ∈ ['Z'].head?, c.isDigit = false := by simp
  rw [fraction, number_append (padded_ne_nil w n) (fun c => isDigit_of_mem_padded)
    (hlength.le.trans hw') (.inr hletter), decimal_padded]
  simp [hlength]

/-- The clock shows a leap second as the sixtieth, and reads it back as one. -/
theorem timeOfDay_clock (t : Timestamp) :
    let s := (t.seconds % 86400).toNat
    let leap := if t.nanos < 1000000000 then 0 else 1
    timeOfDay (s / 3600) (s / 60 % 60) (s % 60 + leap) (t.nanos % 1000000000) = .ok (s, t.nanos) := by
  have hnanos := t.nanos_lt
  dsimp only
  unfold timeOfDay
  split_ifs with hleap hvalid hsixty hvalid' hsixty'
  · omega
  · exact congrArg Except.ok (Prod.ext (by dsimp only; omega) (by dsimp only; omega))
  · omega
  · exact congrArg Except.ok (Prod.ext (by dsimp only; omega) (by dsimp only; omega))
  · omega
  · omega

theorem instant_date (t : Timestamp) :
    instant t.date ((t.seconds % 86400).toNat, t.nanos) 0 = some t := by
  have hseconds : (t.date.days - unixEpochDay) * 86400 + ((t.seconds % 86400).toNat : Int) - 0 =
      t.seconds := by
    simp only [Timestamp.date, unixEpochDay]
    omega
  rw [instant, hseconds, Timestamp.ofUnix?, dif_pos ⟨⟨t.first, t.last⟩, t.nanos_lt⟩]

theorem readFreeTimestamp_zonedText (t : Timestamp) :
    readFreeTimestamp (t.zonedText "Z") = .ok t := by
  have hcolon : isBlank ':' = false := by decide
  have hletter : trimStart ['Z'] = ['Z'] := by decide
  have hnamed : isNamedUtc ['Z'] = false := by decide
  have hend : trimStart [] = [] := rfl
  have hclock := timeOfDay_clock t
  have hinstant := instant_date t
  dsimp only at hclock
  obtain ⟨s, hs⟩ : ∃ s, (t.seconds % 86400).toNat = s := ⟨_, rfl⟩
  obtain ⟨leap, hleap⟩ : ∃ l, (if t.nanos < 1000000000 then 0 else 1) = l := ⟨_, rfl⟩
  have hlt : s < 86400 := by omega
  have hleap' : leap ≤ 1 := by rw [← hleap]; split <;> omega
  rw [hs, hleap] at hclock
  rw [hs] at hinstant
  have htext : (t.zonedText "Z").toList = t.date.text.toList ++ 'T' :: ((Date.padded 2 (s / 3600)).toList ++
      ':' :: ((Date.padded 2 (s / 60 % 60)).toList ++ ':' :: ((Date.padded 2 (s % 60 + leap)).toList ++
        ((Timestamp.fractionText (t.nanos % 1000000000)).toList ++ ['Z'])))) := by
    simp [Timestamp.zonedText, hs, hleap]
  rw [readFreeTimestamp, htext, freeDate_text]
  simp only [Except.ok_bind, true_or, if_true]
  rw [freeField_padded (by omega) (by omega) (by omega)]
  simp only [Except.ok_bind, literal_trimStart hcolon]
  rw [freeField_padded (by omega) (by omega) (by omega)]
  simp only [Except.ok_bind, literal_trimStart hcolon]
  rw [freeField_padded (by omega) (by omega) (by omega)]
  simp only [Except.ok_bind]
  rcases fractionText_cases (Nat.mod_lt t.nanos (by omega)) with ⟨hzero, hnone⟩ |
    ⟨w, m, hsome, hw, hw', hm, hvalue⟩
  · rw [hzero] at hclock
    simp [hnone, hletter, hnamed, isZulu, hend, Date.ofCivil?_civil, hclock, hinstant]
  · simp [hsome, fraction_padded hw hw' hm, hvalue, hletter, hnamed, isZulu, hend,
      Date.ofCivil?_civil, hclock, hinstant]

end RowForest.Calendar
