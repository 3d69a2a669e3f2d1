import RowForest.Text.Utf8
import Mathlib.Tactic.Common

namespace RowForest.Utf8

theorem scalar_bounds (c : Char) : c.toNat < 0xD800 ∨ 0xDFFF < c.toNat ∧ c.toNat < 0x110000 :=
  c.valid

theorem toNat_ofNat_of_lt {n : Nat} (h : n < 256) : (UInt8.ofNat n).toNat = n := by
  simp [Nat.mod_eq_of_lt h]

theorem head_one {c : Char} (hc : c.toNat < 0x80) (rest : Bytes) :
    head (.ofNat c.toNat) rest = .char c 0 := by
  simp [head, toNat_ofNat_of_lt (by omega : c.toNat < 256), hc, Char.ofNat_toNat]

theorem complete_cons {n k lo hi : Nat} {bounds : List (Nat × Nat)} {t : Nat} {rest : Bytes}
    (ht : t < 256) (hlo : lo ≤ t) (hhi : t ≤ hi) :
    complete n k ((lo, hi) :: bounds) (.ofNat t :: rest) =
      complete (64 * n + (t - 0x80)) (k + 1) bounds rest := by
  simp [complete, Nat.mod_eq_of_lt ht, hlo, hhi]

theorem head_two {c : Char} (h : ¬c.toNat < 0x80) (hc : c.toNat < 0x800) (rest : Bytes) :
    head (.ofNat (0xC0 + c.toNat / 64)) (.ofNat (0x80 + c.toNat % 64) :: rest) = .char c 1 := by
  have hn : (UInt8.ofNat (0xC0 + c.toNat / 64)).toNat = 0xC0 + c.toNat / 64 :=
    toNat_ofNat_of_lt (by omega)
  simp only [head, hn]
  rw [if_neg (by omega), if_pos (by omega), complete_cons (by omega) (by omega) (by omega)]
  have hvalue : 64 * (0xC0 + c.toNat / 64 - 0xC0) + (0x80 + c.toNat % 64 - 0x80) = c.toNat := by omega
  simp only [complete, hvalue, Char.ofNat_toNat]

theorem head_three {c : Char} (h : ¬c.toNat < 0x800) (hc : c.toNat < 0x10000) (rest : Bytes) :
    head (.ofNat (0xE0 + c.toNat / 4096))
      (.ofNat (0x80 + c.toNat / 64 % 64) :: .ofNat (0x80 + c.toNat % 64) :: rest) = .char c 2 := by
  have hs := scalar_bounds c
  have hn : (UInt8.ofNat (0xE0 + c.toNat / 4096)).toNat = 0xE0 + c.toNat / 4096 :=
    toNat_ofNat_of_lt (by omega)
  simp only [head, hn]
  rw [if_neg (by omega), if_neg (by omega), if_pos (by omega)]
  obtain ⟨lo, hi, hsecond, hlo, hhi⟩ : ∃ lo hi, second (0xE0 + c.toNat / 4096) = (lo, hi) ∧
      lo ≤ 0x80 + c.toNat / 64 % 64 ∧ 0x80 + c.toNat / 64 % 64 ≤ hi := by
    unfold second
    split_ifs <;> exact ⟨_, _, rfl, by omega, by omega⟩
  rw [hsecond, complete_cons (by omega) hlo hhi, complete_cons (by omega) (by omega) (by omega)]
  have hvalue : 64 * (64 * (0xE0 + c.toNat / 4096 - 0xE0) + (0x80 + c.toNat / 64 % 64 - 0x80)) +
      (0x80 + c.toNat % 64 - 0x80) = c.toNat := by omega
  simp only [complete, hvalue, Char.ofNat_toNat]

theorem head_four {c : Char} (h : ¬c.toNat < 0x10000) (rest : Bytes) :
    head (.ofNat (0xF0 + c.toNat / 262144))
      (.ofNat (0x80 + c.toNat / 4096 % 64) :: .ofNat (0x80 + c.toNat / 64 % 64) ::
        .ofNat (0x80 + c.toNat % 64) :: rest) = .char c 3 := by
  have hs := scalar_bounds c
  have hn : (UInt8.ofNat (0xF0 + c.toNat / 262144)).toNat = 0xF0 + c.toNat / 262144 :=
    toNat_ofNat_of_lt (by omega)
  simp only [head, hn]
  rw [if_neg (by omega), if_neg (by omega), if_neg (by omega), if_pos (by omega)]
  obtain ⟨lo, hi, hsecond, hlo, hhi⟩ : ∃ lo hi, second (0xF0 + c.toNat / 262144) = (lo, hi) ∧
      lo ≤ 0x80 + c.toNat / 4096 % 64 ∧ 0x80 + c.toNat / 4096 % 64 ≤ hi := by
    unfold second
    split_ifs <;> exact ⟨_, _, rfl, by omega, by omega⟩
  rw [hsecond, complete_cons (by omega) hlo hhi, complete_cons (by omega) (by omega) (by omega),
    complete_cons (by omega) (by omega) (by omega)]
  have hvalue : 64 * (64 * (64 * (0xF0 + c.toNat / 262144 - 0xF0) +
      (0x80 + c.toNat / 4096 % 64 - 0x80)) + (0x80 + c.toNat / 64 % 64 - 0x80)) +
      (0x80 + c.toNat % 64 - 0x80) = c.toNat := by omega
  simp only [complete, hvalue, Char.ofNat_toNat]

def Tail (b : UInt8) : Prop := 0x80 ≤ b.toNat ∧ b.toNat < 0xC0

/-- The bytes of a character: a first one, which no character has further on, and its tails. -/
structure Spelling (c : Char) (a : UInt8) (tails : Bytes) : Prop where
  bytes : encodeChar c = a :: tails
  head_eq : ∀ rest, head a (tails ++ rest) = .char c tails.length
  first : ¬Tail a
  rest : ∀ b ∈ tails, Tail b
  ascii : a.toNat < 0x80 → a.toNat = c.toNat ∧ tails = []

theorem tail_ofNat (n : Nat) : Tail (.ofNat (0x80 + n % 64)) := by
  have hn : (UInt8.ofNat (0x80 + n % 64)).toNat = 0x80 + n % 64 := toNat_ofNat_of_lt (by omega)
  exact ⟨by omega, by omega⟩

theorem spelling_of_lead {c : Char} {n : Nat} {tails : Bytes} (hn : 0xC0 ≤ n) (hn' : n < 256)
    (hbytes : encodeChar c = .ofNat n :: tails) (hrest : ∀ b ∈ tails, Tail b)
    (hhead : ∀ rest, head (.ofNat n) (tails ++ rest) = .char c tails.length) :
    ∃ a tails, Spelling c a tails := by
  have hlead : (UInt8.ofNat n).toNat = n := toNat_ofNat_of_lt hn'
  exact ⟨_, _, hbytes, hhead, fun h => absurd h.2 (by omega), hrest, fun h => absurd h (by omega)⟩

theorem spelling (c : Char) : ∃ a tails, Spelling c a tails := by
  have hs := scalar_bounds c
  by_cases h₁ : c.toNat < 0x80
  · have hn : (UInt8.ofNat c.toNat).toNat = c.toNat := toNat_ofNat_of_lt (by omega)
    exact ⟨_, [], if_pos h₁, head_one h₁, fun h => absurd h.1 (by omega), by simp, fun _ => ⟨hn, rfl⟩⟩
  by_cases h₂ : c.toNat < 0x800
  · refine spelling_of_lead (by omega) (by omega) ((if_neg h₁).trans (if_pos h₂)) ?_ (head_two h₁ h₂)
    simp only [List.forall_mem_singleton, tail_ofNat]
  by_cases h₃ : c.toNat < 0x10000
  · refine spelling_of_lead (by omega) (by omega) ((if_neg h₁).trans ((if_neg h₂).trans (if_pos h₃))) ?_
      (head_three h₂ h₃)
    exact List.forall_mem_cons.2 ⟨tail_ofNat _, List.forall_mem_singleton.2 (tail_ofNat _)⟩
  · refine spelling_of_lead (by omega) (by omega) ((if_neg h₁).trans ((if_neg h₂).trans (if_neg h₃))) ?_
      (head_four h₃)
    exact List.forall_mem_cons.2 ⟨tail_ofNat _, List.forall_mem_cons.2 ⟨tail_ofNat _,
      List.forall_mem_singleton.2 (tail_ofNat _)⟩⟩

theorem decodeFrom_encodeChar (c : Char) (i : Nat) (rest : Bytes) :
    ∃ j, decodeFrom i (encodeChar c ++ rest) = (do return c :: (← decodeFrom j rest)) := by
  obtain ⟨a, tails, h⟩ := spelling c
  refine ⟨i + 1 + tails.length, ?_⟩
  rw [h.bytes, List.cons_append, decodeFrom, h.head_eq]
  simp only [List.drop_left]

theorem decodeFrom_flatMap (cs : List Char) (i : Nat) :
    decodeFrom i (cs.flatMap encodeChar) = .ok cs := by
  induction cs generalizing i with
  | nil => simp [decodeFrom]
  | cons c cs ih =>
      obtain ⟨j, hj⟩ := decodeFrom_encodeChar c i (cs.flatMap encodeChar)
      rw [List.flatMap_cons, hj, ih j]
      rfl

theorem decode_encode (s : String) : decode (encode s) = .ok s := by
  rw [decode, encode, decodeFrom_flatMap]
  simp [Except.map]

theorem encode_injective {s t : String} (h : encode s = encode t) : s = t := by
  have hs := decode_encode s
  rw [h, decode_encode t] at hs
  exact (Except.ok.inj hs).symm

theorem lossyChars_flatMap (cs : List Char) : lossyChars (cs.flatMap encodeChar) = cs := by
  induction cs with
  | nil => simp [lossyChars]
  | cons c cs ih =>
      obtain ⟨a, tails, h⟩ := spelling c
      rw [List.flatMap_cons, h.bytes, List.cons_append, lossyChars, h.head_eq]
      simp only [List.drop_left, ih]

theorem lossy_encode (s : String) : lossy (encode s) = s := by
  rw [lossy, encode, lossyChars_flatMap, String.ofList_toList]

theorem lossy_encode_inj {s t : String} : lossy (encode s) = lossy (encode t) ↔ encode s = encode t := by
  rw [lossy_encode, lossy_encode]
  exact ⟨fun h => h ▸ rfl, encode_injective⟩

theorem encodeChar_append_inj {c d : Char} {u v : Bytes} (h : encodeChar c ++ u = encodeChar d ++ v) :
    c = d ∧ u = v := by
  obtain ⟨a, as, hc⟩ := spelling c
  obtain ⟨b, bs, hd⟩ := spelling d
  have hbytes := h
  rw [hc.bytes, hd.bytes, List.cons_append, List.cons_append] at hbytes
  obtain ⟨rfl, hrest⟩ := List.cons.inj hbytes
  have hhead := hc.head_eq u
  rw [hrest, hd.head_eq] at hhead
  obtain ⟨rfl, -⟩ := Head.char.inj hhead
  exact ⟨rfl, List.append_cancel_left h⟩

theorem tails_append_split {tails u v w : Bytes} {a : UInt8} (ha : ¬Tail a) (htails : ∀ b ∈ tails, Tail b)
    (h : tails ++ v = u ++ a :: w) : ∃ u', u = tails ++ u' ∧ v = u' ++ a :: w := by
  induction tails generalizing u with
  | nil => exact ⟨u, rfl, h⟩
  | cons t tails ih =>
      obtain ⟨ht, hrest⟩ := List.forall_mem_cons.1 htails
      cases u with
      | nil =>
          obtain ⟨rfl, -⟩ := List.cons.inj h
          exact absurd ht ha
      | cons b u =>
          obtain ⟨rfl, happend⟩ := List.cons.inj h
          obtain ⟨u', rfl, hv⟩ := ih hrest happend
          exact ⟨u', rfl, hv⟩

/-- A text can be cut at every byte of it that continues no character. -/
theorem flatMap_split {cs : List Char} {u w : Bytes} {a : UInt8} (ha : ¬Tail a)
    (h : cs.flatMap encodeChar = u ++ a :: w) :
    ∃ front back, cs = front ++ back ∧ front.flatMap encodeChar = u ∧ back.flatMap encodeChar = a :: w := by
  induction cs generalizing u with
  | nil => simp at h
  | cons c cs ih =>
      cases u with
      | nil => exact ⟨[], c :: cs, rfl, rfl, h⟩
      | cons b u =>
          obtain ⟨b', tails, hc⟩ := spelling c
          rw [List.flatMap_cons, hc.bytes, List.cons_append, List.cons_append] at h
          obtain ⟨rfl, hrest⟩ := List.cons.inj h
          obtain ⟨u', rfl, hcs⟩ := tails_append_split ha hc.rest hrest
          obtain ⟨front, back, rfl, rfl, hback⟩ := ih hcs
          exact ⟨c :: front, back, rfl, by rw [List.flatMap_cons, hc.bytes, List.cons_append], hback⟩

theorem flatMap_split_char {cs : List Char} {c : Char} {u w : Bytes}
    (h : cs.flatMap encodeChar = u ++ (encodeChar c ++ w)) :
    ∃ front back, cs = front ++ c :: back ∧ front.flatMap encodeChar = u ∧ back.flatMap encodeChar = w := by
  obtain ⟨a, tails, hc⟩ := spelling c
  have hfirst := h
  rw [hc.bytes, List.cons_append] at hfirst
  obtain ⟨front, back, rfl, rfl, hback⟩ := flatMap_split hc.first hfirst
  cases back with
  | nil => cases hback
  | cons d back =>
      rw [← List.cons_append, ← hc.bytes, List.flatMap_cons] at hback
      obtain ⟨rfl, rfl⟩ := encodeChar_append_inj hback
      exact ⟨front, back, rfl, rfl, rfl⟩

theorem encodeChar_ascii {c : Char} (h : c.toNat < 0x80) : encodeChar c = [.ofNat c.toNat] := if_pos h

theorem flatMap_split_ascii {cs : List Char} (h : ∀ c ∈ cs, c.toNat < 0x80) {b : UInt8} {u w : Bytes}
    (hw : cs.flatMap encodeChar = u ++ b :: w) :
    ∃ front c back, cs = front ++ c :: back ∧ front.flatMap encodeChar = u ∧ back.flatMap encodeChar = w := by
  have hmem : b ∈ cs.flatMap encodeChar := by simp [hw]
  obtain ⟨c, hc, hmem⟩ := List.mem_flatMap.1 hmem
  have hascii : c.toNat < 0x80 := h c hc
  rw [encodeChar_ascii hascii, List.mem_singleton] at hmem
  have hnat : b.toNat = c.toNat := hmem ▸ toNat_ofNat_of_lt (by omega)
  have hfirst : ¬Tail b := fun ht => absurd ht.1 (by omega)
  obtain ⟨front, _ | ⟨d, back⟩, rfl, hfront, hback⟩ := flatMap_split hfirst hw
  · cases hback
  · rw [List.flatMap_cons, encodeChar_ascii (h d (by simp))] at hback
    exact ⟨front, d, back, rfl, hfront, (List.cons.inj hback).2⟩

theorem eq_nil_of_flatMap {cs : List Char} (h : cs.flatMap encodeChar = []) : cs = [] := by
  have hchars := congrArg lossyChars h
  rwa [lossyChars_flatMap, lossyChars] at hchars

theorem ascii_of_flatMap {cs : List Char} (h : ∀ a ∈ cs.flatMap encodeChar, a.toNat < 0x80) :
    ∀ c ∈ cs, c.toNat < 0x80 := by
  intro c hc
  obtain ⟨a, tails, hspelling⟩ := spelling c
  have ha : a.toNat < 0x80 := h a (List.mem_flatMap.2 ⟨c, hc, by simp [hspelling.bytes]⟩)
  exact (hspelling.ascii ha).1 ▸ ha

theorem complete_char {n k j lo hi : Nat} {bounds : List (Nat × Nat)} {bs : Bytes} {c : Char}
    (h : complete n k ((lo, hi) :: bounds) bs = .char c j) :
    ∃ t rest, bs = t :: rest ∧ lo ≤ t.toNat ∧ t.toNat ≤ hi ∧
      complete (64 * n + (t.toNat - 0x80)) (k + 1) bounds rest = .char c j := by
  cases bs with
  | nil => cases h
  | cons b bs =>
      rw [complete] at h
      split_ifs at h with hb
      exact ⟨b, bs, rfl, hb.1, hb.2, h⟩

theorem toNat_ofNat {n : Nat} (h : n.isValidChar) : (Char.ofNat n).toNat = n := by
  rw [Char.ofNat, dif_pos h]
  rfl

theorem ofNat_eq {n : Nat} {a : UInt8} (h : n = a.toNat) : UInt8.ofNat n = a := by
  rw [h, UInt8.ofNat_toNat]

/-- The bounds of a second byte leave out what needs fewer bytes, the surrogates and what no character is. -/
theorem second_three {a t : Nat} (ha : 0xE0 ≤ a) (ha' : a ≤ 0xEF) (hlo : (second a).1 ≤ t) (hhi : t ≤ (second a).2) :
    (0x80 ≤ t ∧ t < 0xC0) ∧ 0x800 ≤ 4096 * (a - 0xE0) + 64 * (t - 0x80) ∧
      (4096 * (a - 0xE0) + 64 * (t - 0x80) + 64 ≤ 0xD800 ∨ 0xE000 ≤ 4096 * (a - 0xE0) + 64 * (t - 0x80)) := by
  unfold second at hlo hhi
  split_ifs at hlo hhi <;> dsimp only at hlo hhi <;> omega

theorem second_four {a t : Nat} (ha : 0xF0 ≤ a) (ha' : a ≤ 0xF4) (hlo : (second a).1 ≤ t) (hhi : t ≤ (second a).2) :
    (0x80 ≤ t ∧ t < 0xC0) ∧ 0x10000 ≤ 262144 * (a - 0xF0) + 4096 * (t - 0x80) ∧
      262144 * (a - 0xF0) + 4096 * (t - 0x80) + 4096 ≤ 0x110000 := by
  unfold second at hlo hhi
  split_ifs at hlo hhi <;> dsimp only at hlo hhi <;> omega

theorem encodeChar_of_head {a : UInt8} {bs : Bytes} {c : Char} {k : Nat} (h : head a bs = .char c k) :
    encodeChar c = a :: bs.take k := by
  have hbyte := a.toNat_lt
  simp only [head] at h
  split_ifs at h with h₁ h₂ h₃ h₄
  · obtain ⟨rfl, rfl⟩ := Head.char.inj h
    rw [encodeChar, toNat_ofNat (.inl (by omega)), if_pos h₁, UInt8.ofNat_toNat, List.take_zero]
  · obtain ⟨t, rest, rfl, hlo, hhi, h⟩ := complete_char h
    obtain ⟨hc, rfl⟩ := Head.char.inj h
    have hn : c.toNat = 64 * (a.toNat - 0xC0) + (t.toNat - 0x80) := by
      rw [← hc, toNat_ofNat (.inl (by omega))]
    simp only [encodeChar, hn]
    rw [if_neg (by omega), if_pos (by omega), ofNat_eq (a := a) (by omega), ofNat_eq (a := t) (by omega)]
    rfl
  · obtain ⟨t, rest, rfl, hlo, hhi, h⟩ := complete_char h
    obtain ⟨u, rest, rfl, hlo', hhi', h⟩ := complete_char h
    obtain ⟨hc, rfl⟩ := Head.char.inj h
    obtain ⟨ht, hfrom, hto⟩ := second_three h₃.1 h₃.2 hlo hhi
    have hn : c.toNat = 64 * (64 * (a.toNat - 0xE0) + (t.toNat - 0x80)) + (u.toNat - 0x80) := by
      rw [← hc, toNat_ofNat (by unfold Nat.isValidChar; omega)]
    simp only [encodeChar, hn]
    rw [if_neg (by omega), if_neg (by omega), if_pos (by omega), ofNat_eq (a := a) (by omega),
      ofNat_eq (a := t) (by omega), ofNat_eq (a := u) (by omega)]
    rfl
  · obtain ⟨t, rest, rfl, hlo, hhi, h⟩ := complete_char h
    obtain ⟨u, rest, rfl, hlo', hhi', h⟩ := complete_char h
    obtain ⟨v, rest, rfl, hlo'', hhi'', h⟩ := complete_char h
    obtain ⟨hc, rfl⟩ := Head.char.inj h
    obtain ⟨ht, hfrom, hto⟩ := second_four h₄.1 h₄.2 hlo hhi
    have hn : c.toNat = 64 * (64 * (64 * (a.toNat - 0xF0) + (t.toNat - 0x80)) + (u.toNat - 0x80)) +
        (v.toNat - 0x80) := by
      rw [← hc, toNat_ofNat (by unfold Nat.isValidChar; omega)]
    simp only [encodeChar, hn]
    rw [if_neg (by omega), if_neg (by omega), if_neg (by omega), ofNat_eq (a := a) (by omega),
      ofNat_eq (a := t) (by omega), ofNat_eq (a := u) (by omega), ofNat_eq (a := v) (by omega)]
    rfl

theorem head_ascii {a : UInt8} {bs : Bytes} {c : Char} {k : Nat} (h : head a bs = .char c k)
    (hc : c.toNat < 0x80) : a.toNat = c.toNat := by
  have hbytes := encodeChar_of_head h
  rw [encodeChar_ascii hc] at hbytes
  obtain ⟨rfl, -⟩ := List.cons.inj hbytes
  exact toNat_ofNat_of_lt (by omega)

theorem flatMap_of_decodeFrom {i : Nat} {bs : Bytes} {cs : List Char} (h : decodeFrom i bs = .ok cs) :
    cs.flatMap encodeChar = bs := by
  induction i, bs using decodeFrom.induct generalizing cs with
  | case1 i =>
      rw [decodeFrom] at h
      cases h
      rfl
  | case2 i a bs c k hhead ih =>
      rw [decodeFrom, hhead] at h
      dsimp only at h
      cases hrest : decodeFrom (i + 1 + k) (bs.drop k) with
      | error fault =>
          rw [hrest] at h
          cases h
      | ok ds =>
          rw [hrest] at h
          cases h
          rw [List.flatMap_cons, ih hrest, encodeChar_of_head hhead, List.cons_append, List.take_append_drop]
  | case3 i a bs k hhead =>
      rw [decodeFrom, hhead] at h
      cases h
  | case4 i a bs hhead =>
      rw [decodeFrom, hhead] at h
      cases h

theorem encode_of_decode {bs : Bytes} {s : String} (h : decode bs = .ok s) : encode s = bs := by
  rw [decode] at h
  cases hchars : decodeFrom 0 bs with
  | error fault =>
      rw [hchars] at h
      cases h
  | ok cs =>
      rw [hchars] at h
      cases h
      rw [encode, String.toList_ofList, flatMap_of_decodeFrom hchars]

theorem mem_lossyChars {bs : Bytes} {c : Char} (h : c ∈ lossyChars bs) (hc : c.toNat < 0x80) :
    ∃ a ∈ bs, a.toNat = c.toNat := by
  induction bs using lossyChars.induct with
  | case1 => simp [lossyChars] at h
  | case2 a bs d k hhead ih =>
      rw [lossyChars, hhead] at h
      obtain rfl | h := List.mem_cons.1 h
      · exact ⟨a, List.mem_cons_self, head_ascii hhead hc⟩
      · obtain ⟨b, hb, hbc⟩ := ih h
        exact ⟨b, List.mem_cons_of_mem _ (List.mem_of_mem_drop hb), hbc⟩
  | case3 a bs k hhead ih =>
      rw [lossyChars, hhead] at h
      obtain rfl | h := List.mem_cons.1 h
      · exact absurd hc (by decide)
      · obtain ⟨b, hb, hbc⟩ := ih h
        exact ⟨b, List.mem_cons_of_mem _ (List.mem_of_mem_drop hb), hbc⟩
  | case4 a bs hhead =>
      rw [lossyChars, hhead] at h
      obtain rfl := List.mem_singleton.1 h
      exact absurd hc (by decide)

end RowForest.Utf8
