import RowForest.Proofs.KeyFormat

namespace RowForest.KeyFormat

variable {desc : Bool} {bs rest ds : Bytes} {n : Nat} {v : Value}

theorem takeTurned_eq_ok : takeTurned desc n bs = .ok (ds, rest) ↔
    bs = ds.map (turn desc) ++ rest ∧ ds.length = n := by
  constructor
  · intro h
    rw [takeTurned] at h
    split_ifs at h with hshort
    obtain ⟨rfl, rfl⟩ := Prod.mk.inj (Except.ok.inj h)
    rw [map_turn_turn, List.take_append_drop, List.length_map, List.length_take]
    exact ⟨rfl, by omega⟩
  · rintro ⟨rfl, hlength⟩
    exact takeTurned_append hlength rest

theorem decodeByte_eq_ok {b : UInt8} :
    decodeByte desc bs = .ok (b, rest) ↔ bs = turn desc b :: rest := by
  constructor
  · intro h
    cases bs with
    | nil => cases h
    | cons c cs =>
        obtain ⟨rfl, rfl⟩ := Prod.mk.inj (Except.ok.inj h)
        rw [turn_turn]
  · rintro rfl
    exact decodeByte_append desc b rest

theorem bytes_of_unescape (h : unescape desc bs = .ok (ds, rest)) :
    bs = (escaped ds).map (turn desc) ++ rest := by
  induction bs using unescape.induct desc generalizing ds with
  | case1 => cases h
  | case2 => cases h
  | case3 b c bs hb hc =>
      rw [unescape, if_pos hb, if_pos hc] at h
      cases h
      rw [← turn_turn desc b, ← turn_turn desc c, hb, hc]
      rfl
  | case4 b c bs hb hc hc' ih =>
      simp only [unescape, if_pos hb, if_neg hc, if_pos hc', Except.bind_eq_ok, Except.pure_ok, Except.ok.injEq,
        Prod.mk.injEq] at h
      obtain ⟨⟨ds, _⟩, hds, rfl, rfl⟩ := h
      rw [ih hds, ← turn_turn desc b, ← turn_turn desc c, hb, hc']
      rfl
  | case5 b c bs hb hc hc' =>
      rw [unescape, if_pos hb, if_neg hc, if_neg hc'] at h
      cases h
  | case6 b c bs hb ih =>
      simp only [unescape, if_neg hb, Except.bind_eq_ok, Except.pure_ok, Except.ok.injEq, Prod.mk.injEq] at h
      obtain ⟨⟨ds, _⟩, hds, rfl, rfl⟩ := h
      rw [ih hds, escaped, if_neg hb, List.map_cons, turn_turn, List.cons_append]

theorem unescape_eq_ok :
    unescape desc bs = .ok (ds, rest) ↔ bs = (escaped ds).map (turn desc) ++ rest :=
  ⟨bytes_of_unescape, fun h => h ▸ unescape_append desc ds rest⟩

theorem decodeText_eq_ok {s : String} : decodeText desc bs = .ok (s, rest) ↔
    bs = (escaped (Utf8.encode s)).map (turn desc) ++ rest := by
  constructor
  · intro h
    rw [decodeText, Except.bind_eq_ok] at h
    obtain ⟨⟨ds, rest'⟩, hds, h⟩ := h
    dsimp only at h
    cases hs : Utf8.decode ds with
    | error fault =>
        rw [hs] at h
        cases h
    | ok s' =>
        rw [hs] at h
        cases h
        rw [Utf8.encode_of_decode hs]
        exact bytes_of_unescape hds
  · rintro rfl
    exact decodeText_append desc s rest

theorem decodeInt_eq_ok {i : Int} : decodeInt desc bs = .ok (i, rest) ↔
    bs = (encodeInt i).map (turn desc) ++ rest ∧ -2 ^ 63 ≤ i ∧ i < 2 ^ 63 := by
  constructor
  · intro h
    rw [decodeInt, Except.bind_eq_ok] at h
    obtain ⟨⟨ds, _⟩, hds, h⟩ := h
    obtain ⟨rfl, rfl⟩ := Prod.mk.inj (Except.ok.inj h)
    obtain ⟨rfl, hlength⟩ := takeTurned_eq_ok.1 hds
    have hlt := Bytes.ofBigEndian_lt ds
    rw [hlength] at hlt
    have hraised : ((Bytes.ofBigEndian ds : Int) - 2 ^ 63 + 2 ^ 63).toNat = Bytes.ofBigEndian ds := by omega
    refine ⟨?_, by omega, by omega⟩
    rw [encodeInt, hraised, Bytes.bigEndian_ofBigEndian hlength]
  · rintro ⟨rfl, hlo, hhi⟩
    exact decodeInt_append hlo hhi desc rest

theorem floatKey_floatOfKey (h : n < 2 ^ 64) : floatKey (floatOfKey n) = n := by
  have hbits : (floatOfKey n).bits.toNat = if 2 ^ 63 ≤ n then n - 2 ^ 63 else 2 ^ 64 - 1 - n := by
    rw [floatOfKey, UInt64.toNat_ofNat_of_lt']
    simp only [UInt64.size]
    split_ifs <;> omega
  unfold floatKey
  dsimp only
  rw [hbits]
  split_ifs <;> omega

/-- The codes of a value: the one that it is written as, but for a true one those in which the byte that tells it
from a false one satisfies `M`. -/
inductive Spells (M : UInt8 → Prop) : Value → Bytes → Prop
  | truth {b : UInt8} : M b → Spells M (.bool true) [0x01, b]
  | other {v : Value} {bs : Bytes} : v ≠ .bool true → encodeValue v = .ok bs → Spells M v bs

theorem spells_of_decodeValue (h : decodeValue desc bs = .ok (v, rest)) :
    ∃ code, Spells (· ≠ 0) v code ∧ bs = code.map (turn desc) ++ rest := by
  rw [decodeValue, Except.bind_eq_ok] at h
  obtain ⟨⟨tag, bs⟩, htag, h⟩ := h
  obtain rfl := decodeByte_eq_ok.1 htag
  dsimp only at h
  split at h
  -- one case for each tag, in their order; the three that are read as text are last
  case h_1 =>
    cases h
    exact ⟨[0x00], .other (by simp) rfl, rfl⟩
  case h_2 =>
    rw [Except.bind_eq_ok] at h
    obtain ⟨⟨b, rest'⟩, hb, h⟩ := h
    cases h
    obtain rfl := decodeByte_eq_ok.1 hb
    -- only here is there more than one byte for what is read
    by_cases hzero : b = 0
    · subst hzero
      exact ⟨[0x01, 0x00], .other (by simp) rfl, rfl⟩
    · rw [bne_iff_ne.2 hzero]
      exact ⟨[0x01, b], .truth hzero, rfl⟩
  case h_3 =>
    rw [Except.bind_eq_ok] at h
    obtain ⟨⟨i, rest'⟩, hi, h⟩ := h
    cases h
    obtain ⟨rfl, hlo, hhi⟩ := decodeInt_eq_ok.1 hi
    refine ⟨_, .other (by simp) rfl, ?_⟩
    rw [Int64.toInt_ofInt_of_le hlo hhi]
    rfl
  case h_4 =>
    rw [Except.bind_eq_ok] at h
    obtain ⟨⟨ds, rest'⟩, hds, h⟩ := h
    cases h
    obtain ⟨rfl, hlength⟩ := takeTurned_eq_ok.1 hds
    have hlt := Bytes.ofBigEndian_lt ds
    rw [hlength] at hlt
    refine ⟨_, .other (by simp) rfl, ?_⟩
    rw [floatKey_floatOfKey hlt, Bytes.bigEndian_ofBigEndian hlength]
    rfl
  case h_6 =>
    rw [Except.bind_eq_ok] at h
    obtain ⟨⟨ds, rest'⟩, hds, h⟩ := h
    cases h
    obtain rfl := unescape_eq_ok.1 hds
    exact ⟨_, .other (by simp) rfl, rfl⟩
  case h_7 =>
    rw [Except.bind_eq_ok] at h
    obtain ⟨⟨n, rest'⟩, hn, h⟩ := h
    obtain ⟨rfl, hlo, hhi⟩ := decodeInt_eq_ok.1 hn
    dsimp only [Date.ofDays?] at h
    split_ifs at h
    cases h
    exact ⟨_, .other (by simp) rfl, rfl⟩
  case h_8 =>
    rw [Except.bind_eq_ok] at h
    obtain ⟨⟨s, bs'⟩, hs, h⟩ := h
    rw [Except.bind_eq_ok] at h
    obtain ⟨⟨ds, rest'⟩, hds, h⟩ := h
    obtain ⟨rfl, hlo, hhi⟩ := decodeInt_eq_ok.1 hs
    obtain ⟨rfl, hlength⟩ := takeTurned_eq_ok.1 hds
    dsimp only [Timestamp.ofUnix?] at h
    split_ifs at h
    cases h
    refine ⟨_, .other (by simp) rfl, ?_⟩
    rw [Bytes.bigEndian_ofBigEndian hlength, List.map_append, List.append_assoc]
    rfl
  case h_11 => cases h
  all_goals
    rw [Except.bind_eq_ok] at h
    obtain ⟨⟨s, rest'⟩, hs, h⟩ := h
    cases h
    obtain rfl := decodeText_eq_ok.1 hs
    exact ⟨_, .other (by simp) rfl, rfl⟩

theorem decodeValue_eq_ok : decodeValue desc bs = .ok (v, rest) ↔
    ∃ code, Spells (· ≠ 0) v code ∧ bs = code.map (turn desc) ++ rest := by
  refine ⟨spells_of_decodeValue, ?_⟩
  rintro ⟨code, hcode, rfl⟩
  cases hcode with
  | truth hb => simp [decodeValue, decodeByte_append, hb]
  | other _ hcode => exact decodeValue_append hcode desc rest

theorem encodeValue_eq_ok {code : Bytes} : encodeValue v = .ok code ↔ Spells (· = 1) v code := by
  constructor
  · intro h
    by_cases htrue : v = .bool true
    · subst htrue
      cases h
      exact .truth rfl
    · exact .other htrue h
  · intro h
    cases h with
    | truth hb =>
        subst hb
        rfl
    | other _ h => exact h

/-- The codes of the parts of a key one after the other, each in its direction. -/
inductive Spelled (M : UInt8 → Prop) : List Bool → List Value → Bytes → Prop
  | nil : Spelled M [] [] []
  | cons {d : Bool} {ds : List Bool} {v : Value} {vs : List Value} {code bs : Bytes} : Spells M v code →
      Spelled M ds vs bs → Spelled M (d :: ds) (v :: vs) (code.map (turn d) ++ bs)

variable {M N : UInt8 → Prop} {descs : List Bool} {vs : List Value} {table : String} {key code : Bytes}

theorem Spelled.length_eq (h : Spelled M descs vs bs) : vs.length = descs.length := by
  induction h with
  | nil => rfl
  | cons _ _ ih => exact congrArg Nat.succ ih

theorem Spells.imp (h : Spells M v code) (himp : v = .bool true → ∀ b, M b → N b) : Spells N v code := by
  cases h with
  | truth hb => exact .truth (himp rfl _ hb)
  | other hne h => exact .other hne h

theorem Spelled.imp (h : Spelled M descs vs bs) (himp : .bool true ∈ vs → ∀ b, M b → N b) :
    Spelled N descs vs bs := by
  induction h with
  | nil => exact .nil
  | cons hcode _ ih =>
      refine .cons (hcode.imp fun htrue => himp (htrue ▸ List.mem_cons_self)) (ih fun hmem => ?_)
      exact himp (List.mem_cons_of_mem _ hmem)

theorem Spelled.readable (h : Spelled (· = 1) descs vs bs) : Spelled (· ≠ 0) descs vs bs :=
  h.imp fun _ _ hb => hb.trans_ne (by decide)

theorem Spells.respell {b : UInt8} (hb : N b) (h : Spells M v code) :
    ∃ code', Spells N v code' ∧ code'.length = code.length := by
  cases h with
  | truth => exact ⟨[0x01, b], .truth hb, rfl⟩
  | other hne h => exact ⟨code, .other hne h, rfl⟩

theorem Spelled.respell {b : UInt8} (hb : N b) (h : Spelled M descs vs bs) :
    ∃ bs', Spelled N descs vs bs' ∧ bs'.length = bs.length := by
  induction h with
  | nil => exact ⟨[], .nil, rfl⟩
  | cons hcode _ ih =>
      obtain ⟨code', hcode', hlength⟩ := hcode.respell hb
      obtain ⟨bs', hbs', hrest⟩ := ih
      refine ⟨_, .cons hcode' hbs', ?_⟩
      rw [List.length_append, List.length_append, List.length_map, List.length_map, hlength, hrest]

theorem turn_injective (desc : Bool) : Function.Injective (turn desc) :=
  Function.LeftInverse.injective (turn_turn desc)

theorem Spelled.exists_ne (h : Spelled (· ≠ 0) descs vs bs) (htrue : .bool true ∈ vs) :
    ∃ bs', Spelled (· ≠ 0) descs vs bs' ∧ bs' ≠ bs := by
  induction h with
  | nil => cases htrue
  | @cons d ds v vs code bs hcode hbs ih =>
      by_cases hv : v = .bool true
      · subst hv
        cases hcode with
        | other hne => exact absurd rfl hne
        | @truth c =>
            have hother : ∃ c' : UInt8, c' ≠ 0 ∧ c' ≠ c := by
              by_cases hc : c = 1
              · exact ⟨2, by decide, fun h => absurd (h.trans hc) (by decide)⟩
              · exact ⟨1, by decide, Ne.symm hc⟩
            obtain ⟨c', hc', hne⟩ := hother
            refine ⟨_, .cons (.truth hc') hbs, fun heq => hne ?_⟩
            have hcodes := (turn_injective d).list_map (List.append_cancel_right heq)
            simpa using hcodes
      · obtain ⟨bs', hbs', hne⟩ := ih ((List.mem_cons.1 htrue).resolve_left (Ne.symm hv))
        exact ⟨_, .cons hcode hbs', fun heq => hne (List.append_cancel_left heq)⟩

theorem decodeParts_eq_ok : decodeParts descs bs = .ok (vs, rest) ↔
    ∃ code, Spelled (· ≠ 0) descs vs code ∧ bs = code ++ rest := by
  constructor
  · intro h
    induction descs generalizing bs vs with
    | nil =>
        cases h
        exact ⟨[], .nil, rfl⟩
    | cons d descs ih =>
        rw [decodeParts, Except.bind_eq_ok] at h
        obtain ⟨⟨v, bs'⟩, hv, h⟩ := h
        rw [Except.bind_eq_ok] at h
        obtain ⟨⟨vs', rest'⟩, hvs, h⟩ := h
        cases h
        obtain ⟨code, hcode, rfl⟩ := decodeValue_eq_ok.1 hv
        obtain ⟨codes, hcodes, rfl⟩ := ih hvs
        exact ⟨_, .cons hcode hcodes, (List.append_assoc ..).symm⟩
  · rintro ⟨code, hcode, rfl⟩
    induction hcode with
    | nil => rfl
    | cons hv _ ih =>
        rw [decodeParts, List.append_assoc, decodeValue_eq_ok.2 ⟨_, hv, rfl⟩, Except.ok_bind]
        dsimp only
        rw [ih, Except.ok_bind]
        rfl

theorem decode_eq_ok : decode key descs = .ok (table, vs) ↔
    ∃ bs, key = encodeName table ++ bs ∧ Spelled (· ≠ 0) descs vs bs := by
  constructor
  · intro h
    rw [decode, Except.bind_eq_ok] at h
    obtain ⟨⟨table', bs⟩, htable, h⟩ := h
    rw [Except.bind_eq_ok] at h
    obtain ⟨⟨vs', rest⟩, hvs, h⟩ := h
    obtain rfl := decodeText_eq_ok.1 htable
    obtain ⟨code, hcode, rfl⟩ := decodeParts_eq_ok.1 hvs
    dsimp only at h
    split_ifs at h with hrest
    cases h
    obtain rfl := List.isEmpty_iff.1 hrest
    refine ⟨code, ?_, hcode⟩
    rw [List.append_nil]
    exact congrArg (· ++ code) (List.map_id _)
  · rintro ⟨bs, rfl, hbs⟩
    rw [decode, decodeName_append, Except.ok_bind]
    dsimp only
    rw [decodeParts_eq_ok.2 ⟨bs, hbs, (List.append_nil bs).symm⟩]
    rfl

theorem encodeParts_eq_ok (hlength : vs.length = descs.length) :
    encodeParts (vs.zip descs) = .ok bs ↔ Spelled (· = 1) descs vs bs := by
  induction descs generalizing vs bs with
  | nil =>
      obtain rfl := List.length_eq_zero_iff.1 hlength
      constructor
      · intro h
        cases h
        exact .nil
      · intro h
        cases h
        rfl
  | cons d descs ih =>
      cases vs with
      | nil => cases hlength
      | cons v vs =>
          rw [List.zip_cons_cons, encodeParts_cons]
          constructor
          · rintro ⟨code, codes, hcode, hcodes, rfl⟩
            exact .cons (encodeValue_eq_ok.1 hcode) ((ih (Nat.succ.inj hlength)).1 hcodes)
          · intro h
            cases h with
            | cons hcode hcodes =>
                exact ⟨_, _, encodeValue_eq_ok.2 hcode, (ih (Nat.succ.inj hlength)).2 hcodes, rfl⟩

theorem encode_eq_ok_iff (hlength : vs.length = descs.length) : encode table (vs.zip descs) = .ok key ↔
    ∃ bs, key = encodeName table ++ bs ∧ Spelled (· = 1) descs vs bs := by
  simp only [encode_eq_ok, encodeParts_eq_ok hlength]
  exact exists_congr fun _ => and_comm

/-- The keys that are read as a table's name and values are the spellings of these, with any byte but zero for
true where a key that is written has one. So what is read can be written, in as many bytes and in a key that is
read alike, and this is the key that was read if one stands for true throughout. Unless there is a true value it
is the only one to be read so. -/
theorem decode_iff_spelled (table : String) (vs : List Value) (descs : List Bool) (key : Bytes) :
    (decode key descs = .ok (table, vs) ↔ ∃ bs, key = encodeName table ++ bs ∧ Spelled (· ≠ 0) descs vs bs) ∧
    (decode key descs = .ok (table, vs) → vs.length = descs.length ∧
      ∃ written, encode table (vs.zip descs) = .ok written ∧ decode written descs = .ok (table, vs) ∧
        written.length = key.length ∧
        (written = key ↔ ∃ bs, key = encodeName table ++ bs ∧ Spelled (· = 1) descs vs bs) ∧
        ((∀ other, decode other descs = .ok (table, vs) → other = written) ↔ .bool true ∉ vs)) := by
  refine ⟨decode_eq_ok, fun h => ?_⟩
  obtain ⟨bs, rfl, hbs⟩ := decode_eq_ok.1 h
  have hlength := hbs.length_eq
  have hencode (k : Bytes) : encode table (vs.zip descs) = .ok k ↔
      ∃ bs, k = encodeName table ++ bs ∧ Spelled (· = 1) descs vs bs := encode_eq_ok_iff hlength
  obtain ⟨code, hcode, hlong⟩ := hbs.respell (N := (· = 1)) rfl
  have hwritten := (hencode _).2 ⟨code, rfl, hcode⟩
  refine ⟨hlength, _, hwritten, decode_eq_ok.2 ⟨code, rfl, hcode.readable⟩, ?_, ?_, ?_, ?_⟩
  · rw [List.length_append, List.length_append, hlong]
  · rw [← hencode, hwritten, Except.ok.injEq]
  · intro honly htrue
    obtain ⟨code', hcode', hne⟩ := hcode.readable.exists_ne htrue
    exact hne (List.append_cancel_left (honly _ (decode_eq_ok.2 ⟨code', rfl, hcode'⟩)))
  · intro hnone other hother
    obtain ⟨bs', rfl, hbs'⟩ := decode_eq_ok.1 hother
    have hsame := hbs'.imp (N := (· = 1)) fun htrue => absurd htrue hnone
    have hagain := (hencode _).2 ⟨bs', rfl, hsame⟩
    rw [hwritten] at hagain
    exact (Except.ok.inj hagain).symm

/-- A byte two is read as true and written as one. -/
theorem decode_true_of_two : decode [0x54, 0, 0, 0x01, 0x02] [false] = .ok ("T", [.bool true]) ∧
    decode [0x54, 0, 0, 0x01, 0x01] [false] = .ok ("T", [.bool true]) ∧
    encode "T" ([.bool true].zip [false]) = .ok [0x54, 0, 0, 0x01, 0x01] := by
  have hread {b : UInt8} (hb : b ≠ 0) : decode [0x54, 0, 0, 0x01, b] [false] = .ok ("T", [.bool true]) :=
    decode_eq_ok.2 ⟨[0x01, b], rfl, .cons (M := (· ≠ 0)) (d := false) (.truth hb) .nil⟩
  exact ⟨hread (by decide), hread (by decide), rfl⟩

end RowForest.KeyFormat
