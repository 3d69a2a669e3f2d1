import RowForest.KeyFormat
import RowForest.Proofs.Bytes
import RowForest.Proofs.Calendar.Date
import RowForest.Proofs.Outcome
import RowForest.Proofs.Text.Utf8

namespace RowForest

def Value.Scalar (v : Value) : Prop := v.isNull = true ∨ v.baseType?.isSome = true

@[simp] theorem Value.not_scalar_array (items : List Value) : ¬(array items).Scalar := by
  simp [Scalar, isNull, baseType?]

@[simp] theorem Value.not_scalar_struct (fields : List (String × Value)) : ¬(struct fields).Scalar := by
  simp [Scalar, isNull, baseType?]

theorem Value.isNull_iff {v : Value} : v.isNull = true ↔ v = .null := by
  cases v <;> simp [Value.isNull]

namespace KeyFormat

theorem turn_turn (desc : Bool) (b : UInt8) : turn desc (turn desc b) = b := by
  cases desc <;> simp [turn]

theorem map_turn_turn (desc : Bool) (bs : Bytes) : (bs.map (turn desc)).map (turn desc) = bs := by
  rw [List.map_map]
  exact (List.map_congr_left (fun b _ => turn_turn desc b)).trans (List.map_id _)

theorem takeTurned_append {desc : Bool} {n : Nat} {bs : Bytes} (h : bs.length = n) (rest : Bytes) :
    takeTurned desc n (bs.map (turn desc) ++ rest) = .ok (bs, rest) := by
  have hlength : (bs.map (turn desc)).length = n := by rw [List.length_map, h]
  have hlong : ¬(bs.map (turn desc) ++ rest).length < n := by
    rw [List.length_append]
    omega
  rw [takeTurned, if_neg hlong, List.take_left' hlength, List.drop_left' hlength, map_turn_turn]

theorem decodeInt_append {i : Int} (hlo : -2 ^ 63 ≤ i) (hhi : i < 2 ^ 63) (desc : Bool) (rest : Bytes) :
    decodeInt desc ((encodeInt i).map (turn desc) ++ rest) = .ok (i, rest) := by
  have hlength : (encodeInt i).length = 8 := Bytes.length_bigEndian 8 _
  have hraised : (i + 2 ^ 63).toNat < 256 ^ 8 := by omega
  have hlowered : ((i + 2 ^ 63).toNat : Int) - 2 ^ 63 = i := by omega
  rw [decodeInt, takeTurned_append hlength, encodeInt]
  simp only [Except.ok_bind, Bytes.ofBigEndian_bigEndian hraised, hlowered]
  rfl

theorem escaped_ne_nil (bs : Bytes) : escaped bs ≠ [] := by
  cases bs with
  | nil => simp [escaped]
  | cons b bs => by_cases h : b = 0 <;> simp [escaped, h]

theorem unescape_append (desc : Bool) (bs rest : Bytes) :
    unescape desc ((escaped bs).map (turn desc) ++ rest) = .ok (bs, rest) := by
  induction bs with
  | nil => simp [escaped, unescape, turn_turn]
  | cons b bs ih =>
      by_cases hb : b = 0
      · simp [escaped, hb, unescape, turn_turn, ih]
      · -- the byte after `b` is looked at and put back, and there is one: a text is never empty
        obtain ⟨c, cs, hcs⟩ := List.exists_cons_of_ne_nil (escaped_ne_nil bs)
        rw [hcs, List.map_cons, List.cons_append] at ih
        rw [escaped, if_neg hb, hcs, List.map_cons, List.map_cons, List.cons_append,
          List.cons_append, unescape, turn_turn, if_neg hb, ih]
        rfl

theorem decodeText_append (desc : Bool) (s : String) (rest : Bytes) :
    decodeText desc ((escaped (Utf8.encode s)).map (turn desc) ++ rest) = .ok (s, rest) := by
  rw [decodeText, unescape_append]
  simp only [Except.ok_bind, Utf8.decode_encode]
  rfl

theorem floatKey_lt (x : Binary64) : floatKey x < 2 ^ 64 := by
  have hbits := x.bits.toNat_lt
  unfold floatKey
  dsimp only
  split <;> omega

theorem floatOfKey_floatKey (x : Binary64) : floatOfKey (floatKey x) = x := by
  have hbits := x.bits.toNat_lt
  have hkey : (if 2 ^ 63 ≤ floatKey x then floatKey x - 2 ^ 63 else 2 ^ 64 - 1 - floatKey x) =
      x.bits.toNat := by
    unfold floatKey
    dsimp only
    split_ifs <;> omega
  rw [floatOfKey, hkey, UInt64.ofNat_toNat]

theorem decodeByte_append (desc : Bool) (b : UInt8) (rest : Bytes) :
    decodeByte desc (turn desc b :: rest) = .ok (b, rest) := by
  rw [decodeByte, turn_turn]

theorem days_bounds (d : Date) : -2 ^ 63 ≤ d.days ∧ d.days < 2 ^ 63 := by
  have hfirst := d.first
  have hlast := d.last
  omega

theorem seconds_bounds (t : Timestamp) : -2 ^ 63 ≤ t.seconds ∧ t.seconds < 2 ^ 63 := by
  have hfirst := t.first
  have hlast := t.last
  omega

theorem decodeValue_append {v : Value} {bs : Bytes} (h : encodeValue v = .ok bs) (desc : Bool)
    (rest : Bytes) : decodeValue desc (bs.map (turn desc) ++ rest) = .ok (v, rest) := by
  cases v with
  | null =>
      cases h
      simp [decodeValue, decodeByte_append]
  | bool b =>
      cases h
      cases b <;> simp [decodeValue, decodeByte_append]
  | int64 i =>
      cases h
      simp [decodeValue, decodeByte_append, decodeInt_append i.le_toInt i.toInt_lt]
  | float64 x =>
      cases h
      have hlength := Bytes.length_bigEndian 8 (floatKey x)
      simp [decodeValue, decodeByte_append, takeTurned_append hlength,
        Bytes.ofBigEndian_bigEndian (w := 8) (floatKey_lt x), floatOfKey_floatKey]
  | string s =>
      cases h
      simp [decodeValue, decodeByte_append, decodeText_append]
  | bytes bs =>
      cases h
      simp [decodeValue, decodeByte_append, unescape_append]
  | date d =>
      cases h
      obtain ⟨hlo, hhi⟩ := days_bounds d
      simp [decodeValue, decodeByte_append, decodeInt_append hlo hhi, Date.ofDays?_days]
  | timestamp t =>
      cases h
      obtain ⟨hlo, hhi⟩ := seconds_bounds t
      have hlength := Bytes.length_bigEndian 4 t.nanos
      have hnanos : t.nanos < 256 ^ 4 := by
        have hlt := t.nanos_lt
        omega
      have hvalid : Timestamp.ofUnix? t.seconds t.nanos = some t := by
        rw [Timestamp.ofUnix?, dif_pos ⟨⟨t.first, t.last⟩, t.nanos_lt⟩]
      simp [decodeValue, decodeByte_append, decodeInt_append hlo hhi, takeTurned_append hlength,
        Bytes.ofBigEndian_bigEndian hnanos, hvalid]
  | numeric s =>
      cases h
      simp [decodeValue, decodeByte_append, decodeText_append]
  | json s =>
      cases h
      simp [decodeValue, decodeByte_append, decodeText_append]
  | array items => cases h
  | struct fields => cases h

theorem exists_encodeValue {v : Value} : (∃ bs, encodeValue v = .ok bs) ↔ v.Scalar := by
  cases v <;> simp [encodeValue, Value.Scalar, Value.isNull, Value.baseType?]

theorem encodeValue_ne_nil {v : Value} {bs : Bytes} (h : encodeValue v = .ok bs) : bs ≠ [] := by
  cases v <;> cases h <;> simp

theorem encodeParts_cons {v : Value} {desc : Bool} {parts : List (Value × Bool)} {bs : Bytes} :
    encodeParts ((v, desc) :: parts) = .ok bs ↔ ∃ as cs, encodeValue v = .ok as ∧
      encodeParts parts = .ok cs ∧ bs = as.map (turn desc) ++ cs := by
  simp only [encodeParts, Except.bind_eq_ok, Except.pure_ok, Except.ok.injEq]
  constructor
  · rintro ⟨as, ha, cs, hc, rfl⟩
    exact ⟨as, cs, ha, hc, rfl⟩
  · rintro ⟨as, cs, ha, hc, rfl⟩
    exact ⟨as, ha, cs, hc, rfl⟩

theorem exists_encodeParts {parts : List (Value × Bool)} :
    (∃ bs, encodeParts parts = .ok bs) ↔ ∀ p ∈ parts, p.1.Scalar := by
  induction parts with
  | nil => simp [encodeParts]
  | cons p parts ih =>
      obtain ⟨v, desc⟩ := p
      simp only [encodeParts_cons, List.mem_cons, forall_eq_or_imp, ← exists_encodeValue] at ih ⊢
      rw [← ih]
      constructor
      · rintro ⟨_, as, cs, ha, hc, rfl⟩
        exact ⟨⟨as, ha⟩, cs, hc⟩
      · rintro ⟨⟨as, ha⟩, cs, hc⟩
        exact ⟨_, as, cs, ha, hc, rfl⟩

/-- Parts in the same directions start others exactly if their values do. -/
theorem encodeParts_prefix_iff {ds : List Bool} {ps ks : List Value} {as bs : Bytes}
    (ha : encodeParts (ps.zip ds) = .ok as) (hb : encodeParts (ks.zip ds) = .ok bs)
    (hps : ps.length ≤ ds.length) (hks : ks.length ≤ ds.length) : as <+: bs ↔ ps <+: ks := by
  induction ds generalizing ps ks as bs with
  | nil =>
      obtain rfl := List.length_eq_zero_iff.1 (Nat.le_zero.1 hps)
      cases ha
      simp
  | cons d ds ih =>
      cases ps with
      | nil =>
          cases ha
          simp
      | cons p ps =>
          obtain ⟨as₁, as₂, hp, hps', rfl⟩ := encodeParts_cons.1 ha
          cases ks with
          | nil =>
              cases hb
              simp [encodeValue_ne_nil hp]
          | cons k ks =>
              obtain ⟨bs₁, bs₂, hk, hks', rfl⟩ := encodeParts_cons.1 hb
              have hrest := ih hps' hks' (Nat.le_of_succ_le_succ hps) (Nat.le_of_succ_le_succ hks)
              rw [List.cons_prefix_cons, ← hrest]
              constructor
              · rintro ⟨t, ht⟩
                have hread := decodeValue_append hk d bs₂
                rw [← ht, List.append_assoc, decodeValue_append hp d] at hread
                obtain ⟨rfl, rfl⟩ := Prod.mk.inj (Except.ok.inj hread)
                exact ⟨rfl, List.prefix_append _ _⟩
              · rintro ⟨rfl, ht⟩
                rw [hp] at hk
                cases hk
                exact (List.prefix_append_right_inj _).2 ht

theorem encode_eq_ok {table : String} {parts : List (Value × Bool)} {bs : Bytes} :
    encode table parts = .ok bs ↔ ∃ cs, encodeParts parts = .ok cs ∧ bs = encodeName table ++ cs := by
  simp only [encode, Except.bind_eq_ok, Except.pure_ok, Except.ok.injEq]
  exact exists_congr fun _ => and_congr_right fun _ => eq_comm

theorem exists_encode (table : String) {vs : List Value} (ds : List Bool) (h : ∀ v ∈ vs, v.Scalar) :
    ∃ bs, encode table (vs.zip ds) = .ok bs := by
  obtain ⟨cs, hcs⟩ := exists_encodeParts.2 fun p hp => h p.1 (List.of_mem_zip hp).1
  exact ⟨_, encode_eq_ok.2 ⟨cs, hcs, rfl⟩⟩

theorem decodeName_append (table : String) (rest : Bytes) :
    decodeText false (encodeName table ++ rest) = .ok (table, rest) := by
  have hplain := decodeText_append false table rest
  have hid : (escaped (Utf8.encode table)).map (turn false) = escaped (Utf8.encode table) :=
    List.map_id _
  rwa [hid] at hplain

theorem encodeName_starts {t u : String} {as bs : Bytes}
    (h : encodeName t ++ as <+: encodeName u ++ bs) : t = u ∧ as <+: bs := by
  obtain ⟨rest, hrest⟩ := h
  have hread := decodeName_append u bs
  rw [← hrest, List.append_assoc, decodeName_append] at hread
  obtain ⟨rfl, rfl⟩ := Prod.mk.inj (Except.ok.inj hread)
  exact ⟨rfl, List.prefix_append _ _⟩

theorem encodeName_prefix_iff {t u : String} {bs : Bytes} :
    encodeName t <+: encodeName u ++ bs ↔ t = u := by
  constructor
  · intro h
    rw [← List.append_nil (encodeName t)] at h
    exact (encodeName_starts h).1
  · rintro rfl
    exact List.prefix_append _ _

theorem table_eq_of_prefix {t u : String} {ps ks : List (Value × Bool)} {as bs : Bytes}
    (ha : encode t ps = .ok as) (hb : encode u ks = .ok bs) (h : as <+: bs) : t = u := by
  obtain ⟨as, -, rfl⟩ := encode_eq_ok.1 ha
  obtain ⟨bs, -, rfl⟩ := encode_eq_ok.1 hb
  exact (encodeName_starts h).1

theorem encode_prefix_iff {t u : String} {ds : List Bool} {ps ks : List Value} {as bs : Bytes}
    (ha : encode t (ps.zip ds) = .ok as) (hb : encode u (ks.zip ds) = .ok bs)
    (hps : ps.length ≤ ds.length) (hks : ks.length ≤ ds.length) :
    as <+: bs ↔ t = u ∧ ps <+: ks := by
  obtain ⟨as, hparts, rfl⟩ := encode_eq_ok.1 ha
  obtain ⟨bs, hparts', rfl⟩ := encode_eq_ok.1 hb
  rw [← encodeParts_prefix_iff hparts hparts' hps hks]
  constructor
  · exact encodeName_starts
  · rintro ⟨rfl, h⟩
    exact (List.prefix_append_right_inj _).2 h

theorem encode_injective {t u : String} {ds : List Bool} {ps ks : List Value} {bs : Bytes}
    (ha : encode t (ps.zip ds) = .ok bs) (hb : encode u (ks.zip ds) = .ok bs)
    (hps : ps.length ≤ ds.length) (hks : ks.length ≤ ds.length) : t = u ∧ ps = ks := by
  obtain ⟨htable, hforth⟩ := (encode_prefix_iff ha hb hps hks).1 (List.prefix_refl _)
  obtain ⟨-, hback⟩ := (encode_prefix_iff hb ha hks hps).1 (List.prefix_refl _)
  exact ⟨htable, hforth.eq_of_length_le hback.length_le⟩

end KeyFormat

end RowForest
