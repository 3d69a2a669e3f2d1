import RowForest.RowFormat
import RowForest.Proofs.Bytes
import RowForest.Proofs.Calendar.Reader
import RowForest.Proofs.Row
import RowForest.Proofs.Text.Utf8

namespace RowForest

namespace Value

mutual

def Distinct : Value → Prop
  | array items => ItemsDistinct items
  | struct fields => (fields.map Prod.fst).Nodup ∧ FieldsDistinct fields
  | _ => True
termination_by structural x => x

def ItemsDistinct : List Value → Prop
  | [] => True
  | v :: vs => v.Distinct ∧ ItemsDistinct vs
termination_by structural x => x

def FieldsDistinct : List (String × Value) → Prop
  | [] => True
  | (_, v) :: fs => v.Distinct ∧ FieldsDistinct fs
termination_by structural x => x

end

end Value

namespace RowFormat

def limit : Nat := 2 ^ 64

@[simp] theorem length_number (w n : Nat) : (number w n).length = w :=
  Bytes.length_littleEndian w n

theorem decodeNumber_append {w n : Nat} (h : n < 256 ^ w) (rest : Bytes) :
    decodeNumber w (number w n ++ rest) = .ok (n, rest) := by
  have hlength := length_number w n
  have hlong : ¬(number w n ++ rest).length < w := by
    rw [List.length_append]
    omega
  rw [decodeNumber, if_neg hlong, List.take_left' hlength, List.drop_left' hlength, number,
    Bytes.ofLittleEndian_littleEndian h]

theorem decodeBytes_append {bs : Bytes} (h : bs.length < limit) (rest : Bytes) :
    decodeBytes (encodeBytes bs ++ rest) = .ok (bs, rest) := by
  have hlong : ¬(bs ++ rest).length < bs.length := by
    rw [List.length_append]
    omega
  rw [decodeBytes, encodeBytes, List.append_assoc, decodeNumber_append (w := 8) h]
  simp only [Except.ok_bind, if_neg hlong, List.take_left, List.drop_left]

theorem decodeText_append {s : String} (h : (Utf8.encode s).length < limit) (rest : Bytes) :
    decodeText (encodeText s ++ rest) = .ok (s, rest) := by
  rw [decodeText, encodeText, decodeBytes_append h]
  simp only [Except.ok_bind, Utf8.decode_encode]

theorem decodeCalendar_append {α : Type} {read : String → Except Calendar.Fault α} {s : String}
    {a : α} (hread : read s = .ok a) (h : (Utf8.encode s).length < limit) (rest : Bytes) :
    decodeCalendar read (encodeText s ++ rest) = .ok (a, rest) := by
  rw [decodeCalendar, decodeText_append h]
  simp only [Except.ok_bind, hread]

theorem decodeBool_append (b : Bool) (rest : Bytes) :
    decodeBool (number 1 b.toNat ++ rest) = .ok (b, rest) := by
  rw [decodeBool, decodeNumber_append (by cases b <;> decide)]
  cases b <;> rfl

@[simp] theorem length_encodeBytes (bs : Bytes) : (encodeBytes bs).length = 8 + bs.length := by
  simp [encodeBytes]

@[simp] theorem length_encodeText (s : String) :
    (encodeText s).length = 8 + (Utf8.encode s).length := by
  simp [encodeText]

theorem four_le_length_encodeValue (v : Value) : 4 ≤ (encodeValue v).length := by
  cases v <;> simp [encodeValue]

theorem length_le_encodeItems (vs : List Value) : vs.length ≤ (encodeItems vs).length := by
  induction vs with
  | nil => simp
  | cons v vs ih =>
      have hlong := four_le_length_encodeValue v
      rw [encodeItems, List.length_append, List.length_cons]
      omega

theorem length_le_encodeFields (fs : List (String × Value)) :
    fs.length ≤ (encodeFields fs).length := by
  induction fs with
  | nil => simp
  | cons f fs ih =>
      have hlong := four_le_length_encodeValue f.2
      rw [encodeFields, List.length_append, List.length_append, List.length_cons]
      omega

mutual

/-- A value is read back in front of whatever follows it, given as much fuel as it has bytes. -/
theorem decodeValue_append : ∀ {v : Value} {fuel : Nat}, v.Distinct →
    (encodeValue v).length < limit → (encodeValue v).length ≤ fuel → ∀ rest : Bytes,
      decodeValue fuel (encodeValue v ++ rest) = .ok (v, rest)
  | v, 0, _, _, hfuel, _ => by
    have hlong := four_le_length_encodeValue v
    omega
  | .null, fuel + 1, _, _, _, rest => by
    rw [encodeValue, decodeValue, decodeNumber_append (by decide)]
    rfl
  | .bool b, fuel + 1, _, _, _, rest => by
    rw [encodeValue, List.append_assoc, decodeValue, decodeNumber_append (by decide)]
    simp only [Except.ok_bind, decodeBool_append]
  | .int64 i, fuel + 1, _, _, _, rest => by
    rw [encodeValue, List.append_assoc, decodeValue, decodeNumber_append (by decide)]
    simp only [Except.ok_bind]
    rw [decodeNumber_append (w := 8) i.toUInt64.toNat_lt, Except.ok_bind, UInt64.ofNat_toNat,
      Int64.toInt64_toUInt64]
  | .float64 x, fuel + 1, _, _, _, rest => by
    rw [encodeValue, List.append_assoc, decodeValue, decodeNumber_append (by decide)]
    simp only [Except.ok_bind]
    rw [decodeNumber_append (w := 8) x.bits.toNat_lt, Except.ok_bind, UInt64.ofNat_toNat]
  | .string s, fuel + 1, _, hlimit, _, rest => by
    simp only [encodeValue, List.length_append, length_encodeText] at hlimit
    rw [encodeValue, List.append_assoc, decodeValue, decodeNumber_append (by decide)]
    simp only [Except.ok_bind]
    rw [decodeText_append (by omega)]
    rfl
  | .bytes bs, fuel + 1, _, hlimit, _, rest => by
    simp only [encodeValue, List.length_append, length_encodeBytes] at hlimit
    rw [encodeValue, List.append_assoc, decodeValue, decodeNumber_append (by decide)]
    simp only [Except.ok_bind]
    rw [decodeBytes_append (by omega)]
    rfl
  | .date d, fuel + 1, _, hlimit, _, rest => by
    simp only [encodeValue, List.length_append, length_encodeText] at hlimit
    rw [encodeValue, List.append_assoc, decodeValue, decodeNumber_append (by decide)]
    simp only [Except.ok_bind]
    rw [decodeCalendar_append (Calendar.readFreeDate_text d) (by omega)]
    rfl
  | .timestamp t, fuel + 1, _, hlimit, _, rest => by
    simp only [encodeValue, List.length_append, length_encodeText] at hlimit
    rw [encodeValue, List.append_assoc, decodeValue, decodeNumber_append (by decide)]
    simp only [Except.ok_bind]
    rw [timestampText] at hlimit ⊢
    rw [decodeCalendar_append (Calendar.readFreeTimestamp_zonedText t) (by omega)]
    rfl
  | .numeric s, fuel + 1, _, hlimit, _, rest => by
    simp only [encodeValue, List.length_append, length_encodeText] at hlimit
    rw [encodeValue, List.append_assoc, decodeValue, decodeNumber_append (by decide)]
    simp only [Except.ok_bind]
    rw [decodeText_append (by omega)]
    rfl
  | .json s, fuel + 1, _, hlimit, _, rest => by
    simp only [encodeValue, List.length_append, length_encodeText] at hlimit
    rw [encodeValue, List.append_assoc, decodeValue, decodeNumber_append (by decide)]
    simp only [Except.ok_bind]
    rw [decodeText_append (by omega)]
    rfl
  | .array items, fuel + 1, hdistinct, hlimit, hfuel, rest => by
    simp only [encodeValue, List.length_append, length_number] at hlimit hfuel
    have hcount := length_le_encodeItems items
    rw [encodeValue, List.append_assoc, List.append_assoc, decodeValue,
      decodeNumber_append (by decide)]
    simp only [Except.ok_bind]
    rw [decodeNumber_append (by rw [limit] at hlimit; omega)]
    simp only [Except.ok_bind]
    rw [decodeItems_append hdistinct (by omega) (by omega)]
    rfl
  | .struct fields, fuel + 1, hdistinct, hlimit, hfuel, rest => by
    simp only [encodeValue, List.length_append, length_number] at hlimit hfuel
    have hcount := length_le_encodeFields fields
    rw [encodeValue, List.append_assoc, List.append_assoc, decodeValue,
      decodeNumber_append (by decide)]
    simp only [Except.ok_bind]
    rw [decodeNumber_append (by rw [limit] at hlimit; omega)]
    simp only [Except.ok_bind]
    rw [decodeFields_append (r := .empty) hdistinct.1 hdistinct.2 (by omega) (by omega)]
    rfl
termination_by structural v => v

theorem decodeItems_append : ∀ {vs : List Value} {fuel : Nat}, Value.ItemsDistinct vs →
    (encodeItems vs).length < limit → (encodeItems vs).length < fuel → ∀ rest : Bytes,
      decodeItems fuel vs.length (encodeItems vs ++ rest) = .ok (vs, rest)
  | [], fuel, _, _, _, rest => by cases fuel <;> rfl
  | v :: vs, fuel + 1, hdistinct, hlimit, hfuel, rest => by
    have hlong := four_le_length_encodeValue v
    simp only [encodeItems, List.length_append] at hlimit hfuel
    rw [encodeItems, List.append_assoc, List.length_cons, decodeItems,
      decodeValue_append hdistinct.1 (by omega) (by omega)]
    simp only [Except.ok_bind]
    rw [decodeItems_append hdistinct.2 (by omega) (by omega)]
    rfl
termination_by structural vs => vs

theorem decodeFields_append : ∀ {fs : List (String × Value)} {r : Row} {fuel : Nat}
    (h : ((r.fields ++ fs).map Prod.fst).Nodup), Value.FieldsDistinct fs →
    (encodeFields fs).length < limit → (encodeFields fs).length ≤ fuel → ∀ rest : Bytes,
      decodeFields fuel fs.length r (encodeFields fs ++ rest) = .ok (⟨r.fields ++ fs, h⟩, rest)
  | [], r, fuel, _, _, _, _, rest => by
    have hr : (⟨r.fields ++ [], by simpa using r.distinct⟩ : Row) = r := Row.ext (List.append_nil _)
    rw [hr]
    cases fuel <;> rfl
  | (c, v) :: fs, r, 0, _, _, _, hfuel, rest => by
    simp [encodeFields] at hfuel
  | (c, v) :: fs, r, fuel + 1, h, hdistinct, hlimit, hfuel, rest => by
    simp only [encodeFields, List.length_append, length_encodeText] at hlimit hfuel
    have hfresh : c ∉ r.columns := by
      rw [List.map_append, List.nodup_append] at h
      exact fun hc => h.2.2 c hc c (by simp) rfl
    have hset := Row.fields_set_of_not_mem (v := v) hfresh
    have hfields : (r.set c v).fields ++ fs = r.fields ++ (c, v) :: fs := by simp [hset]
    rw [encodeFields, List.append_assoc, List.append_assoc, List.length_cons, decodeFields,
      decodeText_append (by omega)]
    simp only [Except.ok_bind]
    rw [decodeValue_append hdistinct.1 (by omega) (by omega)]
    simp only [Except.ok_bind]
    rw [decodeFields_append (r := r.set c v) (by rw [hfields]; exact h) hdistinct.2 (by omega) (by omega)]
    simp only [hfields]
termination_by structural fs => fs

end

theorem decodeRow_append {r : Row} (hdistinct : Value.FieldsDistinct r.fields)
    (hlimit : (encode r).length < limit) (rest : Bytes) :
    decodeRow (encode r ++ rest) = .ok (r, rest) := by
  obtain ⟨fields, hnodup⟩ := r
  simp only [encode, List.length_append, length_number] at hlimit ⊢
  have hcount := length_le_encodeFields fields
  rw [decodeRow, List.append_assoc, decodeNumber_append (by rw [limit] at hlimit; omega)]
  simp only [Except.ok_bind]
  rw [decodeFields_append (r := .empty) hnodup hdistinct (by omega)
    (by rw [List.length_append]; omega)]
  rfl

theorem decode_encode {r : Row} (hdistinct : Value.FieldsDistinct r.fields)
    (hlimit : (encode r).length < limit) : decode (encode r) = .ok r := by
  have hrow := decodeRow_append hdistinct hlimit []
  rw [List.append_nil] at hrow
  rw [decode, hrow]
  rfl

theorem store_eq_ok {r : Row} {bs : Bytes} :
    store r = .ok bs ↔ bs = encode r ∧ (encode r).length < limit := by
  unfold store limit
  split
  · next h => exact ⟨fun hstore => ⟨(Except.ok.inj hstore).symm, h⟩, fun ⟨hbytes, _⟩ => hbytes ▸ rfl⟩
  · next h => exact ⟨fun hstore => (nomatch hstore), fun ⟨_, hlimit⟩ => absurd hlimit h⟩

end RowFormat

end RowForest
