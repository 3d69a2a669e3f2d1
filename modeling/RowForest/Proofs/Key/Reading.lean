import RowForest.Proofs.Key.Canonical

namespace RowForest.KeyFormat

theorem decodeParts_append {vs : List Value} {ds : List Bool} (hlength : vs.length = ds.length)
    {bs : Bytes} (h : encodeParts (vs.zip ds) = .ok bs) (rest : Bytes) :
    decodeParts ds (bs ++ rest) = .ok (vs, rest) := by
  have hwritten := (encodeParts_eq_ok hlength).1 h
  exact decodeParts_eq_ok.2 ⟨bs, hwritten.readable, rfl⟩

theorem decode_append {table : String} {vs : List Value} {ds : List Bool}
    (hlength : vs.length = ds.length) {bs : Bytes} (h : encode table (vs.zip ds) = .ok bs)
    (rest : Bytes) : decode (bs ++ rest) ds =
      if rest.isEmpty then .ok (table, vs) else .error (.trailing rest) := by
  obtain ⟨cs, hcs, rfl⟩ := encode_eq_ok.1 h
  rw [decode, List.append_assoc, decodeName_append, Except.ok_bind]
  dsimp only
  rw [decodeParts_append hlength hcs, Except.ok_bind]
  rfl

/-- A key has bytes, and from these, with the directions of its parts, its table's name and its values
are read back as they were. Floats keep all their bits, and a timestamp stays in its leap second. -/
theorem decode_encode_key (table : String) {vs : List Value} {ds : List Bool}
    (hlength : vs.length = ds.length) (hvs : ∀ v ∈ vs, v.Scalar) :
    ∃ bs, encode table (vs.zip ds) = .ok bs ∧ decode bs ds = .ok (table, vs) := by
  obtain ⟨bs, hbs⟩ := exists_encode table ds hvs
  refine ⟨bs, hbs, ?_⟩
  have hread := decode_append hlength hbs []
  rwa [List.append_nil] at hread

def sampleValues : List Value := [.string "a\x00b", .float64 ⟨0xfff8000000000001⟩, .bytes [0, 0xff, 1],
  .timestamp ⟨1483228799, 1999999999, by decide, by decide, by decide⟩, .null]

theorem decode_encode_key_sample : (∀ v ∈ sampleValues, v.Scalar) ∧
    ∃ bs, encode "T\x00" (sampleValues.zip [true, false, true, true, false]) = .ok bs ∧
      decode bs [true, false, true, true, false] = .ok ("T\x00", sampleValues) := by
  have hscalar : ∀ v ∈ sampleValues, v.Scalar := by
    simp [sampleValues, Value.Scalar, Value.isNull, Value.baseType?]
  exact ⟨hscalar, decode_encode_key "T\x00" rfl hscalar⟩

end RowForest.KeyFormat
