import RowForest.Proofs.Key.Reading
import RowForest.Proofs.Store.Staging

namespace RowForest

theorem Staging.mem_scan {s : Staging} {p k v : Bytes} :
    (k, v) ∈ (s.scan p).entries ↔ s.get? k = some v ∧ p <+: k := by
  rw [scan_eq, SortedMap.mem_scan, ← find?_commit, SortedMap.find?_eq_some]

namespace KeyFormat

/-- A key starts another one's bytes only if both are of one table and its values are the other's
first ones. So different keys never have the same bytes, and a scan, with or without staged writes on
top, comes upon a key exactly if it is below the one scanned for. -/
theorem scan_encode (t u : String) {ds : List Bool} {ps ks : List Value}
    (hps : ∀ v ∈ ps, v.Scalar) (hks : ∀ v ∈ ks, v.Scalar)
    (hps' : ps.length ≤ ds.length) (hks' : ks.length ≤ ds.length) :
    ∃ as bs, encode t (ps.zip ds) = .ok as ∧ encode u (ks.zip ds) = .ok bs ∧
      (as <+: bs ↔ t = u ∧ ps <+: ks) ∧ (as = bs ↔ t = u ∧ ps = ks) ∧
      ∀ (s : Staging) (v : Bytes),
        (bs, v) ∈ (s.scan as).entries ↔ s.get? bs = some v ∧ t = u ∧ ps <+: ks := by
  obtain ⟨as, has⟩ := exists_encode t ds hps
  obtain ⟨bs, hbs⟩ := exists_encode u ds hks
  have hstarts := encode_prefix_iff has hbs hps' hks'
  refine ⟨as, bs, has, hbs, hstarts, ⟨?_, ?_⟩, fun s v => ?_⟩
  · rintro rfl
    exact encode_injective has hbs hps' hks'
  · rintro ⟨rfl, rfl⟩
    rw [has] at hbs
    exact Except.ok.inj hbs
  · rw [Staging.mem_scan, hstarts]

/-- One more zero byte in a descending text makes a different key, and none below the shorter one. -/
theorem scan_encode_sample : ∃ as bs,
    encode "Song" [(.string "a", true)] = .ok as ∧
      encode "Song" [(.string "a\x00", true), (.int64 1, false)] = .ok bs ∧ ¬as <+: bs ∧
      ∀ (s : Staging) (v : Bytes), (bs, v) ∉ (s.scan as).entries := by
  have hscalar : ∀ v ∈ [Value.string "a\x00", .int64 1], v.Scalar := by
    simp [Value.Scalar, Value.baseType?]
  have hfirst : ∀ v ∈ [Value.string "a"], v.Scalar := by
    simp [Value.Scalar, Value.baseType?]
  have hapart : ¬[Value.string "a"] <+: [.string "a\x00", .int64 1] := by
    simp [List.cons_prefix_cons]
  have hds (n : Nat) (h : n ≤ 2) : n ≤ [true, false].length := h
  obtain ⟨as, bs, has, hbs, hstarts, -, hscan⟩ :=
    scan_encode "Song" "Song" hfirst hscalar (hds 1 (by decide)) (hds 2 (by decide))
  exact ⟨as, bs, has, hbs, fun h => hapart (hstarts.1 h).2,
    fun s v h => hapart ((hscan s v).1 h).2.2⟩

end KeyFormat

end RowForest
