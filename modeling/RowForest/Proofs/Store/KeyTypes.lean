import RowForest.Proofs.Store.Order

namespace RowForest

namespace ColumnType

variable {type : ColumnType} {v w : Value}

theorem accepts_congr {a b : ColumnType} (h : (a.base, a.array) = (b.base, b.array)) (v : Value) :
    a.accepts v = b.accepts v := by
  obtain ⟨hbase, harray⟩ := Prod.mk.inj h
  cases v <;> simp [accepts, hbase, harray]

/-- Whether a type's values are single ones which the order tells apart just as equality does. -/
structure Exact (type : ColumnType) : Prop where
  single : type.array = false
  not_float : type.base ≠ .float64
  not_json : type.base ≠ .json

instance (type : ColumnType) : Decidable type.Exact :=
  decidable_of_iff (type.array = false ∧ type.base ≠ .float64 ∧ type.base ≠ .json)
    ⟨fun h => ⟨h.1, h.2.1, h.2.2⟩, fun h => ⟨h.single, h.not_float, h.not_json⟩⟩

theorem Exact.regular (h : type.Exact) (hv : type.accepts v = true) : v.Scalar ∧ v.Regular := by
  cases v with
  | array items => simp [accepts, h.single] at hv
  | struct fields => simp [accepts, Value.baseType?] at hv
  | float64 x => exact absurd (by simpa [accepts, h.single, Value.baseType?, eq_comm] using hv) h.not_float
  | json s => exact absurd (by simpa [accepts, h.single, Value.baseType?, eq_comm] using hv) h.not_json
  | _ => exact ⟨by simp [Value.Scalar, Value.isNull, Value.baseType?], rfl, rfl, by simp [Value.baseType?]⟩

theorem Exact.compare? (h : type.Exact) (hv : type.accepts v = true) (hw : type.accepts w = true) :
    ∃ o, v.compare? w = some o ∧ (o = .eq ↔ v = w) := by
  obtain ⟨hscalar, hregular⟩ := h.regular hv
  obtain ⟨hscalar', hregular'⟩ := h.regular hw
  cases hnull : v.isNull with
  | true =>
      rw [Value.isNull_iff.1 hnull]
      cases w <;> exact ⟨_, rfl, by simp⟩
  | false =>
      cases hnull' : w.isNull with
      | true =>
          rw [Value.isNull_iff.1 hnull']
          cases v <;> exact ⟨_, rfl, by simp⟩
      | false =>
          refine KeyFormat.compare?_of_regular ⟨⟨hscalar, hregular.number⟩, ⟨hscalar', hregular'.number⟩, ?_⟩
            hregular hregular' hnull hnull'
          exact RowStore.alike_of_base hscalar hscalar' hv hw rfl

end ColumnType

namespace Table

def ExactKeys (t : Table) : Prop :=
  ∀ c ∈ t.keyColumns, ∀ column, t.column? c = some column → column.type.Exact

def SharesKey (parent child : Table) : Prop :=
  ∀ c ∈ parent.keyColumns, (child.column? c).map (fun d => (d.type.base, d.type.array)) =
    (parent.column? c).map (fun d => (d.type.base, d.type.array))

instance (t : Table) : Decidable t.ExactKeys :=
  inferInstanceAs (Decidable (∀ c ∈ t.keyColumns, ∀ column ∈ t.column? c, column.type.Exact))

instance (parent child : Table) : Decidable (parent.SharesKey child) :=
  inferInstanceAs (Decidable (∀ c ∈ parent.keyColumns, _ = _))

end Table

end RowForest
