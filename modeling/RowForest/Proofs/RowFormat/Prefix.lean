import RowForest.Proofs.RowFormat

namespace RowForest.RowFormat

inductive Fault.Cut : Fault → Prop
  | number : Cut .cutNumber
  | text : Cut .cutText

/-- Whether the second reader answers as the first one does of a beginning, and leaves what comes after
it as well, unless the beginning is too short for the first one. -/
def Streams {α : Type} (r r' : Reader α) : Prop :=
  ∀ bs more, (∃ fault, r bs = .error fault ∧ fault.Cut) ∨ r' (bs ++ more) = (r bs).map (Prod.map id (· ++ more))

section

variable {α β : Type} {r r' : Reader α} {f f' : α × Bytes → Except Fault (β × Bytes)} {fault : Fault}

theorem streams_ok (a : α) : Streams (fun bs => .ok (a, bs)) fun bs => .ok (a, bs) :=
  fun _ _ => .inr rfl

theorem streams_error (fault : Fault) :
    Streams (fun _ => (.error fault : Except Fault (α × Bytes))) fun _ => .error fault :=
  fun _ _ => .inr rfl

theorem streams_cut (hcut : fault.Cut) (r' : Reader α) : Streams (fun _ => .error fault) r' :=
  fun _ _ => .inl ⟨fault, rfl, hcut⟩

theorem Streams.bind (h : Streams r r') (hf : ∀ a, Streams (fun bs => f (a, bs)) fun bs => f' (a, bs)) :
    Streams (fun bs => r bs >>= f) fun bs => r' bs >>= f' := by
  intro bs more
  dsimp only
  rcases h bs more with ⟨fault, hr, hcut⟩ | hr
  · exact .inl ⟨fault, by rw [hr, Except.error_bind], hcut⟩
  · rw [hr]
    cases r bs with
    | error fault => exact .inr rfl
    | ok p => exact hf p.1 p.2 more

theorem streams_take (hcut : fault.Cut) (n : Nat) (g : Bytes → α) :
    Streams (fun bs => if bs.length < n then .error fault else .ok (g (bs.take n), bs.drop n))
      fun bs => if bs.length < n then .error fault else .ok (g (bs.take n), bs.drop n) := by
  intro bs more
  dsimp only
  by_cases hshort : bs.length < n
  · exact .inl ⟨fault, if_pos hshort, hcut⟩
  · have hlong : ¬(bs ++ more).length < n := by
      rw [List.length_append]
      omega
    rw [if_neg hshort, if_neg hlong, List.take_append_of_le_length (by omega),
      List.drop_append_of_le_length (by omega)]
    exact .inr rfl

theorem streams_decodeNumber (w : Nat) : Streams (decodeNumber w) (decodeNumber w) :=
  streams_take .number w Bytes.ofLittleEndian

theorem streams_decodeBytes : Streams decodeBytes decodeBytes :=
  (streams_decodeNumber 8).bind fun n => streams_take .text n id

theorem streams_decodeText : Streams decodeText decodeText := by
  refine streams_decodeBytes.bind fun ds => ?_
  dsimp only
  cases Utf8.decode ds with
  | ok s => exact streams_ok s
  | error fault => exact streams_error (.notText fault)

theorem streams_decodeBool : Streams decodeBool decodeBool := by
  refine (streams_decodeNumber 1).bind fun n => ?_
  match n with
  | 0 => exact streams_ok false
  | 1 => exact streams_ok true
  | n + 2 => exact streams_error (.notBool (n + 2))

theorem streams_decodeCalendar (read : String → Except Calendar.Fault α) :
    Streams (decodeCalendar read) (decodeCalendar read) := by
  refine streams_decodeText.bind fun s => ?_
  dsimp only
  cases read s with
  | ok a => exact streams_ok a
  | error fault => exact streams_error (.calendar fault)

mutual

/-- More fuel changes an answer no more than more bytes do: one that has run out is a fault of the same kind. -/
theorem streams_decodeValue : ∀ {fuel fuel' : Nat}, fuel ≤ fuel' →
    Streams (decodeValue fuel) (decodeValue fuel')
  | 0, _, _ => streams_cut .number _
  | fuel + 1, fuel' + 1, h => by
    rw [Nat.succ_le_succ_iff] at h
    refine (streams_decodeNumber 4).bind fun tag => ?_
    match tag with
    | 0 => exact streams_ok Value.null
    | 1 => exact streams_decodeBool.bind fun b => streams_ok _
    | 2 => exact (streams_decodeNumber 8).bind fun n => streams_ok _
    | 3 => exact (streams_decodeNumber 8).bind fun n => streams_ok _
    | 4 => exact streams_decodeText.bind fun s => streams_ok _
    | 5 => exact streams_decodeBytes.bind fun ds => streams_ok _
    | 6 => exact (streams_decodeCalendar _).bind fun d => streams_ok _
    | 7 => exact (streams_decodeCalendar _).bind fun t => streams_ok _
    | 8 => exact streams_decodeText.bind fun s => streams_ok _
    | 9 => exact streams_decodeText.bind fun s => streams_ok _
    | 10 =>
      exact (streams_decodeNumber 8).bind fun n => (streams_decodeItems h n).bind fun vs => streams_ok _
    | 11 =>
      exact (streams_decodeNumber 8).bind fun n => (streams_decodeFields h n .empty).bind fun r => streams_ok _
    | n + 12 => exact streams_error _

theorem streams_decodeItems : ∀ {fuel fuel' : Nat}, fuel ≤ fuel' → ∀ n,
    Streams (decodeItems fuel n) (decodeItems fuel' n)
  | 0, fuel', _, 0 => by cases fuel' <;> exact streams_ok []
  | 0, _, _, n + 1 => streams_cut .number _
  | fuel + 1, fuel' + 1, _, 0 => streams_ok []
  | fuel + 1, fuel' + 1, h, n + 1 => by
    rw [Nat.succ_le_succ_iff] at h
    exact (streams_decodeValue h).bind fun v => (streams_decodeItems h n).bind fun vs => streams_ok _

theorem streams_decodeFields : ∀ {fuel fuel' : Nat}, fuel ≤ fuel' → ∀ n r,
    Streams (decodeFields fuel n r) (decodeFields fuel' n r)
  | 0, fuel', _, 0, r => by cases fuel' <;> exact streams_ok r
  | 0, _, _, n + 1, r => streams_cut .number _
  | fuel + 1, fuel' + 1, _, 0, r => streams_ok r
  | fuel + 1, fuel' + 1, h, n + 1, r => by
    rw [Nat.succ_le_succ_iff] at h
    exact streams_decodeText.bind fun c => (streams_decodeValue h).bind fun v => streams_decodeFields h n _

end

theorem streams_decodeRow : Streams decodeRow decodeRow :=
  (streams_decodeNumber 8).bind fun n bs more => by
    have hfuel : bs.length + 1 ≤ (bs ++ more).length + 1 := by
      rw [List.length_append]
      omega
    exact streams_decodeFields hfuel n .empty bs more

end

/-- From the bytes of a row that row is read back, its columns in their order and its values with all their
bits, and no byte is left. Of fewer of these bytes none make a row: each proper beginning ends too early. -/
theorem decode_prefix_encode {r : Row} (hdistinct : Value.FieldsDistinct r.fields)
    (hlimit : (encode r).length < limit) :
    decodeRow (encode r) = .ok (r, []) ∧
      ∀ bs, bs <+: encode r → bs = encode r ∨ ∃ fault, decode bs = .error fault ∧ fault.Cut := by
  have hwhole := decodeRow_append hdistinct hlimit []
  rw [List.append_nil] at hwhole
  refine ⟨hwhole, ?_⟩
  rintro bs ⟨more, hmore⟩
  rcases streams_decodeRow bs more with ⟨fault, hfault, hcut⟩ | hread
  · exact .inr ⟨fault, by rw [decode, hfault]; rfl, hcut⟩
  · left
    rw [hmore, hwhole] at hread
    cases hbs : decodeRow bs with
    | error fault =>
        rw [hbs] at hread
        cases hread
    | ok p =>
        rw [hbs] at hread
        have hrest : [] = p.2 ++ more := congrArg Prod.snd (Except.ok.inj hread)
        rw [← hmore, (List.append_eq_nil_iff.1 hrest.symm).2, List.append_nil]

namespace Sample

def row : Row := .ofFields [("id", .int64 (-7)), ("data", .bytes [0, 0xff]), ("ratio", .float64 ⟨0xfff8000000000001⟩),
  ("tags", .array [.string "añb", .null, .struct [("b", .bool true), ("a", .array [])]]),
  ("day", .date ⟨738945, by decide, by decide⟩),
  ("at", .timestamp ⟨1435708799, 1999999999, by decide, by decide, by decide⟩), ("sum", .numeric "1.50")]

end Sample

theorem decode_prefix_encode_sample : Value.FieldsDistinct Sample.row.fields ∧ (encode Sample.row).length < limit ∧
    decodeRow (encode Sample.row) = .ok (Sample.row, []) ∧
      (encode Sample.row).dropLast <+: encode Sample.row ∧
        ∃ fault, decode (encode Sample.row).dropLast = .error fault ∧ fault.Cut := by
  have hdistinct : Value.FieldsDistinct Sample.row.fields := by
    simp [Sample.row, Row.ofFields, Row.set, Row.empty, Fields.put, Value.FieldsDistinct, Value.ItemsDistinct,
      Value.Distinct]
  have hlimit : (encode Sample.row).length < limit := by decide +kernel
  obtain ⟨hwhole, hcut⟩ := decode_prefix_encode hdistinct hlimit
  have hprefix := List.dropLast_prefix (encode Sample.row)
  have hne : (encode Sample.row).dropLast ≠ encode Sample.row := by decide +kernel
  exact ⟨hdistinct, hlimit, hwhole, hprefix, (hcut _ hprefix).resolve_left hne⟩

end RowForest.RowFormat
