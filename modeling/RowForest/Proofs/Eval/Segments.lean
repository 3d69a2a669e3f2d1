import RowForest.Eval.Value
import RowForest.Proofs.Eval.Like
import RowForest.Proofs.Text.Utf8

namespace RowForest.Eval

inductive Part (α : Type)
  | any
  | one
  | just (a : α)
deriving DecidableEq

/-- The segments that a part stands for. -/
def Part.Admits {α : Type} : Part α → List α → Prop
  | any, _ => True
  | one, s => ∃ a, s = [a]
  | just a, s => s = [a]

/-- Whether a text can be cut into consecutive segments that match some parts in their order. -/
def Cuts {α : Type} (ps : List (Part α)) (v : List α) : Prop :=
  ∃ segments, List.Forall₂ Part.Admits ps segments ∧ segments.flatten = v

structure Marks (α : Type) [DecidableEq α] where
  any : α
  one : α
  escape : α
  nodup : [any, one, escape].Nodup := by decide

def characters : Marks Char where
  any := '%'
  one := '_'
  escape := '\\'

def octets : Marks UInt8 where
  any := 0x25
  one := 0x5F
  escape := 0x5C

section

variable {α : Type} {ps : List (Part α)} {a : α} {as v : List α}

theorem cuts_nil : Cuts ([] : List (Part α)) v ↔ v = [] := by
  constructor
  · rintro ⟨_, ⟨⟩, rfl⟩
    rfl
  · rintro rfl
    exact ⟨[], .nil, rfl⟩

theorem cuts_cons {p : Part α} : Cuts (p :: ps) v ↔ ∃ s b, p.Admits s ∧ v = s ++ b ∧ Cuts ps b := by
  constructor
  · rintro ⟨_, _ | ⟨hp, hps⟩, rfl⟩
    exact ⟨_, _, hp, List.flatten_cons, _, hps, rfl⟩
  · rintro ⟨s, b, hp, rfl, segments, hps, rfl⟩
    exact ⟨s :: segments, .cons hp hps, List.flatten_cons⟩

theorem cuts_any : Cuts (.any :: ps) v ↔ ∃ s b, v = s ++ b ∧ Cuts ps b := by
  simp [cuts_cons, Part.Admits]

theorem cuts_one : Cuts (.one :: ps) v ↔ ∃ a b, v = a :: b ∧ Cuts ps b := by
  rw [cuts_cons]
  constructor
  · rintro ⟨_, b, ⟨a, rfl⟩, rfl, h⟩
    exact ⟨a, b, rfl, h⟩
  · rintro ⟨a, b, rfl, h⟩
    exact ⟨[a], b, ⟨a, rfl⟩, rfl, h⟩

theorem cuts_just : Cuts (.just a :: ps) v ↔ ∃ b, v = a :: b ∧ Cuts ps b := by
  simp [cuts_cons, Part.Admits]

theorem cuts_justs : Cuts (as.map .just ++ ps) v ↔ ∃ b, v = as ++ b ∧ Cuts ps b := by
  induction as generalizing v with
  | nil => simp
  | cons a as ih =>
      rw [List.map_cons, List.cons_append, cuts_just]
      simp only [ih]
      constructor
      · rintro ⟨_, rfl, b, rfl, h⟩
        exact ⟨b, rfl, h⟩
      · rintro ⟨b, rfl, h⟩
        exact ⟨as ++ b, rfl, b, rfl, h⟩

end

namespace Marks

variable {α : Type} [DecidableEq α] {m : Marks α} {a : α} {p as v : List α}

def parts (m : Marks α) : List α → List (Part α)
  | [] => []
  | [a] => [if a = m.any then .any else if a = m.one then .one else .just a]
  | a :: b :: p =>
    if a = m.any then .any :: parts m (b :: p)
    else if a = m.one then .one :: parts m (b :: p)
    else if a = m.escape then .just b :: parts m p
    else .just a :: parts m (b :: p)

def Plain (m : Marks α) (a : α) : Prop := a ≠ m.any ∧ a ≠ m.one ∧ a ≠ m.escape

theorem parts_any (m : Marks α) (p : List α) : m.parts (m.any :: p) = .any :: m.parts p := by
  cases p <;> simp [parts]

theorem parts_one (m : Marks α) (p : List α) : m.parts (m.one :: p) = .one :: m.parts p := by
  have hne : m.one ≠ m.any := by
    have hnodup := m.nodup
    simp at hnodup
    tauto
  cases p <;> simp [parts, hne]

theorem parts_escape (m : Marks α) (a : α) (p : List α) :
    m.parts (m.escape :: a :: p) = .just a :: m.parts p := by
  have hne : m.escape ≠ m.any ∧ m.escape ≠ m.one := by
    have hnodup := m.nodup
    simp at hnodup
    tauto
  simp [parts, hne]

theorem parts_cons (hany : a ≠ m.any) (hone : a ≠ m.one) (hescape : a = m.escape → p = []) :
    m.parts (a :: p) = .just a :: m.parts p := by
  cases p with
  | nil => simp [parts, hany, hone]
  | cons b p => simp [parts, hany, hone, mt hescape]

theorem parts_append (h : ∀ a ∈ as, m.Plain a) : m.parts (as ++ p) = as.map .just ++ m.parts p := by
  induction as with
  | nil => rfl
  | cons a as ih =>
      obtain ⟨⟨hany, hone, hescape⟩, hrest⟩ := List.forall_mem_cons.1 h
      rw [List.cons_append, parts_cons hany hone fun h => absurd h hescape, ih hrest]
      rfl

theorem cuts_plain (h : ∀ a ∈ p, m.Plain a) : Cuts (m.parts p) v ↔ v = p := by
  have hparts := parts_append (m := m) (p := []) h
  rw [List.append_nil] at hparts
  rw [hparts, cuts_justs, parts]
  simp [cuts_nil]

end Marks

def Token.part : Token → Part Char
  | any => .any
  | one => .one
  | char c => .just c

theorem eq_nil_of_no_escape {c : Char} {p : List Char} (h : ∀ d r, c = '\\' → p = d :: r → False)
    (hc : c = '\\') : p = [] := by
  cases p with
  | nil => rfl
  | cons d r => exact (h d r hc rfl).elim

theorem parts_characters (p : List Char) : characters.parts p = (tokens p).map Token.part := by
  induction p using tokens.induct with
  | case1 => rfl
  | case2 p ih =>
      rw [tokens, List.map_cons, ← ih]
      exact characters.parts_any p
  | case3 p ih =>
      rw [tokens, List.map_cons, ← ih]
      exact characters.parts_one p
  | case4 c p ih =>
      rw [tokens, List.map_cons, ← ih]
      exact characters.parts_escape c p
  | case5 c p hany hone hescape ih =>
      rw [tokens.eq_5 c p hany hone hescape, List.map_cons, ← ih]
      exact Marks.parts_cons hany hone (eq_nil_of_no_escape hescape)

theorem matches_iff_cuts {ts : List Token} {v : List Char} : Matches ts v ↔ Cuts (ts.map Token.part) v := by
  induction ts generalizing v with
  | nil => rw [matches_nil, List.map_nil, cuts_nil]
  | cons t ts ih =>
      cases t with
      | any =>
          rw [matches_any]
          simp only [ih]
          exact cuts_any.symm
      | one =>
          rw [matches_one]
          simp only [ih]
          exact cuts_one.symm
      | char c =>
          rw [matches_char]
          simp only [ih]
          exact cuts_just.symm

theorem like_iff_cuts {p v : List Char} : like p v = true ↔ Cuts (characters.parts p) v := by
  rw [like_iff, matches_iff_cuts, parts_characters]

/-- The parts that stand for the bytes of what a part stands for, but for a single byte where the part
stands for a single character. -/
def Part.bytes : Part Char → List (Part UInt8)
  | any => [.any]
  | one => [.one]
  | just c => (Utf8.encodeChar c).map .just

theorem plain_of_tail {b : UInt8} (h : Utf8.Tail b) : octets.Plain b := by
  have hne {m : UInt8} (hm : m.toNat < 0x80) : b ≠ m := by
    rintro rfl
    exact absurd h.1 (by omega)
  exact ⟨hne (by decide), hne (by decide), hne (by decide)⟩

theorem eq_of_first {a : UInt8} {tails : Bytes} {c d : Char} (h : Utf8.Spelling c a tails)
    (hd : d.toNat < 0x80) (ha : a.toNat = d.toNat) : c = d ∧ tails = [] := by
  obtain ⟨hc, htails⟩ := h.ascii (ha ▸ hd)
  exact ⟨Char.toNat_inj.1 (hc.symm.trans ha), htails⟩

theorem parts_octets (p : List Char) :
    octets.parts (p.flatMap Utf8.encodeChar) = (characters.parts p).flatMap Part.bytes := by
  induction p using tokens.induct with
  | case1 => rfl
  | case2 p ih =>
      have hchars : characters.parts ('%' :: p) = .any :: characters.parts p := characters.parts_any p
      rw [hchars, List.flatMap_cons, List.flatMap_cons, ← ih]
      exact octets.parts_any _
  | case3 p ih =>
      have hchars : characters.parts ('_' :: p) = .one :: characters.parts p := characters.parts_one p
      rw [hchars, List.flatMap_cons, List.flatMap_cons, ← ih]
      exact octets.parts_one _
  | case4 c p ih =>
      have hchars : characters.parts ('\\' :: c :: p) = .just c :: characters.parts p :=
        characters.parts_escape c p
      obtain ⟨a, tails, h⟩ := Utf8.spelling c
      rw [hchars, List.flatMap_cons, List.flatMap_cons, List.flatMap_cons, ← ih, Part.bytes, h.bytes]
      have hbytes := octets.parts_escape a (tails ++ p.flatMap Utf8.encodeChar)
      rw [Marks.parts_append fun b hb => plain_of_tail (h.rest b hb)] at hbytes
      exact hbytes
  | case5 c p hany hone hescape ih =>
      have hlast := eq_nil_of_no_escape hescape
      have hchars : characters.parts (c :: p) = .just c :: characters.parts p :=
        Marks.parts_cons hany hone hlast
      obtain ⟨a, tails, h⟩ := Utf8.spelling c
      rw [hchars, List.flatMap_cons, List.flatMap_cons, ← ih, Part.bytes, h.bytes, List.cons_append,
        Marks.parts_cons ?_ ?_ ?_, Marks.parts_append fun b hb => plain_of_tail (h.rest b hb)]
      · rfl
      · rintro rfl
        exact hany (eq_of_first h (by decide) rfl).1
      · rintro rfl
        exact hone (eq_of_first h (by decide) rfl).1
      · rintro rfl
        obtain ⟨hc, rfl⟩ := eq_of_first (d := '\\') h (by decide) rfl
        rw [hlast hc]
        rfl

/-- Where the bytes of parts stand for what comes after some bytes of a text, the parts stand for what comes
after some of its characters, and for the whole text if nothing comes before. -/
theorem cuts_of_bytes {ps : List (Part Char)} {cs : List Char} {u w : Bytes}
    (hone : .one ∈ ps → ∀ c ∈ cs, c.toNat < 0x80) (hw : cs.flatMap Utf8.encodeChar = u ++ w)
    (h : Cuts (ps.flatMap Part.bytes) w) :
    ∃ front back, cs = front ++ back ∧ (u = [] → front = []) ∧ Cuts ps back := by
  induction ps generalizing cs u w with
  | nil =>
      obtain rfl := cuts_nil.1 h
      rw [List.append_nil] at hw
      exact ⟨cs, [], (List.append_nil cs).symm, fun hu => Utf8.eq_nil_of_flatMap (hw.trans hu), cuts_nil.2 rfl⟩
  | cons p ps ih =>
      -- after a single element the rest of the parts has the rest of the characters
      have hrest {front back : List Char} {c : Char} (hcs : cs = front ++ c :: back)
          (hback : Cuts (ps.flatMap Part.bytes) (back.flatMap Utf8.encodeChar)) : Cuts ps back := by
        have hone' : .one ∈ ps → ∀ d ∈ back, d.toNat < 0x80 := fun h d hd =>
          hone (List.mem_cons_of_mem _ h) d (by simp [hcs, hd])
        obtain ⟨front', back, rfl, hfront', h⟩ := ih hone' (List.nil_append _).symm hback
        rwa [hfront' rfl]
      rw [List.flatMap_cons] at h
      cases p with
      | any =>
          obtain ⟨x, w, rfl, htail⟩ := cuts_any.1 h
          obtain ⟨front, back, rfl, -, hback⟩ :=
            ih (fun h => hone (List.mem_cons_of_mem _ h)) (hw.trans (List.append_assoc _ _ _).symm) htail
          exact ⟨[], front ++ back, rfl, fun _ => rfl, cuts_any.2 ⟨front, back, rfl, hback⟩⟩
      | one =>
          obtain ⟨b, w, rfl, htail⟩ := cuts_one.1 h
          obtain ⟨front, c, back, hcs, rfl, rfl⟩ := Utf8.flatMap_split_ascii (hone List.mem_cons_self) hw
          exact ⟨front, c :: back, hcs, Utf8.eq_nil_of_flatMap, cuts_one.2 ⟨c, back, rfl, hrest hcs htail⟩⟩
      | just c =>
          obtain ⟨w, rfl, htail⟩ := cuts_justs.1 h
          obtain ⟨front, back, hcs, rfl, rfl⟩ := Utf8.flatMap_split_char hw
          exact ⟨front, c :: back, hcs, Utf8.eq_nil_of_flatMap, cuts_just.2 ⟨back, rfl, hrest hcs htail⟩⟩

theorem cuts_bytes_of {ps : List (Part Char)} {cs : List Char} (hone : .one ∈ ps → ∀ c ∈ cs, c.toNat < 0x80)
    (h : Cuts ps cs) : Cuts (ps.flatMap Part.bytes) (cs.flatMap Utf8.encodeChar) := by
  induction ps generalizing cs with
  | nil =>
      obtain rfl := cuts_nil.1 h
      exact cuts_nil.2 rfl
  | cons p ps ih =>
      have hrest {back : List Char} (hsub : back ⊆ cs) (hback : Cuts ps back) :
          Cuts (ps.flatMap Part.bytes) (back.flatMap Utf8.encodeChar) :=
        ih (fun h c hc => hone (List.mem_cons_of_mem _ h) c (hsub hc)) hback
      rw [List.flatMap_cons]
      cases p with
      | any =>
          obtain ⟨s, b, rfl, htail⟩ := cuts_any.1 h
          rw [List.flatMap_append]
          exact cuts_any.2 ⟨_, _, rfl, hrest (List.subset_append_right s b) htail⟩
      | one =>
          obtain ⟨c, b, rfl, htail⟩ := cuts_one.1 h
          rw [List.flatMap_cons, Utf8.encodeChar_ascii (hone List.mem_cons_self c List.mem_cons_self)]
          exact cuts_one.2 ⟨_, _, rfl, hrest (List.subset_cons_self c b) htail⟩
      | just c =>
          obtain ⟨b, rfl, htail⟩ := cuts_just.1 h
          exact cuts_justs.2 ⟨_, rfl, hrest (List.subset_cons_self c b) htail⟩

/-- Byte strings that spell texts are cut as the texts are, where no part can stand for less than a character. -/
theorem cuts_bytes {ps : List (Part Char)} {cs : List Char} (hone : .one ∈ ps → ∀ c ∈ cs, c.toNat < 0x80) :
    Cuts (ps.flatMap Part.bytes) (cs.flatMap Utf8.encodeChar) ↔ Cuts ps cs := by
  constructor
  · intro h
    obtain ⟨front, back, rfl, hfront, hback⟩ := cuts_of_bytes hone (List.nil_append _).symm h
    rwa [hfront rfl]
  · exact cuts_bytes_of hone

theorem lossyChars_plain {bs : Bytes} (h : ∀ a ∈ bs, octets.Plain a) :
    ∀ c ∈ Utf8.lossyChars bs, characters.Plain c := by
  intro c hc
  have hbyte (hascii : c.toNat < 0x80) : octets.Plain (.ofNat c.toNat) := by
    obtain ⟨a, ha, hac⟩ := Utf8.mem_lossyChars hc hascii
    rw [← hac, UInt8.ofNat_toNat]
    exact h a ha
  refine ⟨?_, ?_, ?_⟩
  · rintro rfl
    exact (hbyte (by decide)).1 rfl
  · rintro rfl
    exact (hbyte (by decide)).2.1 rfl
  · rintro rfl
    exact (hbyte (by decide)).2.2 rfl

theorem one_mem_bytes {ps : List (Part Char)} (h : .one ∈ ps) : .one ∈ ps.flatMap Part.bytes :=
  List.mem_flatMap.2 ⟨.one, h, List.mem_singleton_self _⟩

variable {sc : Scope} {e f : Sql.Expr}

theorem eval_like_of_bytes {bs ts : Bytes} (hbs : eval sc e = .ok (.bytes bs)) (hts : eval sc f = .ok (.bytes ts)) :
    eval sc (.compare .like e f) = .ok (.bool (like (Utf8.lossyChars ts) (Utf8.lossyChars bs))) := by
  rw [eval, hbs, hts]
  rfl

/-- A pattern holds of the texts that can be cut as its parts say, and of byte strings as of the texts that these
spell. Well-formed ones are so cut byte by byte, unless a part stands for a single character and there are
characters of several bytes. -/
theorem eval_like_iff_cuts :
    (∀ {s t : String}, eval sc e = .ok (.string s) → eval sc f = .ok (.string t) →
      ∃ b, eval sc (.compare .like e f) = .ok (.bool b) ∧
        (b = true ↔ Cuts (characters.parts t.toList) s.toList) ∧
        ((∀ c ∈ t.toList, characters.Plain c) → (b = true ↔ s = t))) ∧
    (∀ {bs ts : Bytes}, eval sc e = .ok (.bytes bs) → eval sc f = .ok (.bytes ts) →
      ∃ b, eval sc (.compare .like e f) = .ok (.bool b) ∧
        (b = true ↔ Cuts (characters.parts (Utf8.lossyChars ts)) (Utf8.lossyChars bs)) ∧
        ((∀ a ∈ ts, octets.Plain a) → (b = true ↔ Utf8.lossy bs = Utf8.lossy ts)) ∧
        ∀ s t, bs = Utf8.encode s → ts = Utf8.encode t →
          ((.one ∈ octets.parts ts → ∀ a ∈ bs, a.toNat < 0x80) → (b = true ↔ Cuts (octets.parts ts) bs)) ∧
          ((∀ a ∈ ts, octets.Plain a) → (b = true ↔ bs = ts))) := by
  constructor
  · intro s t hs ht
    refine ⟨like t.toList s.toList, by rw [eval, hs, ht]; rfl, like_iff_cuts, fun hplain => ?_⟩
    rw [like_iff_cuts, Marks.cuts_plain hplain, String.toList_inj]
  · intro bs ts hbs hts
    have hlossy (hplain : ∀ a ∈ ts, octets.Plain a) :
        like (Utf8.lossyChars ts) (Utf8.lossyChars bs) = true ↔ Utf8.lossy bs = Utf8.lossy ts := by
      rw [like_iff_cuts, Marks.cuts_plain (lossyChars_plain hplain), Utf8.lossy, Utf8.lossy, String.ofList_inj]
    refine ⟨_, eval_like_of_bytes hbs hts, like_iff_cuts, hlossy, ?_⟩
    rintro s t rfl rfl
    refine ⟨fun hone => ?_, fun hplain => (hlossy hplain).trans Utf8.lossy_encode_inj⟩
    rw [Utf8.encode, parts_octets] at hone
    rw [like_iff_cuts, Utf8.encode, Utf8.encode, Utf8.lossyChars_flatMap, Utf8.lossyChars_flatMap, parts_octets,
      cuts_bytes fun h => Utf8.ascii_of_flatMap (hone (one_mem_bytes h))]

end Eval

namespace Motto

def scope : Eval.Scope := .ofParams (.ofList [("city", .string "Köln"), ("short", .string "K_%"),
  ("cityBytes", .bytes (Utf8.encode "Köln")), ("ends", .bytes (Utf8.encode "K%n")),
  ("letter", .bytes [0xC3, 0xB6]), ("one", .bytes [0x5F]), ("last", .bytes [0xFF]), ("other", .bytes [0xFE])])

end Motto

theorem Eval.eval_like_iff_cuts_sample :
    eval Motto.scope (.compare .like (.param "city") (.param "short")) = .ok (.bool true) ∧
      eval Motto.scope (.compare .like (.param "cityBytes") (.param "ends")) = .ok (.bool true) := by
  constructor
  · have hvalue : eval Motto.scope (.param "city") = .ok (.string "Köln") := rfl
    have hpattern : eval Motto.scope (.param "short") = .ok (.string "K_%") := rfl
    obtain ⟨b, heval, hb, -⟩ := eval_like_iff_cuts.1 hvalue hpattern
    have hcuts : Cuts (characters.parts "K_%".toList) "Köln".toList :=
      ⟨[['K'], ['ö'], ['l', 'n']], .cons rfl (.cons ⟨_, rfl⟩ (.cons trivial .nil)), rfl⟩
    rwa [hb.2 hcuts] at heval
  · have hvalue : eval Motto.scope (.param "cityBytes") = .ok (.bytes (Utf8.encode "Köln")) := rfl
    have hpattern : eval Motto.scope (.param "ends") = .ok (.bytes (Utf8.encode "K%n")) := rfl
    obtain ⟨b, heval, -, -, hb⟩ := eval_like_iff_cuts.2 hvalue hpattern
    have hone : .one ∈ octets.parts (Utf8.encode "K%n") → ∀ a ∈ Utf8.encode "Köln", a.toNat < 0x80 :=
      fun h => absurd h (by decide)
    have hcuts : Cuts (octets.parts (Utf8.encode "K%n")) (Utf8.encode "Köln") :=
      ⟨[[0x4B], [0xC3, 0xB6, 0x6C], [0x6E]], .cons rfl (.cons trivial (.cons rfl .nil)), rfl⟩
    rwa [((hb "Köln" "K%n" rfl rfl).1 hone).2 hcuts] at heval

/-- Two bytes that spell one character count as one, and so do all bytes that spell none. -/
theorem Eval.eval_like_octets :
    eval Motto.scope (.compare .like (.param "letter") (.param "one")) = .ok (.bool true) ∧
      ¬Cuts (octets.parts [0x5F]) [0xC3, 0xB6] ∧
      eval Motto.scope (.compare .like (.param "last") (.param "other")) = .ok (.bool true) ∧
      (∀ a ∈ [0xFE], octets.Plain a) ∧ ¬Cuts (octets.parts [0xFE]) [0xFF] := by
  have hletter : Utf8.lossyChars [0xC3, 0xB6] = ['ö'] := Utf8.lossyChars_flatMap ['ö']
  have hone : Utf8.lossyChars [0x5F] = ['_'] := Utf8.lossyChars_flatMap ['_']
  have hlast : Utf8.lossyChars [0xFF] = ['\uFFFD'] := by simp [Utf8.lossyChars, Utf8.head]
  have hother : Utf8.lossyChars [0xFE] = ['\uFFFD'] := by simp [Utf8.lossyChars, Utf8.head]
  have hplain : ∀ a ∈ [0xFE], octets.Plain a := by simp [Marks.Plain, octets]
  refine ⟨?_, ?_, ?_, hplain, ?_⟩
  · rw [eval_like_of_bytes rfl rfl, hone, hletter]
    rfl
  · have hparts : octets.parts [0x5F] = [.one] := rfl
    rw [hparts, cuts_one]
    simp [cuts_nil]
  · rw [eval_like_of_bytes rfl rfl, hother, hlast]
    rfl
  · rw [Marks.cuts_plain hplain]
    decide

end RowForest
