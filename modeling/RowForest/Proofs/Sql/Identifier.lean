import RowForest.Proofs.Sql.Reader
import Mathlib.Data.List.Induction

namespace RowForest.Sql.Reader

def identifier : Reader String := do
  if ← passes (.singleton backquote) then return .ofList (← quoted)
  else
    let w ← word
    if isPlain w then return w else failure

/-- Whether the backslashes directly before each backquote, and those at the end, are even in number. -/
def Paired (cs : List Char) : Prop :=
  ∀ as n bs, cs = as ++ (List.replicate n '\\' ++ bs) → as.getLast? ≠ some '\\' →
    (∀ c ∈ bs.head?, c = backquote) → n % 2 = 0

/-- Whether the quotes around a name are read as closing where they do. -/
def Closes (cs rest : List Char) : Prop :=
  ∃ ds, quoted (escapeBackquotes cs ++ backquote :: rest) = some (ds, rest)

def isMark (c : Char) : Bool := c = backquote || c = '\\'

variable {s : String} {c : Char} {cs ds rest : List Char}

theorem countP_cons_le (c : Char) (cs : List Char) : (c :: cs).countP isMark ≤ cs.countP isMark + 1 := by
  rw [List.countP_cons]
  split <;> omega

theorem length_quoted (h : quoted cs = some (ds, rest)) :
    ds.length + ds.countP isMark + rest.length < cs.length := by
  induction cs using quoted.induct generalizing ds with
  | case1 => cases h
  | case2 c cs ih =>
      rw [quoted, Option.map_eq_some_iff] at h
      obtain ⟨⟨es, _⟩, hes, ⟨⟩⟩ := h
      have hlength := ih hes
      have hcount := countP_cons_le c es
      simp only [List.length_cons] at hlength ⊢
      omega
  | case3 cs hpair =>
      rw [quoted, if_pos rfl] at h
      · cases h
        simp
      · exact hpair
  | case4 c cs hpair hc ih =>
      rw [quoted, if_neg hc, Option.map_eq_some_iff] at h
      · obtain ⟨⟨es, _⟩, hes, ⟨⟩⟩ := h
        have hlength := ih hes
        have hmark : isMark c = false := by
          cases cs with
          | nil => cases hes
          | cons d cs => simpa [isMark, hc] using fun h => hpair d cs h rfl
        simp only [List.length_cons, List.countP_cons_of_neg (ne_true_of_eq_false hmark), id_eq] at hlength ⊢
        omega
      · exact hpair

theorem length_escapeBackquotes (cs : List Char) :
    (escapeBackquotes cs).length + cs.count '\\' = cs.length + cs.countP isMark := by
  induction cs with
  | nil => rfl
  | cons c cs ih =>
      by_cases hc : c = backquote
      · subst hc
        rw [escapeBackquotes, if_pos rfl, List.count_cons_of_ne (by decide), List.countP_cons_of_pos (by decide)]
        simp only [List.length_cons]
        omega
      · rw [escapeBackquotes, if_neg hc, List.count_cons, List.countP_cons]
        simp only [isMark, hc, decide_false, Bool.false_or, decide_eq_true_eq, beq_iff_eq, List.length_cons]
        omega

theorem quoted_escapeBackquotes_iff :
    quoted (escapeBackquotes cs ++ backquote :: rest) = some (cs, rest) ↔ '\\' ∉ cs := by
  refine ⟨fun h => ?_, quoted_escapeBackquotes⟩
  have hlength := length_quoted h
  have hescape := length_escapeBackquotes cs
  rw [List.length_append, List.length_cons] at hlength
  exact List.count_eq_zero.1 (by omega)

theorem getLast?_cons_ne {d : Char} : (c :: cs).getLast? ≠ some d ↔ (cs = [] → c ≠ d) ∧ cs.getLast? ≠ some d := by
  cases cs <;> simp

theorem not_paired_lone : ¬Paired ['\\'] := fun h => absurd (h [] 1 [] rfl nofun nofun) (by decide)

theorem not_paired_quote (cs : List Char) : ¬Paired ('\\' :: backquote :: cs) :=
  fun h => absurd (h [] 1 (backquote :: cs) rfl nofun (by simp)) (by decide)

theorem paired_cons (hc : c ≠ '\\') : Paired (c :: cs) ↔ Paired cs := by
  constructor
  · intro h as n bs hcs has
    exact h (c :: as) n bs (by rw [hcs, List.cons_append]) (getLast?_cons_ne.2 ⟨fun _ => hc, has⟩)
  · rintro h (_ | ⟨d, as⟩) n bs hcs has hbs
    · cases n with
      | zero => rfl
      | succ n => exact absurd (List.cons.inj hcs).1 hc
    · exact h as n bs (List.cons.inj hcs).2 (getLast?_cons_ne.1 has).2 hbs

theorem paired_escape (hc : c ≠ backquote) : Paired ('\\' :: c :: cs) ↔ Paired cs := by
  constructor
  · rintro h (_ | ⟨d, as⟩) n bs rfl has hbs
    · by_cases hescape : c = '\\'
      · subst hescape
        have heven := h [] (n + 2) bs rfl has hbs
        omega
      · exact h ['\\', c] n bs rfl (by simpa using hescape) hbs
    · exact h ('\\' :: c :: d :: as) n bs rfl (by simpa using has) hbs
  · rintro h (_ | ⟨d, _ | ⟨e, as⟩⟩) n bs hcs has hbs
    · match n with
      | 0 => rfl
      | 1 =>
        obtain rfl : c :: cs = bs := (List.cons.inj hcs).2
        exact absurd (hbs c rfl) hc
      | n + 2 =>
        have hrest : cs = List.replicate n '\\' ++ bs := (List.cons.inj (List.cons.inj hcs).2).2
        have heven := h [] n bs hrest has hbs
        omega
    · obtain rfl : '\\' = d := (List.cons.inj hcs).1
      exact absurd rfl has
    · have hrest : cs = as ++ (List.replicate n '\\' ++ bs) := (List.cons.inj (List.cons.inj hcs).2).2
      exact h as n bs hrest (getLast?_cons_ne.1 (getLast?_cons_ne.1 has).2).2 hbs

theorem paired_of_not_mem (h : '\\' ∉ cs) : Paired cs := by
  rintro as (_ | n) bs rfl - -
  · rfl
  · exact absurd (by simp [List.replicate_succ]) h

theorem quoted_escape (c : Char) (cs : List Char) :
    quoted ('\\' :: c :: cs) = (quoted cs).map (Prod.map (c :: ·) id) := by
  rw [quoted]

theorem quoted_close (cs : List Char) : quoted (backquote :: cs) = some ([], cs) := by
  rw [quoted, if_pos rfl]
  rintro d ds ⟨⟩

theorem exists_map_cons {x : Option (List Char × List Char)} :
    (∃ ds, x.map (Prod.map (c :: ·) id) = some (ds, rest)) ↔ ∃ ds, x = some (ds, rest) := by
  rcases x with _ | ⟨es, cs⟩ <;> simp [Prod.ext_iff]

theorem closes_nil (rest : List Char) : Closes [] rest := ⟨[], quoted_close rest⟩

theorem not_closes_lone (rest : List Char) : ¬Closes ['\\'] rest := by
  rintro ⟨ds, h⟩
  rw [escapeBackquotes, if_neg (by decide), escapeBackquotes, List.cons_append, List.nil_append, quoted_escape] at h
  obtain ⟨es, hes⟩ := exists_map_cons.1 ⟨ds, h⟩
  have hlength := length_quoted hes
  omega

theorem not_closes_quote (cs rest : List Char) : ¬Closes ('\\' :: backquote :: cs) rest := by
  rintro ⟨ds, h⟩
  rw [escapeBackquotes, if_neg (by decide), escapeBackquotes, if_pos rfl, List.cons_append, List.cons_append,
    quoted_escape, List.cons_append, quoted_close] at h
  have hlength := congrArg List.length (congrArg Prod.snd (Option.some.inj h))
  simp at hlength
  omega

theorem closes_cons (hc : c ≠ '\\') : Closes (c :: cs) rest ↔ Closes cs rest := by
  unfold Closes
  rw [escapeBackquotes]
  split_ifs with hquote
  · rw [List.cons_append, List.cons_append, quoted_escape, exists_map_cons]
  · rw [List.cons_append, quoted, if_neg hquote, exists_map_cons]
    exact fun _ _ h => absurd h hc

theorem closes_escape (hc : c ≠ backquote) : Closes ('\\' :: c :: cs) rest ↔ Closes cs rest := by
  unfold Closes
  rw [escapeBackquotes, if_neg (by decide), escapeBackquotes, if_neg hc, List.cons_append, List.cons_append,
    quoted_escape, exists_map_cons]

/-- The quotes around a name close at its end exactly if no backslash of its own escapes the last of them or is
taken for the escape of a backquote. -/
theorem closes_iff : Closes cs rest ↔ Paired cs := by
  induction cs using List.twoStepInduction with
  | nil => exact iff_of_true (closes_nil rest) (paired_of_not_mem List.not_mem_nil)
  | singleton c =>
      by_cases hc : c = '\\'
      · subst hc
        exact iff_of_false (not_closes_lone rest) not_paired_lone
      · rw [closes_cons hc, paired_cons hc]
        exact iff_of_true (closes_nil rest) (paired_of_not_mem List.not_mem_nil)
  | cons_cons c d cs ih ihd =>
      by_cases hc : c = '\\'
      · subst hc
        by_cases hd : d = backquote
        · subst hd
          exact iff_of_false (not_closes_quote cs rest) (not_paired_quote cs)
        · rw [closes_escape hd, paired_escape hd, ih]
      · rw [closes_cons hc, paired_cons hc, ihd]

theorem identifier_quoted (hplain : isPlain s = false) {t : String} :
    identifier ((nameText s).toList ++ rest) = some (t, ds) ↔
      quoted (escapeBackquotes s.toList ++ backquote :: rest) = some (t.toList, ds) := by
  have htext : (nameText s).toList ++ rest =
      (String.singleton backquote).toList ++ (escapeBackquotes s.toList ++ backquote :: rest) := by
    rw [nameText, hplain]
    simp
  have hread : identifier ((nameText s).toList ++ rest) =
      (quoted (escapeBackquotes s.toList ++ backquote :: rest)).bind fun p => some (.ofList p.1, p.2) := by
    rw [htext, identifier, passes_then]
    rfl
  rw [hread, Option.bind_eq_some_iff]
  constructor
  · rintro ⟨⟨es, _⟩, hes, ⟨⟩⟩
    rw [hes, String.toList_ofList]
  · intro h
    exact ⟨_, h, by rw [String.ofList_toList]⟩

theorem identifier_plain (hplain : isPlain s = true) (hrest : Apart rest) :
    identifier ((nameText s).toList ++ rest) = some (s, rest) := by
  rw [nameText, if_pos hplain, identifier, passes_else (not_next_quote hplain rest),
    bind_of (word_append (continuesName_of_isPlain hplain) hrest), if_pos hplain]
  rfl

theorem not_mem_of_isPlain (h : isPlain s = true) : '\\' ∉ s.toList := fun hmem =>
  absurd (List.all_eq_true.1 (continuesName_of_isPlain h) _ hmem) (by decide)

/-- A name is read back from its text, in front of anything that does not continue it, exactly if it has no
backslash. What comes after the text is left as it is exactly if the backslashes of the name stand in pairs
before each of its backquotes and at its end. -/
theorem identifier_nameText (s : String) (hrest : Apart rest) :
    (identifier ((nameText s).toList ++ rest) = some (s, rest) ↔ '\\' ∉ s.toList) ∧
      ((∃ t, identifier ((nameText s).toList ++ rest) = some (t, rest)) ↔ Paired s.toList) := by
  cases hplain : isPlain s with
  | true =>
      have hread := identifier_plain hplain hrest
      have hnone := not_mem_of_isPlain hplain
      exact ⟨iff_of_true hread hnone, iff_of_true ⟨s, hread⟩ (paired_of_not_mem hnone)⟩
  | false =>
      simp only [identifier_quoted hplain]
      refine ⟨quoted_escapeBackquotes_iff, ?_⟩
      rw [← @closes_iff _ rest]
      exact ⟨fun ⟨t, h⟩ => ⟨t.toList, h⟩, fun ⟨ds, h⟩ => ⟨.ofList ds, by rw [String.toList_ofList, h]⟩⟩

theorem identifier_nameText_sample : Apart " FROM Album".toList ∧
    identifier ((nameText "group` BY é").toList ++ " FROM Album".toList) =
      some ("group` BY é", " FROM Album".toList) := by
  have hrest : Apart " FROM Album".toList := apart_cons rfl
  exact ⟨hrest, (identifier_nameText "group` BY é" hrest).1.2 (by simp)⟩

/-- A backslash at the end of a name keeps its quotes open, and one before a backquote lets the rest of the name
stand as text of the statement. -/
theorem identifier_nameText_backslash : Apart " = @id".toList ∧
    identifier ((nameText "id\\").toList ++ " = @id".toList) = none ∧
      identifier ((nameText "id\\` IS NULL OR TRUE").toList ++ " = @id".toList) =
        some ("id\\", " IS NULL OR TRUE` = @id".toList) := by
  exact ⟨apart_cons rfl, by decide⟩

end RowForest.Sql.Reader
